/-
Coherence of a shared cache.  Any number of readers, committers and sweepers
share one store and one cache.  Each of them acts in atomic steps, and between
two steps of one the others may take any of theirs.  A reader takes a ticket,
reads the store and offers what it read; a committer or a sweeper changes the
store and then invalidates what it changed.
-/
import ObjectVault.Proofs.CacheEntries
import ObjectVault.Proofs.LawfulStore
import ObjectVault.Proofs.PackRun
import ObjectVault.Proofs.TransactionRun
import ObjectVault.Vault
import Mathlib.Logic.Function.Basic

namespace ObjectVault

open LawfulStore (Valid Holds)
open ObjectStore (current? last?)

/-- What a client of the store and the cache has begun. -/
inductive CacheClient (σ : Type) where
  | idle
  /-- A reader that has its ticket. -/
  | asking (ticket : FillTicket)
  /-- A reader that has read these versions and still has to offer them. -/
  | holding (ticket : FillTicket) (versions : List Version)
  /-- A committer that still has to invalidate what it wrote. -/
  | committed (before after : σ) (tid : Tid) (oids : List Oid)
  /-- A sweeper that still has to invalidate what it deleted. -/
  | deleted (before after : σ) (oids : List Oid)

namespace CacheClient

variable {σ : Type}

def ticket? : CacheClient σ → Option FillTicket
  | asking ticket | holding ticket _ => some ticket
  | idle | committed .. | deleted .. => none

/-- Whether the client is a committer or a sweeper between its two steps, and
the first of them superseded or deleted that version. -/
def Retires [ObjectStore σ] (client : CacheClient σ) (oid : Oid) (tid : Tid) : Prop :=
  match client with
  | committed before after _ oids | deleted before after oids =>
      oid ∈ oids ∧ HasCurrent before oid tid ∧ ¬ HasCurrent after oid tid
  | idle | asking _ | holding .. => False

end CacheClient

structure CacheScene (σ ν : Type) where
  store : σ
  cache : Cache ν
  clients : Nat → CacheClient σ := fun _ => .idle
  /-- Every commit so far, with the objects it wrote. -/
  commits : List (Tid × List Oid) := []
  /-- The commits that have been followed by their invalidation. -/
  settled : List (Tid × List Oid) := []

/-- What happens next. -/
inductive CacheMove (ν : Type) where
  | ticket (client : Nat)
  | read (client : Nat) (oid : Oid)
  | readMany (client : Nat) (oids : List Oid)
  /-- Offer the first of the versions that were read, decoded. -/
  | fill (client : Nat) (value : ν) (size : Nat)
  /-- A reader goes no further. -/
  | leave (client : Nat)
  | commit (client : Nat) (now : Instant) (note : CommitNote) (writes : List Write)
  | delete (client : Nat) (oids : List Oid) (guardTid : Tid)
  | invalidate (client : Nat)
  /-- Look an object up, which makes it the most recently used one. -/
  | lookUp (oid : Oid)
  | evict (oid : Oid)
  | clear
  /-- A call that leaves the current versions alone. -/
  | upkeep (action : StoreAction)

namespace CacheScene

variable {σ ν : Type} {scene : CacheScene σ ν}

/-- A cache that nobody has used yet, before any store. -/
def start (store : σ) (budget : Nat) : CacheScene σ ν :=
  { store, cache := { budget } }

/-- The scene with a client in another state. -/
def enter (scene : CacheScene σ ν) (client : Nat) (state : CacheClient σ) : CacheScene σ ν :=
  { scene with clients := Function.update scene.clients client state }

theorem clients_enter_self (scene : CacheScene σ ν) (client : Nat) (state : CacheClient σ) :
    (scene.enter client state).clients client = state := by
  simp [enter]

theorem clients_enter_of_ne {scene : CacheScene σ ν} {client other : Nat} {state : CacheClient σ}
    (hne : other ≠ client) : (scene.enter client state).clients other = scene.clients other := by
  simp [enter, hne]

/-- The version is cached, or a reader with a fresh ticket still has to offer
it. -/
def Serves (scene : CacheScene σ ν) (oid : Oid) (tid : Tid) : Prop :=
  (∃ value, scene.cache.find? oid = some (tid, value)) ∨
    ∃ client versions, scene.clients client = .holding scene.cache.ticket versions ∧
      ∃ version ∈ versions, version.oid = oid ∧ version.tid = tid

/-- A cache with the same tickets serves no more if it holds no more. -/
theorem serves_of_subset {cache : Cache ν} (hticket : cache.ticket = scene.cache.ticket)
    (hsubset : ∀ oid found, cache.find? oid = some found → scene.cache.find? oid = some found)
    {oid : Oid} {tid : Tid} (hserved : ({ scene with cache } : CacheScene σ ν).Serves oid tid) :
    scene.Serves oid tid := by
  rcases hserved with ⟨value, hcached⟩ | ⟨client, versions, hholds, hversion⟩
  · exact Or.inl ⟨value, hsubset oid _ hcached⟩
  · rw [hticket] at hholds
    exact Or.inr ⟨client, versions, hholds, hversion⟩

theorem serves_enter {client : Nat} {state : CacheClient σ} {oid : Oid} {tid : Tid}
    (hserved : (scene.enter client state).Serves oid tid) :
    scene.Serves oid tid ∨ ∃ versions, state = .holding scene.cache.ticket versions ∧
      ∃ version ∈ versions, version.oid = oid ∧ version.tid = tid := by
  rcases hserved with hcached | ⟨other, versions, hholds, hversion⟩
  · exact Or.inl (Or.inl hcached)
  · by_cases hsame : other = client
    · rw [hsame, clients_enter_self] at hholds
      exact Or.inr ⟨versions, hholds, hversion⟩
    · rw [clients_enter_of_ne hsame] at hholds
      exact Or.inl (Or.inr ⟨other, versions, hholds, hversion⟩)

variable [ObjectStore σ]

/-- One atomic step.  A client that is not ready for it does nothing. -/
def move (scene : CacheScene σ ν) : CacheMove ν → CacheScene σ ν
  | .ticket client =>
      match scene.clients client with
      | .idle => scene.enter client (.asking scene.cache.ticket)
      | _ => scene
  | .read client oid =>
      match scene.clients client, ObjectStore.load scene.store oid with
      | .asking ticket, .ok (some version) => scene.enter client (.holding ticket [version])
      | _, _ => scene
  | .readMany client oids =>
      match scene.clients client, ObjectStore.loadMany scene.store oids with
      | .asking ticket, .ok found => scene.enter client (.holding ticket (found.filterMap id))
      | _, _ => scene
  | .fill client value size =>
      match scene.clients client with
      | .holding ticket (version :: versions) =>
          { scene.enter client (.holding ticket versions) with
            cache := (scene.cache.putIfFresh version.oid version.tid value size ticket).2 }
      | _ => scene
  | .leave client =>
      match scene.clients client with
      | .asking _ | .holding .. => scene.enter client .idle
      | _ => scene
  | .commit client now note writes =>
      match scene.clients client, ObjectStore.commit scene.store now note writes with
      | .idle, .ok (tid, after) =>
          let oids := writes.map Write.oid
          { scene.enter client (.committed scene.store after tid oids) with
            store := after, commits := (tid, oids) :: scene.commits }
      | _, _ => scene
  | .delete client oids guardTid =>
      match scene.clients client, ObjectStore.deleteObjects scene.store oids guardTid with
      | .idle, .ok (.deleted .., after) =>
          { scene.enter client (.deleted scene.store after oids) with store := after }
      | .idle, .ok (.stale _, after) => { scene with store := after }
      | _, _ => scene
  | .invalidate client =>
      match scene.clients client with
      | .committed _ _ tid oids =>
          { scene.enter client .idle with
            cache := scene.cache.invalidate oids, settled := (tid, oids) :: scene.settled }
      | .deleted _ _ oids =>
          { scene.enter client .idle with cache := scene.cache.invalidate oids }
      | _ => scene
  | .lookUp oid => { scene with cache := (scene.cache.get oid).2 }
  | .evict oid => { scene with cache := scene.cache.remove oid }
  | .clear => { scene with cache := scene.cache.clear }
  | .upkeep action =>
      if action.isQuiet then { scene with store := perform scene.store action } else scene

def run (scene : CacheScene σ ν) (moves : List (CacheMove ν)) : CacheScene σ ν :=
  moves.foldl move scene

/-- Finishing a transaction is a commit and an invalidation, or nothing. -/
theorem run_finish (scene : CacheScene σ ν) {client : Nat} (hidle : scene.clients client = .idle)
    (txn : Transaction) (clock : Clock) :
    ∃ moves, (scene.run moves).store = (txn.finish clock scene.store scene.cache).store ∧
      (scene.run moves).cache = (txn.finish clock scene.store scene.cache).cache := by
  rcases txn.finish_cases clock scene.store scene.cache with
    ⟨hstore, hcache, _⟩ | ⟨_, tid, _, hcommit, hcache⟩
  · exact ⟨[], hstore.symm, hcache.symm⟩
  · refine ⟨[.commit client clock.wall txn.note txn.writes, .invalidate client], ?_⟩
    simp only [run, List.foldl_cons, List.foldl_nil, move, hidle, hcommit, enter,
      Function.update_self, true_and]
    exact hcache.symm

/-- A step of a sweep is a deletion and an invalidation, or nothing. -/
theorem run_sweep (scene : CacheScene σ ν) {client : Nat} (hidle : scene.clients client = .idle)
    {settings : PackSettings} {cancelled : Bool} {sweep next : Sweep} {store : σ} {cache : Cache ν}
    (h : sweep.step settings cancelled scene.store scene.cache = .going next store cache) :
    ∃ moves, (scene.run moves).store = store ∧ (scene.run moves).cache = cache := by
  cases Sweep.touches_of_step h with
  | nothing => exact ⟨[], rfl, rfl⟩
  | deleted hdelete =>
      refine ⟨[.delete client sweep.batch sweep.guardTid, .invalidate client], ?_⟩
      simp only [run, List.foldl_cons, List.foldl_nil, move, hidle, hdelete, enter,
        Function.update_self, true_and]
      rfl
  | stale hdelete =>
      refine ⟨[.delete client sweep.batch sweep.guardTid], ?_⟩
      simp only [run, List.foldl_cons, List.foldl_nil, move, hidle, hdelete, and_self]

/-- Loading an object is a look-up, followed if it misses by the three steps of
a reader. -/
theorem run_load (codec : Codec ν) (vault : Vault ν) (scene : CacheScene σ ν)
    (hcache : scene.cache = vault.cache) {client : Nat} (hidle : scene.clients client = .idle)
    (oid : Oid) :
    ∃ moves, (scene.run moves).store = scene.store ∧
      (scene.run moves).cache = (vault.load codec scene.store oid).2.cache := by
  have hmiss : (scene.run [.lookUp oid]).cache = (vault.cache.get oid).2 := by
    rw [← hcache]
    rfl
  simp only [Vault.load]
  split
  · exact ⟨[.lookUp oid], rfl, hmiss⟩
  · split
    · exact ⟨[.lookUp oid], rfl, hmiss⟩
    · exact ⟨[.lookUp oid], rfl, hmiss⟩
    · rename_i version hload
      simp only [Vault.fill]
      cases hdecode : codec.decode version.state with
      | error => exact ⟨[.lookUp oid], rfl, hmiss⟩
      | ok object =>
          refine ⟨[.lookUp oid, .ticket client, .read client oid,
            .fill client object version.size], ?_⟩
          simp only [run, List.foldl_cons, List.foldl_nil, move, hidle, hload, enter,
            Function.update_self, hcache, and_self]

/-- A client that superseded or deleted the version still has to invalidate
it. -/
def Retired (scene : CacheScene σ ν) (oid : Oid) (tid : Tid) : Prop :=
  ∃ client, (scene.clients client).Retires oid tid

theorem commits_move (scene : CacheScene σ ν) (move : CacheMove ν) :
    ∀ commit ∈ scene.commits, commit ∈ (scene.move move).commits := by
  intro commit hmem
  cases move with
  | commit client now note writes =>
      simp only [CacheScene.move]
      split
      · exact List.mem_cons_of_mem _ hmem
      · exact hmem
  | lookUp | evict | clear => exact hmem
  | ticket | read | readMany | fill | leave | delete | invalidate | upkeep =>
      simp only [CacheScene.move]
      split <;> exact hmem

theorem commits_run (scene : CacheScene σ ν) (moves : List (CacheMove ν)) :
    ∀ commit ∈ scene.commits, commit ∈ (scene.run moves).commits := by
  induction moves generalizing scene with
  | nil => exact fun _ => id
  | cons move rest ih =>
      intro commit hmem
      exact ih (scene.move move) commit (commits_move scene move commit hmem)

theorem retired_enter {client : Nat} {state : CacheClient σ}
    (hreads : ∀ oid tid, ¬ (scene.clients client).Retires oid tid) {oid : Oid} {tid : Tid}
    (hretired : scene.Retired oid tid) : (scene.enter client state).Retired oid tid := by
  obtain ⟨other, hretires⟩ := hretired
  have hother : other ≠ client := by
    intro hsame
    exact hreads oid tid (hsame ▸ hretires)
  refine ⟨other, ?_⟩
  rw [clients_enter_of_ne hother]
  exact hretires

variable [LawfulStore σ]

/-- What holds in every reachable scene. -/
structure Coherent (scene : CacheScene σ ν) : Prop where
  valid : Valid scene.store
  ticket_le {client : Nat} {ticket : FillTicket} : (scene.clients client).ticket? = some ticket →
    ticket.generation ≤ scene.cache.ticket.generation
  accounted {oid : Oid} {tid : Tid} : scene.Serves oid tid →
    HasCurrent scene.store oid tid ∨ scene.Retired oid tid
  commit_passed {tid : Tid} {oids : List Oid} : (tid, oids) ∈ scene.commits →
    Passed scene.store tid
  current_above {tid other : Tid} {oids : List Oid} {oid : Oid} : (tid, oids) ∈ scene.commits →
    oid ∈ oids → HasCurrent scene.store oid other → tid ≤ other
  pending {client : Nat} {before after : σ} {tid : Tid} {oids : List Oid} :
    scene.clients client = .committed before after tid oids → (tid, oids) ∈ scene.commits
  settled {tid : Tid} {oids : List Oid} : (tid, oids) ∈ scene.settled → (tid, oids) ∈ scene.commits
  served_above {tid other : Tid} {oids : List Oid} {oid : Oid} : (tid, oids) ∈ scene.settled →
    oid ∈ oids → scene.Serves oid other → tid ≤ other

theorem coherent_start {store : σ} (hvalid : Valid store) (budget : Nat) :
    (start store budget : CacheScene σ ν).Coherent := by
  constructor
  · exact hvalid
  · intro client ticket hasks
    cases hasks
  · rintro oid tid (⟨value, hcached⟩ | ⟨client, versions, hholds, _⟩)
    · simp [start, Cache.find?] at hcached
    · cases hholds
  · intro tid oids hmem
    cases hmem
  · intro tid other oids oid hmem
    cases hmem
  · intro client before after tid oids hcommitted
    cases hcommitted
  · intro tid oids hmem
    cases hmem
  · intro tid other oids oid hmem
    cases hmem

/-- No client has a ticket of the next generation. -/
theorem Coherent.not_holding_next (h : scene.Coherent) (client : Nat) (versions : List Version) :
    scene.clients client ≠ .holding ⟨scene.cache.ticket.generation + 1⟩ versions := by
  intro hholds
  have hasks : (scene.clients client).ticket? = some ⟨scene.cache.ticket.generation + 1⟩ := by
    rw [hholds]
    rfl
  exact Nat.not_succ_le_self _ (h.ticket_le hasks)

/-- Less may be served from a cache that lost entries or whose tickets became
stale. -/
theorem Coherent.recache (h : scene.Coherent) {cache : Cache ν}
    (hticket : scene.cache.ticket.generation ≤ cache.ticket.generation)
    (hserves : ∀ oid tid, ({ scene with cache } : CacheScene σ ν).Serves oid tid →
      scene.Serves oid tid) : ({ scene with cache } : CacheScene σ ν).Coherent where
  valid := h.valid
  ticket_le hclient := le_trans (h.ticket_le hclient) hticket
  accounted hserved := h.accounted (hserves _ _ hserved)
  commit_passed := h.commit_passed
  current_above := h.current_above
  pending := h.pending
  settled := h.settled
  served_above hsettled hmem hserved := h.served_above hsettled hmem (hserves _ _ hserved)

/-- Tickets are no newer than the cache, whatever state a client enters. -/
theorem Coherent.ticket_le_enter (h : scene.Coherent) {client : Nat} {state : CacheClient σ}
    {bound : Nat} (hbound : scene.cache.ticket.generation ≤ bound)
    (hstate : ∀ ticket, state.ticket? = some ticket → ticket.generation ≤ bound)
    {other : Nat} {ticket : FillTicket}
    (hother : ((scene.enter client state).clients other).ticket? = some ticket) :
    ticket.generation ≤ bound := by
  by_cases hsame : other = client
  · rw [hsame, clients_enter_self] at hother
    exact hstate ticket hother
  · rw [clients_enter_of_ne hsame] at hother
    exact le_trans (h.ticket_le hother) hbound

/-- A committer's commit is listed, whatever state another client enters. -/
theorem Coherent.pending_enter (h : scene.Coherent) {client : Nat} {state : CacheClient σ}
    {commits : List (Tid × List Oid)} (hearlier : ∀ commit ∈ scene.commits, commit ∈ commits)
    (hstate : ∀ before after tid oids, state = .committed before after tid oids →
      (tid, oids) ∈ commits)
    {other : Nat} {before after : σ} {tid : Tid} {oids : List Oid}
    (hother : (scene.enter client state).clients other = .committed before after tid oids) :
    (tid, oids) ∈ commits := by
  by_cases hsame : other = client
  · rw [hsame, clients_enter_self] at hother
    exact hstate before after tid oids hother
  · rw [clients_enter_of_ne hsame] at hother
    exact hearlier _ (h.pending hother)

/-- A reader goes on.  It may hold what was served before or is current. -/
theorem Coherent.enter (h : scene.Coherent) {client : Nat} {state : CacheClient σ}
    (hreads : ∀ oid tid, ¬ (scene.clients client).Retires oid tid)
    (hstate : ∀ before after tid oids, state ≠ .committed before after tid oids)
    (hticket : ∀ ticket, state.ticket? = some ticket →
      ticket.generation ≤ scene.cache.ticket.generation)
    (hheld : ∀ versions, state = .holding scene.cache.ticket versions → ∀ version ∈ versions,
      scene.Serves version.oid version.tid ∨ HasCurrent scene.store version.oid version.tid) :
    (scene.enter client state).Coherent := by
  have hserves : ∀ oid tid, (scene.enter client state).Serves oid tid →
      scene.Serves oid tid ∨ HasCurrent scene.store oid tid := by
    intro oid tid hserved
    rcases serves_enter hserved with hbefore | ⟨versions, hholds, version, hmem, rfl, rfl⟩
    · exact Or.inl hbefore
    · exact hheld versions hholds version hmem
  constructor
  · exact h.valid
  · exact h.ticket_le_enter (le_refl _) hticket
  · intro oid tid hserved
    rcases hserves oid tid hserved with hbefore | hcurrent
    · exact (h.accounted hbefore).imp_right (retired_enter hreads)
    · exact Or.inl hcurrent
  · exact h.commit_passed
  · exact h.current_above
  · apply h.pending_enter fun _ => id
    intro before after tid oids hentered
    exact absurd hentered (hstate before after tid oids)
  · exact h.settled
  · intro tid other oids oid hsettled hmem hserved
    rcases hserves oid other hserved with hbefore | hcurrent
    · exact h.served_above hsettled hmem hbefore
    · exact h.current_above (h.settled hsettled) hmem hcurrent

/-- A fill puts in what its reader held under a fresh ticket. -/
theorem Coherent.fill (h : scene.Coherent) {client : Nat} {ticket : FillTicket}
    {version : Version} {versions : List Version}
    (hholds : scene.clients client = .holding ticket (version :: versions)) (value : ν)
    (size : Nat) :
    ({ scene.enter client (.holding ticket versions) with
        cache := (scene.cache.putIfFresh version.oid version.tid value size ticket).2 }
      : CacheScene σ ν).Coherent := by
  have hsame := Cache.ticket_putIfFresh scene.cache version.oid version.tid value size ticket
  generalize hcache : (scene.cache.putIfFresh version.oid version.tid value size ticket).2 = cache
    at hsame ⊢
  have hfilled : ({ scene with cache } : CacheScene σ ν).Coherent := by
    apply h.recache (le_of_eq (congrArg FillTicket.generation hsame.symm))
    intro oid tid hserved
    rcases hserved with ⟨found, hcached⟩ | ⟨other, others, hother, hversion⟩
    · rw [← hcache] at hcached
      rcases Cache.find?_of_putIfFresh hcached with ⟨hfresh, rfl, hpair⟩ | hbefore
      · cases hpair
        rw [hfresh] at hholds
        exact Or.inr ⟨client, _, hholds, version, List.mem_cons_self, rfl, rfl⟩
      · exact Or.inl ⟨found, hbefore⟩
    · rw [hsame] at hother
      exact Or.inr ⟨other, others, hother, hversion⟩
  apply hfilled.enter
  · intro oid tid
    rw [hholds]
    exact id
  · nofun
  · intro other hother
    have hasked : (scene.clients client).ticket? = some other := by
      rw [hholds]
      exact hother
    exact hfilled.ticket_le hasked
  · rintro _ ⟨⟩ other hmem
    exact Or.inl (Or.inr ⟨client, _, hholds, other, List.mem_cons_of_mem _ hmem, rfl, rfl⟩)

/-- What becomes current is above every commit. -/
theorem Coherent.grows_above (h : scene.Coherent) {after : σ} (hgrows : Grows scene.store after)
    {tid other : Tid} {oids : List Oid} {oid : Oid} (hcommit : (tid, oids) ∈ scene.commits)
    (hmem : oid ∈ oids) (hcurrent : HasCurrent after oid other) : tid ≤ other := by
  rcases hgrows.hasCurrent hcurrent with hold | hnew
  · exact h.current_above hcommit hmem hold
  · exact le_of_lt (hnew tid (h.commit_passed hcommit))

/-- Work that loses nothing keeps a scene coherent. -/
theorem Coherent.restore (h : scene.Coherent) {after : σ} (hvalid : Valid after)
    (hloses : Loses scene.store [] after) :
    ({ scene with store := after } : CacheScene σ ν).Coherent where
  valid := hvalid
  ticket_le := h.ticket_le
  accounted hserved := by
    rcases h.accounted hserved with ⟨version, hversion, htid⟩ | hretired
    · exact Or.inl ⟨version, (hloses.current _).trans hversion, htid⟩
    · exact Or.inr hretired
  commit_passed hcommit := hloses.grows.passed (h.commit_passed hcommit)
  current_above := h.grows_above hloses.grows
  pending := h.pending
  settled := h.settled
  served_above := h.served_above

/-- A client that was idle changes the store.  It accounts for the versions
that are no longer current. -/
theorem Coherent.change (h : scene.Coherent) {client : Nat} {state : CacheClient σ} {after : σ}
    {commits : List (Tid × List Oid)} (hidle : scene.clients client = .idle)
    (hvalid : Valid after) (hgrows : Grows scene.store after) (hticket : state.ticket? = none)
    (hretires : ∀ oid tid, HasCurrent scene.store oid tid →
      HasCurrent after oid tid ∨ state.Retires oid tid)
    (hearlier : ∀ commit ∈ scene.commits, commit ∈ commits)
    (hnew : ∀ commit ∈ commits, commit ∈ scene.commits ∨
      Passed after commit.1 ∧
        ∀ oid ∈ commit.2, ∀ other, HasCurrent after oid other → commit.1 ≤ other)
    (hpending : ∀ before later tid oids, state = .committed before later tid oids →
      (tid, oids) ∈ commits) :
    ({ scene.enter client state with store := after, commits } : CacheScene σ ν).Coherent := by
  have hserves : ∀ oid tid, ({ scene.enter client state with store := after, commits }
      : CacheScene σ ν).Serves oid tid → scene.Serves oid tid := by
    intro oid tid hserved
    have henter : (scene.enter client state).Serves oid tid := hserved
    rcases serves_enter henter with hbefore | ⟨versions, rfl, _⟩
    · exact hbefore
    · cases hticket
  have hidleRetires : ∀ oid tid, ¬ (scene.clients client).Retires oid tid := by
    intro oid tid
    rw [hidle]
    exact id
  constructor
  · exact hvalid
  · apply h.ticket_le_enter (le_refl _)
    intro ticket hasks
    rw [hticket] at hasks
    cases hasks
  · intro oid tid hserved
    rcases h.accounted (hserves oid tid hserved) with hcurrent | hretired
    · rcases hretires oid tid hcurrent with hkept | hitself
      · exact Or.inl hkept
      · have hlater : (scene.enter client state).Retired oid tid := by
          refine ⟨client, ?_⟩
          rw [clients_enter_self]
          exact hitself
        exact Or.inr hlater
    · have hlater : (scene.enter client state).Retired oid tid :=
        retired_enter hidleRetires hretired
      exact Or.inr hlater
  · intro tid oids hcommit
    rcases hnew _ hcommit with hold | ⟨hpassed, _⟩
    · exact hgrows.passed (h.commit_passed hold)
    · exact hpassed
  · intro tid other oids oid hcommit hmem hcurrent
    rcases hnew _ hcommit with hold | ⟨_, habove⟩
    · exact h.grows_above hgrows hold hmem hcurrent
    · exact habove oid hmem other hcurrent
  · exact h.pending_enter hearlier hpending
  · intro tid oids hsettled
    exact hearlier _ (h.settled hsettled)
  · intro tid other oids oid hsettled hmem hserved
    exact h.served_above hsettled hmem (hserves oid other hserved)

theorem Coherent.commit (h : scene.Coherent) {client : Nat} (hidle : scene.clients client = .idle)
    {now : Instant} {note : CommitNote} {writes : List Write} {tid : Tid} {after : σ}
    (hholds : Holds σ tid)
    (hcommit : ObjectStore.commit scene.store now note writes = .ok (tid, after)) :
    ({ scene.enter client (.committed scene.store after tid (writes.map Write.oid)) with
        store := after, commits := (tid, writes.map Write.oid) :: scene.commits }
      : CacheScene σ ν).Coherent := by
  obtain ⟨hvalid, hcommits⟩ := LawfulStore.commit_eq_ok h.valid hholds hcommit
  apply h.change hidle hvalid hcommits.grows rfl
  · intro oid old hcurrent
    exact hcurrent.kept_or_lost fun _ => hcommits.others
  · intro commit hmem
    exact List.mem_cons_of_mem _ hmem
  · intro commit hmem
    rcases List.mem_cons.mp hmem with rfl | hearlier
    · refine Or.inr ⟨⟨tid, hcommits.last, le_refl tid⟩, ?_⟩
      rintro oid hwritten other ⟨version, hversion, rfl⟩
      obtain ⟨write, _, rfl⟩ := hcommits.current_written hwritten hversion
      exact le_refl tid
    · exact Or.inl hearlier
  · rintro _ _ _ _ ⟨⟩
    exact List.mem_cons_self

theorem Coherent.delete (h : scene.Coherent) {client : Nat} (hidle : scene.clients client = .idle)
    {oids : List Oid} {after : σ} (hvalid : Valid after) (hloses : Loses scene.store oids after) :
    ({ scene.enter client (.deleted scene.store after oids) with store := after }
      : CacheScene σ ν).Coherent := by
  apply h.change hidle hvalid hloses.grows rfl
  · intro oid old hcurrent
    apply hcurrent.kept_or_lost
    intro other hother
    rw [hloses.current, if_neg hother]
  · intro commit hmem
    exact hmem
  · intro commit hmem
    exact Or.inl hmem
  · nofun

/-- After an invalidation nothing is served but what was cached and is not
invalidated, for all tickets are stale. -/
theorem Coherent.serves_invalidate (h : scene.Coherent) {client : Nat} {oids : List Oid}
    {settled : List (Tid × List Oid)} {oid : Oid} {tid : Tid}
    (hserved : ({ scene.enter client .idle with cache := scene.cache.invalidate oids, settled }
      : CacheScene σ ν).Serves oid tid) : oid ∉ oids ∧ scene.Serves oid tid := by
  rcases hserved with ⟨value, hcached⟩ | ⟨other, versions, hholds, _⟩
  · have hleft : (scene.cache.invalidate oids).find? oid = some (tid, value) := hcached
    rw [Cache.find?_invalidate, Option.ite_none_left_eq_some] at hleft
    exact ⟨hleft.1, Or.inl ⟨value, hleft.2⟩⟩
  · have henter : (scene.enter client .idle).clients other =
        .holding (scene.cache.invalidate oids).ticket versions := hholds
    by_cases hsame : other = client
    · rw [hsame, clients_enter_self] at henter
      cases henter
    · rw [clients_enter_of_ne hsame, Cache.ticket_invalidate] at henter
      exact absurd henter (h.not_holding_next other versions)

/-- An invalidation settles what its client has changed. -/
theorem Coherent.invalidate (h : scene.Coherent) {client : Nat} {oids : List Oid}
    {settled : List (Tid × List Oid)}
    (hretires : ∀ oid tid, (scene.clients client).Retires oid tid → oid ∈ oids)
    (hsettled : ∀ commit ∈ settled, commit ∈ scene.commits ∧
      (commit ∈ scene.settled ∨ commit.2 = oids)) :
    ({ scene.enter client .idle with cache := scene.cache.invalidate oids, settled }
      : CacheScene σ ν).Coherent := by
  constructor
  · exact h.valid
  · apply h.ticket_le_enter (Nat.le_succ _)
    rintro _ ⟨⟩
  · intro oid tid hserved
    obtain ⟨hkept, hbefore⟩ := h.serves_invalidate hserved
    rcases h.accounted hbefore with hcurrent | ⟨other, hother⟩
    · exact Or.inl hcurrent
    · have hne : other ≠ client := by
        rintro rfl
        exact hkept (hretires oid tid hother)
      have hlater : ((scene.enter client .idle).clients other).Retires oid tid := by
        rw [clients_enter_of_ne hne]
        exact hother
      exact Or.inr ⟨other, hlater⟩
  · exact h.commit_passed
  · exact h.current_above
  · apply h.pending_enter fun _ => id
    rintro _ _ _ _ ⟨⟩
  · intro tid written hmem
    exact (hsettled _ hmem).1
  · intro tid other written oid hmem hwritten hserved
    obtain ⟨hkept, hbefore⟩ := h.serves_invalidate hserved
    rcases (hsettled _ hmem).2 with hearlier | rfl
    · exact h.served_above hearlier hwritten hbefore
    · exact absurd hwritten hkept

/-- Readers enter states of readers. -/
theorem Coherent.read (h : scene.Coherent) {client : Nat} {ticket : FillTicket}
    (hasks : scene.clients client = .asking ticket) {versions : List Version}
    (hcurrent : ∀ version ∈ versions, HasCurrent scene.store version.oid version.tid) :
    (scene.enter client (.holding ticket versions)).Coherent := by
  apply h.enter
  · intro oid tid
    rw [hasks]
    exact id
  · nofun
  · intro other hother
    have hasked : (scene.clients client).ticket? = some other := by
      rw [hasks]
      exact hother
    exact h.ticket_le hasked
  · rintro _ ⟨⟩ version hmem
    exact Or.inr (hcurrent version hmem)

theorem Coherent.leave (h : scene.Coherent) {client : Nat}
    (hreads : ∀ oid tid, ¬ (scene.clients client).Retires oid tid) :
    (scene.enter client .idle).Coherent := by
  apply h.enter hreads
  · nofun
  · nofun
  · nofun

/-- Every step keeps a scene coherent, as long as the store holds the tids it
assigns. -/
theorem Coherent.move (h : scene.Coherent) (move : CacheMove ν)
    (hholds : ∀ commit ∈ (scene.move move).commits, Holds σ commit.1) :
    (scene.move move).Coherent := by
  cases move with
  | ticket client =>
      simp only [CacheScene.move]
      split
      · rename_i hidle
        apply h.enter
        · intro oid tid
          rw [hidle]
          exact id
        · nofun
        · rintro _ ⟨⟩
          exact le_refl _
        · nofun
      · exact h
  | read client oid =>
      simp only [CacheScene.move]
      split
      · rename_i ticket version hasks hload
        apply h.read hasks
        intro other hmem
        cases List.mem_singleton.mp hmem
        rw [LawfulStore.load_eq h.valid] at hload
        have hcurrent : current? scene.store oid = some version := Except.ok.inj hload
        rw [LawfulStore.current_oid h.valid hcurrent]
        exact ⟨version, hcurrent, rfl⟩
      · exact h
  | readMany client oids =>
      simp only [CacheScene.move]
      split
      · rename_i ticket found hasks hload
        apply h.read hasks
        intro version hmem
        rw [LawfulStore.loadMany_eq h.valid] at hload
        cases hload
        obtain ⟨answer, hanswer, hversion⟩ := List.mem_filterMap.mp hmem
        obtain ⟨oid, _, rfl⟩ := List.mem_map.mp hanswer
        rw [LawfulStore.current_oid h.valid hversion]
        exact ⟨version, hversion, rfl⟩
      · exact h
  | fill client value size =>
      simp only [CacheScene.move]
      split
      · rename_i hholding
        exact h.fill hholding value size
      · exact h
  | leave client =>
      simp only [CacheScene.move]
      split
      · rename_i hasks
        apply h.leave
        rw [hasks]
        exact fun _ _ => id
      · rename_i hholding
        apply h.leave
        rw [hholding]
        exact fun _ _ => id
      · exact h
  | commit client now note writes =>
      simp only [CacheScene.move] at hholds ⊢
      split
      · rename_i tid after hidle hcommit
        rw [hidle, hcommit] at hholds
        exact h.commit hidle (hholds _ List.mem_cons_self) hcommit
      · exact h
  | delete client oids guardTid =>
      simp only [CacheScene.move]
      split
      · rename_i hidle hdelete
        obtain ⟨hvalid, hloses⟩ := LawfulStore.deleteObjects_eq_deleted h.valid hdelete
        exact h.delete hidle hvalid hloses
      · rename_i hidle hdelete
        obtain ⟨hvalid, hloses⟩ := LawfulStore.deleteObjects_eq_stale h.valid hdelete
        exact h.restore hvalid hloses
      · exact h
  | invalidate client =>
      simp only [CacheScene.move]
      split
      · rename_i before after tid oids hcommitted
        apply h.invalidate
        · intro oid old hretires
          rw [hcommitted] at hretires
          exact hretires.1
        · intro commit hmem
          rcases List.mem_cons.mp hmem with rfl | hearlier
          · exact ⟨h.pending hcommitted, Or.inr rfl⟩
          · exact ⟨h.settled hearlier, Or.inl hearlier⟩
      · rename_i before after oids hdeleted
        apply h.invalidate
        · intro oid old hretires
          rw [hdeleted] at hretires
          exact hretires.1
        · intro commit hmem
          exact ⟨h.settled hmem, Or.inl hmem⟩
      · exact h
  | lookUp oid =>
      apply h.recache (le_of_eq (congrArg FillTicket.generation (Cache.ticket_get _ oid).symm))
      intro other tid
      apply serves_of_subset (Cache.ticket_get _ oid)
      intro other found hfound
      rw [Cache.find?_get] at hfound
      exact hfound
  | evict oid =>
      apply h.recache (le_of_eq (congrArg FillTicket.generation (Cache.ticket_remove _ oid).symm))
      intro other tid
      apply serves_of_subset (Cache.ticket_remove _ oid)
      intro other found hfound
      rw [Cache.find?_remove, Option.ite_none_left_eq_some] at hfound
      exact hfound.2
  | clear =>
      apply h.recache (Nat.le_succ _)
      rintro oid tid (⟨value, hcached⟩ | ⟨client, versions, hholding, _⟩)
      · have hcleared : scene.cache.clear.find? oid = some (tid, value) := hcached
        rw [Cache.find?_clear] at hcleared
        cases hcleared
      · have hclients : scene.clients client = .holding scene.cache.clear.ticket versions :=
          hholding
        rw [Cache.ticket_clear] at hclients
        exact absurd hclients (h.not_holding_next client versions)
  | upkeep action =>
      simp only [CacheScene.move]
      split
      · rename_i hquiet
        obtain ⟨hvalid, hloses⟩ := loses_perform h.valid hquiet
        exact h.restore hvalid hloses
      · exact h

theorem Coherent.run (h : scene.Coherent) (moves : List (CacheMove ν))
    (hholds : ∀ commit ∈ (scene.run moves).commits, Holds σ commit.1) :
    (scene.run moves).Coherent := by
  induction moves generalizing scene with
  | nil => exact h
  | cons move rest ih =>
      apply ih
      · apply h.move
        intro commit hmem
        exact hholds commit (commits_run (scene.move move) rest commit hmem)
      · exact hholds

end CacheScene

/-- The cache is coherent under every interleaving.  Each cached version is
current, or a client that superseded or deleted it still has to invalidate it;
and once a commit's invalidation is done, no version older than the commit is
served for an object that it wrote. -/
theorem cache_coherent {σ ν : Type} [ObjectStore σ] [LawfulStore σ] {store : σ}
    (hvalid : Valid store) (budget : Nat) (moves : List (CacheMove ν))
    (hholds : ∀ commit ∈ ((CacheScene.start store budget).run moves).commits,
      Holds σ commit.1) :
    let scene := (CacheScene.start store budget).run moves
    (∀ oid tid value, scene.cache.find? oid = some (tid, value) →
      HasCurrent scene.store oid tid ∨ scene.Retired oid tid) ∧
    ∀ tid oids, (tid, oids) ∈ scene.settled → ∀ oid ∈ oids, ∀ served value,
      (scene.cache.get oid).1 = some (served, value) → tid ≤ served := by
  have hcoherent := (CacheScene.coherent_start hvalid budget).run moves hholds
  constructor
  · intro oid tid value hcached
    exact hcoherent.accounted (Or.inl ⟨value, hcached⟩)
  · intro tid oids hsettled oid hmem served value hserved
    rw [Cache.get_fst] at hserved
    exact hcoherent.served_above hsettled hmem (Or.inl ⟨value, hserved⟩)

namespace CoherenceWitness

def write (expected : Option Tid) : Write := ⟨.root, expected, [], ∅, none⟩

/-- A reader holds the first version of the root while a second one is
committed, and fills the cache before the committer invalidates it. -/
def moves : List (CacheMove Unit) :=
  [.commit 0 (.ofMicros 10) {} [write none], .invalidate 0, .ticket 1, .read 1 .root,
    .commit 0 (.ofMicros 20) {} [write (some ⟨10⟩)], .fill 1 () 0]

def scene : CacheScene MemoryStore Unit := (CacheScene.start (.empty false) 10).run moves

theorem stale_fill_retired :
    scene.cache.find? .root = some (⟨10⟩, ()) ∧ ¬ HasCurrent scene.store .root ⟨10⟩ ∧
      scene.Retired .root ⟨10⟩ := by
  have hcached : scene.cache.find? .root = some (⟨10⟩, ()) := by decide +kernel
  have hlater : (current? scene.store .root).map Version.tid = some ⟨20⟩ := by decide +kernel
  have hnot : ¬ HasCurrent scene.store .root ⟨10⟩ := by
    rintro ⟨version, hversion, htid⟩
    rw [hversion, Option.map_some, htid] at hlater
    cases hlater
  have hvalid : Valid (MemoryStore.empty false) := MemoryStore.sound_empty
  obtain ⟨haccounted, _⟩ := cache_coherent hvalid 10 moves fun _ _ => trivial
  exact ⟨hcached, hnot, (haccounted .root ⟨10⟩ () hcached).resolve_left hnot⟩

end CoherenceWitness

end ObjectVault
