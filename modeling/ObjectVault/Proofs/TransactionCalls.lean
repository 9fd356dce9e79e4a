/-
The calls of transactions.  Any number of them share one store and one cache,
in any order, while the clock goes on, the store goes offline and comes back,
and other clients use it.  Each call moves its transaction along the states or
leaves it; only a commit touches the store, and it does so as a whole.
-/
import ObjectVault.Proofs.Provenance
import ObjectVault.Proofs.TransactionRun
import Mathlib.Logic.Relation

namespace ObjectVault

/-- The ways of a state: forward to a commit, or aside to an abort. -/
inductive TxnState.Moves : TxnState → TxnState → Prop where
  | vote : Moves .opened .voting
  | commit (tid : Tid) : Moves .voting (.committed tid)
  | refuse (reason : AbortReason) : Moves .opened (.aborted reason)
  | giveUp (reason : AbortReason) : Moves .voting (.aborted reason)

/-- One state leads to another in any number of moves. -/
def TxnState.Leads : TxnState → TxnState → Prop := Relation.ReflTransGen Moves

namespace TxnState

variable {state next : TxnState}

theorem moves_abort (hstate : ¬ state.isTerminal) (reason : AbortReason) :
    Moves state (.aborted reason) := by
  cases state with
  | opened => exact .refuse reason
  | voting => exact .giveUp reason
  | committed | aborted => exact absurd rfl hstate

/-- Nothing follows a commit or an abort. -/
theorem Leads.eq_of_isTerminal (hleads : Leads state next) (hterminal : state.isTerminal) :
    next = state := by
  cases hleads.cases_head with
  | inl hsame => exact hsame.symm
  | inr hmoves =>
      obtain ⟨_, hmove, _⟩ := hmoves
      cases hmove <;> cases hterminal

end TxnState

/-- A call to a transaction. -/
inductive TxnCall where
  | stage (write : Write)
  | vote
  | finish
  /-- Both phases. -/
  | commit
  | abort
  | setNote (note : CommitNote)
  | setTimeout (timeoutMs : Nat)
  /-- Cancel the token that the transaction was given. -/
  | cancel

/-- What a call answers and leaves behind.  It answers a tid if it commits. -/
structure Called (σ κ : Type) where
  result : Except TxnError (Option Tid)
  txn : Transaction
  store : σ
  cache : κ

namespace TxnCall

variable {σ κ : Type}

/-- A change of the transaction alone. -/
def revise (txn : Transaction) (store : σ) (cache : κ) :
    Except TxnError Transaction → Called σ κ
  | .ok revised => ⟨.ok none, revised, store, cache⟩
  | .error error => ⟨.error error, txn, store, cache⟩

/-- The call ends with the second phase, in a transaction that is ready for it. -/
def Concludes (call : TxnCall) (state : TxnState) : Prop :=
  call = .finish ∧ state = .voting ∨ call = .commit ∧ state = .opened

def make [ObjectStore σ] [Invalidator κ] (call : TxnCall) (txn : Transaction) (clock : Clock)
    (store : σ) (cache : κ) : Called σ κ :=
  match call with
  | .stage write => revise txn store cache (txn.stage write)
  | .vote =>
      let (answer, voted) := txn.vote clock store
      ⟨answer.map fun _ => none, voted, store, cache⟩
  | .finish =>
      let finished := txn.finish clock store cache
      ⟨finished.result.map some, finished.txn, finished.store, finished.cache⟩
  | .commit =>
      let finished := txn.commit clock store cache
      ⟨finished.result.map some, finished.txn, finished.store, finished.cache⟩
  | .abort => revise txn store cache txn.abort
  | .setNote note => revise txn store cache (.ok { txn with note })
  | .setTimeout timeoutMs => revise txn store cache (.ok (txn.setTimeout clock timeoutMs))
  | .cancel => revise txn store cache (.ok { txn with cancelled := true })

/-- The writes of a transaction after a call: staging adds one while the
transaction is open. -/
def staged (call : TxnCall) (txn : Transaction) : List Write :=
  match call with
  | .stage write =>
      if txn.state = .opened then Transaction.stageInto write txn.writes else txn.writes
  | .vote | .finish | .commit | .abort | .setNote _ | .setTimeout _ | .cancel => txn.writes

section

variable {call : TxnCall} {state : TxnState}

theorem Concludes.isTerminal_eq_false (h : call.Concludes state) : state.isTerminal = false := by
  cases h with
  | inl hfinish => exact hfinish.2 ▸ rfl
  | inr hcommit => exact hcommit.2 ▸ rfl

theorem Concludes.moves (h : call.Concludes state) (hcall : call ≠ .commit) (tid : Tid) :
    TxnState.Moves state (.committed tid) := by
  cases h with
  | inl hfinish => exact hfinish.2 ▸ .commit tid
  | inr hcommit => exact absurd hcommit.1 hcall

theorem Concludes.leads (h : call.Concludes state) (tid : Tid) :
    TxnState.Leads state (.committed tid) := by
  have hvoting : TxnState.Leads .voting (.committed tid) := .single (.commit tid)
  cases h with
  | inl hfinish => exact hfinish.2 ▸ hvoting
  | inr hcommit => exact hcommit.2 ▸ .head .vote hvoting

end

end TxnCall

namespace Transaction

/-- A transaction with a deadline knows how much time it was given. -/
def Timed (txn : Transaction) : Prop := txn.deadline.isSome → txn.timeoutMs.isSome

/-- A transaction that may go on is not cancelled, and its deadline is ahead. -/
theorem live_of_lapse?_eq_none {txn : Transaction} {clock : Clock} (htimed : txn.Timed)
    (hlapse : txn.lapse? clock = none) :
    txn.cancelled = false ∧ ∀ deadline, txn.deadline = some deadline → clock.steady < deadline := by
  unfold lapse? at hlapse
  split at hlapse
  · cases hlapse
  · rename_i hlive
    refine ⟨Bool.eq_false_iff.mpr hlive, fun deadline hdeadline => ?_⟩
    obtain ⟨timeoutMs, htimeout⟩ := Option.isSome_iff_exists.mp (htimed (hdeadline ▸ rfl))
    simp only [hdeadline, htimeout] at hlapse
    split at hlapse
    · cases hlapse
    · rename_i hahead
      exact Nat.lt_of_not_le hahead

end Transaction

section

variable {σ κ : Type} [ObjectStore σ] [Invalidator κ]

/-- What a call can do. -/
inductive Calls (txn : Transaction) (clock : Clock) (store : σ) (cache : κ) (call : TxnCall) :
    Called σ κ → Prop where
  | refused (error : TxnError) : Calls txn clock store cache call ⟨.error error, txn, store, cache⟩
  | revised (next : Transaction) (hstate : next.state = txn.state)
      (hcancelled : txn.cancelled → next.cancelled) (htimed : txn.Timed → next.Timed) :
      Calls txn clock store cache call ⟨.ok none, next, store, cache⟩
  | aborted (result : Except TxnError (Option Tid)) (reason : AbortReason)
      (hresult : ∀ tid, result ≠ .ok (some tid)) (hstate : ¬ txn.state.isTerminal) :
      Calls txn clock store cache call ⟨result, txn.abortWith reason, store, cache⟩
  | voted (hstate : txn.state = .opened) :
      Calls txn clock store cache call ⟨.ok none, { txn with state := .voting }, store, cache⟩
  | nothing (tid : Tid) (hcall : call.Concludes txn.state) (hlapse : txn.lapse? clock = none)
      (hnil : txn.writes = []) :
      Calls txn clock store cache call
        ⟨.ok (some tid), { txn with state := .committed tid }, store, cache⟩
  | applied (tid : Tid) (after : σ) (hcall : call.Concludes txn.state)
      (hlapse : txn.lapse? clock = none) (hne : txn.writes ≠ [])
      (hcommit : ObjectStore.commit store clock.wall txn.note txn.writes = .ok (tid, after)) :
      Calls txn clock store cache call ⟨.ok (some tid), { txn with state := .committed tid }, after,
        Invalidator.invalidate cache txn.touched⟩

namespace TxnCall

variable (txn : Transaction) (clock : Clock) (store : σ) (cache : κ)

theorem calls_stage (write : Write) :
    Calls txn clock store cache (.stage write)
      (TxnCall.make (.stage write) txn clock store cache) := by
  simp only [make, Transaction.stage]
  split
  · exact .revised _ rfl id id
  · exact .refused _

theorem calls_vote :
    Calls txn clock store cache .vote (TxnCall.make .vote txn clock store cache) := by
  have hvote := txn.votes_vote clock store
  simp only [make]
  generalize txn.vote clock store = voted at hvote ⊢
  cases hvote with
  | misplaced error => exact .refused error
  | failed error reason hstate =>
      exact .aborted _ reason nofun (by simp [hstate, TxnState.isTerminal])
  | passed hstate => exact .voted hstate

theorem calls_finish :
    Calls txn clock store cache .finish (TxnCall.make .finish txn clock store cache) := by
  have hfinish := txn.finishes_finish clock store cache
  simp only [make]
  generalize txn.finish clock store cache = finished at hfinish ⊢
  cases hfinish with
  | misplaced error => exact .refused error
  | failed error reason hstate =>
      exact .aborted _ reason nofun (by simp [hstate, TxnState.isTerminal])
  | nothing tid hstate hlapse hnil => exact .nothing tid (Or.inl ⟨rfl, hstate⟩) hlapse hnil
  | applied tid after hstate hlapse hne hcommit =>
      exact .applied tid after (Or.inl ⟨rfl, hstate⟩) hlapse hne hcommit

theorem calls_commit :
    Calls txn clock store cache .commit (TxnCall.make .commit txn clock store cache) := by
  have hvote := txn.votes_vote clock store
  simp only [make, Transaction.commit]
  generalize txn.vote clock store = voted at hvote ⊢
  cases hvote with
  | misplaced error => exact .refused error
  | failed error reason hstate =>
      exact .aborted _ reason nofun (by simp [hstate, TxnState.isTerminal])
  | passed hopened hlapse =>
      let voting : Transaction := { txn with state := .voting }
      have hfinish := voting.finishes_finish clock store cache
      simp only
      generalize voting.finish clock store cache = finished at hfinish ⊢
      cases hfinish with
      | misplaced _ hstate => exact absurd rfl hstate
      | failed error reason =>
          exact .aborted _ reason nofun (by simp [hopened, TxnState.isTerminal])
      | nothing tid _ _ hnil => exact .nothing tid (Or.inr ⟨rfl, hopened⟩) hlapse hnil
      | applied tid after _ _ hne hcommit =>
          exact .applied tid after (Or.inr ⟨rfl, hopened⟩) hlapse hne hcommit

theorem calls_abort :
    Calls txn clock store cache .abort (TxnCall.make .abort txn clock store cache) := by
  simp only [make, Transaction.abort]
  split
  · exact .refused _
  · rename_i hstate
    exact .aborted _ .requested nofun hstate

theorem calls_make (call : TxnCall) :
    Calls txn clock store cache call (call.make txn clock store cache) := by
  cases call with
  | stage write => exact calls_stage txn clock store cache write
  | vote => exact calls_vote txn clock store cache
  | finish => exact calls_finish txn clock store cache
  | commit => exact calls_commit txn clock store cache
  | abort => exact calls_abort txn clock store cache
  | setNote note => exact .revised _ rfl id id
  | setTimeout timeoutMs => exact .revised _ rfl id fun _ _ => rfl
  | cancel => exact .revised _ rfl (fun _ => rfl) id

theorem writes_make (call : TxnCall) :
    (call.make txn clock store cache).txn.writes = call.staged txn := by
  have hfinish : ∀ txn : Transaction, (txn.finish clock store cache).txn.writes = txn.writes := by
    intro txn
    have hfinishes := txn.finishes_finish clock store cache
    generalize txn.finish clock store cache = finished at hfinishes ⊢
    cases hfinishes <;> rfl
  have hvote := txn.votes_vote clock store
  cases call with
  | stage write =>
      simp only [make, staged, Transaction.stage]
      split <;> rfl
  | vote =>
      simp only [make, staged]
      generalize txn.vote clock store = voted at hvote ⊢
      cases hvote <;> rfl
  | finish => exact hfinish txn
  | commit =>
      simp only [make, staged, Transaction.commit]
      generalize txn.vote clock store = voted at hvote ⊢
      cases hvote with
      | misplaced | failed => rfl
      | passed => exact hfinish { txn with state := .voting }
  | abort =>
      simp only [make, staged, Transaction.abort]
      split <;> rfl
  | setNote | setTimeout | cancel => rfl

end TxnCall

namespace Calls

variable {txn : Transaction} {clock : Clock} {store : σ} {cache : κ} {call : TxnCall}
  {left : Called σ κ}

/-- One phase moves the state at most once. -/
theorem moves (h : Calls txn clock store cache call left) (hcall : call ≠ .commit) :
    Relation.ReflGen TxnState.Moves txn.state left.txn.state := by
  cases h with
  | refused => exact .refl
  | revised next hstate => exact hstate ▸ .refl
  | aborted result reason _ hstate => exact .single (TxnState.moves_abort hstate reason)
  | voted hstate => exact hstate ▸ .single .vote
  | nothing tid hconcludes => exact .single (hconcludes.moves hcall tid)
  | applied tid after hconcludes => exact .single (hconcludes.moves hcall tid)

theorem leads (h : Calls txn clock store cache call left) :
    TxnState.Leads txn.state left.txn.state := by
  cases h with
  | refused => exact .refl
  | revised next hstate => exact hstate ▸ .refl
  | aborted result reason _ hstate => exact .single (TxnState.moves_abort hstate reason)
  | voted hstate => exact hstate ▸ .single .vote
  | nothing tid hconcludes => exact hconcludes.leads tid
  | applied tid after hconcludes => exact hconcludes.leads tid

theorem timed (h : Calls txn clock store cache call left) (htimed : txn.Timed) :
    left.txn.Timed := by
  cases h with
  | revised next _ _ hrevised => exact hrevised htimed
  | refused | aborted | voted | nothing | applied => exact htimed

theorem cancelled (h : Calls txn clock store cache call left) (hcancelled : txn.cancelled) :
    left.txn.cancelled := by
  cases h with
  | revised next _ hrevised => exact hrevised hcancelled
  | refused | aborted | voted | nothing | applied => exact hcancelled

/-- A call that commits nothing, and one without writes, leaves the store and
the cache alone. -/
theorem unchanged (h : Calls txn clock store cache call left)
    (hquiet : (∀ tid, left.result ≠ .ok (some tid)) ∨ txn.writes = []) :
    left.store = store ∧ left.cache = cache := by
  cases h with
  | applied tid after _ _ hne =>
      cases hquiet with
      | inl hnone => exact absurd rfl (hnone tid)
      | inr hnil => exact absurd hnil hne
  | refused | revised | aborted | voted | nothing => exact ⟨rfl, rfl⟩

/-- Only the second phase of a transaction that may go on commits. -/
theorem live (h : Calls txn clock store cache call left) (htimed : txn.Timed) {tid : Tid}
    (hresult : left.result = .ok (some tid)) :
    call.Concludes txn.state ∧ txn.cancelled = false ∧
      ∀ deadline, txn.deadline = some deadline → clock.steady < deadline := by
  cases h with
  | refused | revised | voted => cases hresult
  | aborted _ _ hnone => exact absurd hresult (hnone tid)
  | nothing _ hconcludes hlapse =>
      exact ⟨hconcludes, Transaction.live_of_lapse?_eq_none htimed hlapse⟩
  | applied _ _ hconcludes hlapse =>
      exact ⟨hconcludes, Transaction.live_of_lapse?_eq_none htimed hlapse⟩

theorem committed_iff (h : Calls txn clock store cache call left) {tid : Tid} :
    left.txn.state = .committed tid ↔
      txn.state = .committed tid ∨ left.result = .ok (some tid) := by
  have hgoes : txn.state.isTerminal = false → txn.state ≠ .committed tid := by
    intro hstate hcommitted
    rw [hcommitted] at hstate
    cases hstate
  cases h with
  | refused => simp
  | revised next hstate => simp [hstate]
  | aborted result reason hnone hstate =>
      simp [Transaction.abortWith, hgoes (Bool.eq_false_iff.mpr hstate), hnone tid]
  | voted hstate => simp [hstate]
  | nothing other hconcludes => simp [hgoes hconcludes.isTerminal_eq_false]
  | applied other _ hconcludes => simp [hgoes hconcludes.isTerminal_eq_false]

end Calls

end

namespace MemoryStore

/-- The store has received that batch under that tid, and nothing else carries
the tid. -/
structure Received (store : MemoryStore) (tid : Tid) (now : Instant) (note : CommitNote)
    (writes : List Write) : Prop where
  stores (oid : Oid) (version : Version) : store.Stores oid version ∧ version.tid = tid ↔
    ∃ write ∈ writes, write.oid = oid ∧ write.version tid = version
  blobs : ∀ write ∈ writes, store.blobs[(write.oid, tid)]? = write.blob
  log : store.log[tid]? = some ⟨tid.instant?.getD now, note⟩
  last : store.lastTid = some tid

theorem Stamped.received {store after : MemoryStore} (hstamped : store.Stamped) {now : Instant}
    {note : CommitNote} {writes : List Write} {tid : Tid}
    (hcommit : ObjectStore.commit store now note writes = .ok (tid, after)) :
    after.Received tid now note writes := by
  obtain ⟨hvalid, rfl, rfl⟩ := commit_eq_ok hcommit
  refine ⟨fun oid version => ?_, ?_, log_applyAll.trans (if_pos rfl), rfl⟩
  · rw [stores_applyAll_iff hstamped.toSound now note hvalid]
    constructor
    · rintro ⟨⟨hold, _⟩ | hnew, htid⟩
      · have hmem := (stores_iff hstamped.toSound).mp hold
        have hlt : version.tid < Tid.nextAfter store.lastTid now :=
          lt_nextAfter_of_hasPassed (hstamped.toSound.stored_passed hmem)
        exact absurd htid (ne_of_lt hlt)
      · exact hnew
    · rintro ⟨write, hwrite, rfl, rfl⟩
      exact ⟨Or.inr ⟨write, hwrite, rfl, rfl⟩, rfl⟩
  · intro write hwrite
    exact blobs_applyAll_self hstamped now note hvalid hwrite

/-- The store as it is once it is online again. -/
def awake (store : MemoryStore) : MemoryStore := { store with offline := false }

theorem awake_eq {store : MemoryStore} (honline : store.offline = false) : store.awake = store := by
  cases store
  cases honline
  rfl

/-- What an offline store refuses changes nothing. -/
theorem perform_of_offline {store : MemoryStore} (hoffline : store.offline) (action : StoreAction) :
    perform store action = store := by
  have hrefuses : ∀ {α : Type} (answer : Except StoreError (α × MemoryStore)),
      perform.left store (store.online answer) = store := by
    intro α answer
    rw [MemoryStore.online, if_pos hoffline]
    rfl
  cases action <;> exact hrefuses _

theorem stamped_awake_perform {store : MemoryStore} (hstamped : store.awake.Stamped)
    (action : StoreAction) : (perform store action).awake.Stamped := by
  by_cases hoffline : store.offline
  · rw [perform_of_offline hoffline]
    exact hstamped
  · rw [awake_eq (Bool.eq_false_iff.mpr hoffline)] at hstamped
    have hafter : Stamped (perform store action) := hstamped.change change_perform
    rw [awake_eq hafter.online]
    exact hafter

end MemoryStore

/-- A call that was made, with all that it found. -/
structure CallEntry (κ : Type) where
  /-- The place of the transaction among all that were begun. -/
  place : Nat
  call : TxnCall
  clock : Clock
  txn : Transaction
  store : MemoryStore
  cache : κ

section

variable {κ : Type} [Invalidator κ]

theorem Calls.received {txn : Transaction} {clock : Clock} {store : MemoryStore} {cache : κ}
    {call : TxnCall} {left : Called MemoryStore κ} (h : Calls txn clock store cache call left)
    (hstamped : store.awake.Stamped) {tid : Tid} (hresult : left.result = .ok (some tid))
    (hne : txn.writes ≠ []) :
    left.store.Received tid clock.wall txn.note txn.writes ∧
      left.cache = Invalidator.invalidate cache txn.touched := by
  cases h with
  | refused | revised | voted => cases hresult
  | aborted _ _ hnone => exact absurd hresult (hnone tid)
  | nothing _ _ _ hnil => exact absurd hnil hne
  | applied _ after _ _ _ hcommit =>
      cases hresult
      rw [MemoryStore.awake_eq (MemoryStore.online_eq_ok hcommit).1] at hstamped
      exact ⟨hstamped.received hcommit, rfl⟩

theorem Calls.stamped {txn : Transaction} {clock : Clock} {store : MemoryStore} {cache : κ}
    {call : TxnCall} {left : Called MemoryStore κ} (h : Calls txn clock store cache call left)
    (hstamped : store.awake.Stamped) : left.store.awake.Stamped := by
  cases h with
  | applied _ after _ _ _ hcommit =>
      rw [MemoryStore.awake_eq (MemoryStore.online_eq_ok hcommit).1] at hstamped
      have hafter : after.Stamped := hstamped.change (MemoryStore.change_commit hcommit)
      rw [MemoryStore.awake_eq hafter.online]
      exact hafter
  | refused | revised | aborted | voted | nothing => exact hstamped

namespace CallEntry

def left (entry : CallEntry κ) : Called MemoryStore κ :=
  entry.call.make entry.txn entry.clock entry.store entry.cache

def Commits (entry : CallEntry κ) (tid : Tid) : Prop := entry.left.result = .ok (some tid)

/-- The call does all that it has to do, or nothing. -/
structure Atomic (entry : CallEntry κ) : Prop where
  writes : entry.left.txn.writes = entry.call.staged entry.txn
  /-- A call moves the state at most once, save a commit with its two phases. -/
  moves : entry.call ≠ .commit →
    Relation.ReflGen TxnState.Moves entry.txn.state entry.left.txn.state
  leads : TxnState.Leads entry.txn.state entry.left.txn.state
  /-- A failed call, one that commits nothing, and one without writes leave the
  store and the cache alone. -/
  unchanged : (∀ tid, ¬ entry.Commits tid) ∨ entry.txn.writes = [] →
    entry.left.store = entry.store ∧ entry.left.cache = entry.cache
  /-- Only the second phase of a live transaction commits. -/
  live {tid : Tid} : entry.Commits tid →
    entry.call.Concludes entry.txn.state ∧ entry.txn.cancelled = false ∧
      ∀ deadline, entry.txn.deadline = some deadline → entry.clock.steady < deadline
  committed {tid : Tid} :
    entry.left.txn.state = .committed tid ↔ entry.txn.state = .committed tid ∨ entry.Commits tid
  received {tid : Tid} : entry.Commits tid → entry.txn.writes ≠ [] →
    entry.left.store.Received tid entry.clock.wall entry.txn.note entry.txn.writes ∧
      entry.left.cache = Invalidator.invalidate entry.cache entry.txn.touched

theorem calls_left (entry : CallEntry κ) :
    Calls entry.txn entry.clock entry.store entry.cache entry.call entry.left :=
  TxnCall.calls_make entry.txn entry.clock entry.store entry.cache entry.call

theorem atomic (entry : CallEntry κ) (hstamped : entry.store.awake.Stamped)
    (htimed : entry.txn.Timed) : entry.Atomic where
  writes := TxnCall.writes_make entry.txn entry.clock entry.store entry.cache entry.call
  moves := entry.calls_left.moves
  leads := entry.calls_left.leads
  unchanged := entry.calls_left.unchanged
  live := entry.calls_left.live htimed
  committed := entry.calls_left.committed_iff
  received := entry.calls_left.received hstamped

/-- Two calls of one transaction: the states go on from the first to the
second and stop where they are final, at most one of the two commits, and
nothing does after a cancellation. -/
structure Ordered (earlier later : CallEntry κ) : Prop where
  leads : TxnState.Leads earlier.left.txn.state later.txn.state
  final : earlier.left.txn.state.isTerminal → later.left.txn.state = earlier.left.txn.state
  once {tid next : Tid} : earlier.Commits tid → ¬ later.Commits next
  stopped {tid : Tid} : earlier.call = .cancel → ¬ later.Commits tid

theorem Atomic.ordered {earlier later : CallEntry κ} (hearlier : earlier.Atomic)
    (hlater : later.Atomic)
    (hleads : TxnState.Leads earlier.left.txn.state later.txn.state)
    (hcancelled : earlier.left.txn.cancelled → later.txn.cancelled) : earlier.Ordered later := by
  refine ⟨hleads, ?_, ?_, ?_⟩
  · intro hterminal
    exact TxnState.Leads.eq_of_isTerminal (hleads.trans hlater.leads) hterminal
  · intro tid next hcommits hagain
    have hstate : earlier.left.txn.state = .committed tid :=
      hearlier.committed.mpr (Or.inr hcommits)
    have hsame := hleads.eq_of_isTerminal (by rw [hstate]; rfl)
    have hopen := (hlater.live hagain).1.isTerminal_eq_false
    rw [hsame, hstate] at hopen
    cases hopen
  · intro tid hcancel hcommits
    have hflag : earlier.left.txn.cancelled := by
      rw [left, hcancel]
      rfl
    have hlive := (hlater.live hcommits).2.1
    rw [hcancelled hflag] at hlive
    cases hlive

/-- The calls of one transaction, the first one first.  It is new at first, and
each call finds it as the one before left it. -/
structure Consecutive (calls : List (CallEntry κ)) : Prop where
  fresh : ∀ first ∈ calls.head?, first.txn.state = .opened ∧ first.txn.writes = []
  chained : calls.IsChain fun earlier later => later.txn = earlier.left.txn

/-- The transaction is as those calls left it. -/
def LeavesAs (calls : List (CallEntry κ)) (txn : Transaction) : Prop :=
  match calls.getLast? with
  | some last => txn = last.left.txn
  | none => txn.state = .opened ∧ txn.writes = []

theorem Consecutive.append {calls : List (CallEntry κ)} (h : Consecutive calls)
    {entry : CallEntry κ} (hleaves : LeavesAs calls entry.txn) :
    Consecutive (calls ++ [entry]) where
  fresh := by
    cases calls with
    | nil =>
        rintro _ ⟨⟩
        exact hleaves
    | cons first rest => exact h.fresh
  chained := by
    refine h.chained.append (.singleton entry) ?_
    intro last hlast _ hentry
    cases hentry
    rw [LeavesAs, Option.mem_def.mp hlast] at hleaves
    exact hleaves

/-- What holds from each call to the next holds from each to all later ones. -/
theorem Consecutive.ordered {calls : List (CallEntry κ)} (h : Consecutive calls)
    (hatomic : ∀ entry ∈ calls, entry.Atomic) : calls.Pairwise Ordered := by
  have hpairwise : calls.Pairwise fun earlier later =>
      TxnState.Leads earlier.left.txn.state later.txn.state ∧
        (earlier.left.txn.cancelled → later.txn.cancelled) := by
    have hchained := h.chained
    clear h
    induction calls with
    | nil => exact .nil
    | cons entry rest ih =>
        have hrest := ih (fun other hmem => hatomic other (List.mem_cons_of_mem _ hmem))
          hchained.tail
        refine List.pairwise_cons.mpr ⟨?_, hrest⟩
        intro later hlater
        cases rest with
        | nil => cases hlater
        | cons next others =>
            have hnext : next.txn = entry.left.txn := (List.isChain_cons_cons.mp hchained).1
            rw [← hnext]
            cases hlater with
            | head => exact ⟨.refl, id⟩
            | tail _ hmem =>
                obtain ⟨hleads, hcancelled⟩ := List.rel_of_pairwise_cons hrest hmem
                refine ⟨next.calls_left.leads.trans hleads, fun hflag => ?_⟩
                exact hcancelled (next.calls_left.cancelled hflag)
  refine hpairwise.imp_of_mem ?_
  intro earlier later hearlier hlater hbetween
  exact (hatomic earlier hearlier).ordered (hatomic later hlater) hbetween.1 hbetween.2

end CallEntry

/-- Transactions beside the store and the cache that they share. -/
structure CallScene (κ : Type) where
  store : MemoryStore
  cache : κ
  clock : Clock
  txns : List Transaction := []
  /-- Every call that was made, the first one first. -/
  calls : List (CallEntry κ) := []

/-- What happens next. -/
inductive CallMove where
  | begin (timeoutMs : Option Nat) (note : CommitNote) (cancelled : Bool)
  | call (place : Nat) (call : TxnCall)
  /-- The clock has another reading. -/
  | tick (clock : Clock)
  /-- The store goes offline, or comes back. -/
  | outage (offline : Bool)
  /-- Another client calls the store. -/
  | beside (action : StoreAction)

namespace CallScene

def start (store : MemoryStore) (cache : κ) (clock : Clock) : CallScene κ := { store, cache, clock }

/-- Make a call, and enter it. -/
def enter (scene : CallScene κ) (entry : CallEntry κ) : CallScene κ :=
  { scene with
    store := entry.left.store
    cache := entry.left.cache
    txns := scene.txns.set entry.place entry.left.txn
    calls := scene.calls ++ [entry] }

def move (scene : CallScene κ) : CallMove → CallScene κ
  | .begin timeoutMs note cancelled =>
      { scene with txns := scene.txns ++ [.start scene.clock timeoutMs note cancelled] }
  | .call place call =>
      match scene.txns[place]? with
      | some txn => scene.enter ⟨place, call, scene.clock, txn, scene.store, scene.cache⟩
      | none => scene
  | .tick clock => { scene with clock }
  | .outage offline => { scene with store := { scene.store with offline } }
  | .beside action => { scene with store := perform scene.store action }

def run (scene : CallScene κ) (moves : List CallMove) : CallScene κ := moves.foldl move scene

/-- The calls to one transaction. -/
def callsTo (scene : CallScene κ) (place : Nat) : List (CallEntry κ) :=
  scene.calls.filter (·.place = place)

/-- What holds all along a run. -/
structure Orderly (scene : CallScene κ) : Prop where
  stamped : scene.store.awake.Stamped
  timed : ∀ txn ∈ scene.txns, txn.Timed
  atomic : ∀ entry ∈ scene.calls, entry.Atomic
  placed : ∀ entry ∈ scene.calls, entry.place < scene.txns.length
  consecutive (place : Nat) : CallEntry.Consecutive (scene.callsTo place)
  left (place : Nat) : ∀ txn ∈ scene.txns[place]?, CallEntry.LeavesAs (scene.callsTo place) txn

variable {scene : CallScene κ}

theorem orderly_start (keepsHistory : Bool) (cache : κ) (clock : Clock) :
    (start (MemoryStore.empty keepsHistory) cache clock).Orderly where
  stamped := (Documented.empty keepsHistory).toStamped
  timed := by simp [start]
  atomic := by simp [start]
  placed := by simp [start]
  consecutive place := ⟨by simp [start, callsTo], .nil⟩
  left := by simp [start]

/-- A change of the store or the clock keeps everything. -/
theorem Orderly.change (h : scene.Orderly) {after : CallScene κ}
    (hstamped : after.store.awake.Stamped) (htxns : after.txns = scene.txns)
    (hcalls : after.calls = scene.calls) : after.Orderly := by
  have hown : after.callsTo = scene.callsTo := by
    funext place
    rw [callsTo, hcalls, callsTo]
  exact ⟨hstamped, htxns ▸ h.timed, hcalls ▸ h.atomic, hcalls ▸ htxns ▸ h.placed,
    hown ▸ h.consecutive, hown ▸ htxns ▸ h.left⟩

theorem Orderly.begin (h : scene.Orderly) (timeoutMs : Option Nat) (note : CommitNote)
    (cancelled : Bool) : (scene.move (.begin timeoutMs note cancelled)).Orderly where
  stamped := h.stamped
  timed := by
    intro txn hmem
    cases List.mem_append.mp hmem with
    | inl hold => exact h.timed txn hold
    | inr hnew =>
        rw [List.mem_singleton.mp hnew, Transaction.Timed, Transaction.start]
        cases timeoutMs <;> simp
  atomic := h.atomic
  placed := by
    intro entry hmem
    exact lt_of_lt_of_le (h.placed entry hmem) (by simp [CallScene.move])
  consecutive := h.consecutive
  left := by
    intro place txn hfound
    change CallEntry.LeavesAs (scene.callsTo place) txn
    by_cases hold : place < scene.txns.length
    · exact h.left place txn ((List.getElem?_append_left hold).symm.trans hfound)
    · -- no call was made yet to the transaction that begins
      have hnone : scene.callsTo place = [] := by
        refine List.filter_eq_nil_iff.mpr fun entry hmem hplace => hold ?_
        exact of_decide_eq_true hplace ▸ h.placed entry hmem
      have hnew : txn ∈ [Transaction.start scene.clock timeoutMs note cancelled] := by
        rw [Option.mem_def, CallScene.move, List.getElem?_append_right (not_lt.mp hold)] at hfound
        exact List.mem_of_getElem? hfound
      rw [hnone, List.mem_singleton.mp hnew]
      exact ⟨rfl, rfl⟩

theorem callsTo_enter (scene : CallScene κ) (entry : CallEntry κ) (place : Nat) :
    (scene.enter entry).callsTo place =
      if entry.place = place then scene.callsTo place ++ [entry] else scene.callsTo place := by
  by_cases hsame : entry.place = place <;> simp [enter, callsTo, hsame]

/-- A call goes on from where the one before left its transaction. -/
theorem Orderly.enter (h : scene.Orderly) {entry : CallEntry κ}
    (hplace : scene.txns[entry.place]? = some entry.txn) (hstore : entry.store = scene.store) :
    (scene.enter entry).Orderly := by
  have hstamped : entry.store.awake.Stamped := hstore ▸ h.stamped
  have htimed : entry.txn.Timed := h.timed entry.txn (List.mem_of_getElem? hplace)
  have hlt : entry.place < scene.txns.length := (List.getElem?_eq_some_iff.mp hplace).1
  refine ⟨entry.calls_left.stamped hstamped, ?_, ?_, ?_, ?_, ?_⟩
  · intro txn hmem
    rcases List.mem_or_eq_of_mem_set hmem with hold | rfl
    · exact h.timed txn hold
    · exact entry.calls_left.timed htimed
  · intro other hmem
    rcases List.mem_append.mp hmem with hold | hnew
    · exact h.atomic other hold
    · rw [List.mem_singleton.mp hnew]
      exact entry.atomic hstamped htimed
  · intro other hmem
    rw [CallScene.enter, List.length_set]
    rcases List.mem_append.mp hmem with hold | hnew
    · exact h.placed other hold
    · rw [List.mem_singleton.mp hnew]
      exact hlt
  · intro place
    rw [callsTo_enter]
    split
    · rename_i hsame
      subst hsame
      exact (h.consecutive entry.place).append (h.left entry.place entry.txn hplace)
    · exact h.consecutive place
  · intro place txn hfound
    rw [callsTo_enter]
    split
    · rename_i hsame
      subst hsame
      rw [CallScene.enter, List.getElem?_set_self hlt] at hfound
      cases hfound
      rw [CallEntry.LeavesAs, List.getLast?_concat]
    · rename_i hne
      rw [CallScene.enter, List.getElem?_set_ne hne] at hfound
      exact h.left place txn hfound

theorem Orderly.move (h : scene.Orderly) (move : CallMove) : (scene.move move).Orderly := by
  cases move with
  | begin timeoutMs note cancelled => exact h.begin timeoutMs note cancelled
  | call place call =>
      simp only [CallScene.move]
      split
      · rename_i txn hplace
        exact h.enter hplace rfl
      · exact h
  | tick clock => exact h.change h.stamped rfl rfl
  | outage offline => exact h.change h.stamped rfl rfl
  | beside action => exact h.change (MemoryStore.stamped_awake_perform h.stamped action) rfl rfl

theorem Orderly.run (h : scene.Orderly) (moves : List CallMove) : (scene.run moves).Orderly := by
  induction moves generalizing scene with
  | nil => exact h
  | cons move rest ih => exact ih (h.move move)

end CallScene

/-- Transactions are atomic state machines.  Every call moves its transaction
along the states, or not at all; it commits the whole batch of a live
transaction, or leaves the store and the cache alone.  The calls of one
transaction go on from each other whatever happens in between; at most one of
them commits, and none after a cancellation. -/
theorem transaction_calls_atomic (keepsHistory : Bool) (cache : κ) (clock : Clock)
    (moves : List CallMove) :
    let scene := (CallScene.start (MemoryStore.empty keepsHistory) cache clock).run moves
    (∀ entry ∈ scene.calls, entry.Atomic) ∧
    ∀ place, CallEntry.Consecutive (scene.callsTo place) ∧
      (scene.callsTo place).Pairwise CallEntry.Ordered := by
  intro scene
  have horderly := (CallScene.orderly_start keepsHistory cache clock).run moves
  refine ⟨horderly.atomic, fun place => ⟨horderly.consecutive place, ?_⟩⟩
  apply (horderly.consecutive place).ordered
  intro entry hmem
  exact horderly.atomic entry (List.mem_filter.mp hmem).1

end

end ObjectVault
