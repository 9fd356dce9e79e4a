/-
What the calls of a vault do.  A read answers the cached version of an object,
or else the current one, and caches no other.  A call that changes the store
drops from the cache whatever it changed there.
-/
import ObjectVault.Proofs.CacheEntries
import ObjectVault.Proofs.LawfulStore
import ObjectVault.Proofs.PackRun
import ObjectVault.Proofs.TransactionRun
import ObjectVault.Vault

namespace ObjectVault

open LawfulStore (Valid Holds)
open ObjectStore (current? last?)

section Reads

variable {α σ : Type} [ObjectStore σ]

/-- An answer to a read: the cached version, or else the current one, or else
none. -/
inductive Reads (codec : Codec α) (cache : Cache α) (store : σ) (oid : Oid) :
    Option (α × Tid) → Prop where
  | cached {tid : Tid} {object : α} : cache.find? oid = some (tid, object) →
      Reads codec cache store oid (some (object, tid))
  | current {version : Version} {object : α} : cache.find? oid = none →
      current? store oid = some version → codec.decode version.state = .ok object →
      Reads codec cache store oid (some (object, version.tid))
  | absent : cache.find? oid = none → current? store oid = none → Reads codec cache store oid none

/-- The pair is the current version, decoded. -/
def Decodes (codec : Codec α) (store : σ) (oid : Oid) (found : Tid × α) : Prop :=
  ∃ version, current? store oid = some version ∧ version.tid = found.1 ∧
    codec.decode version.state = .ok found.2

/-- The vault has another cache, with no entries but old ones and current
versions. -/
structure Leaves (codec : Codec α) (store : σ) (vault later : Vault α) : Prop where
  frame : ∃ cache, later = { vault with cache }
  fills (oid : Oid) (found : Tid × α) : later.cache.find? oid = some found →
    vault.cache.find? oid = some found ∨ Decodes codec store oid found

variable {codec : Codec α} {store : σ} {vault later : Vault α}

theorem Leaves.refl (codec : Codec α) (store : σ) (vault : Vault α) :
    Leaves codec store vault vault := ⟨⟨_, rfl⟩, fun _ _ => Or.inl⟩

theorem Leaves.trans {last : Vault α} (hfirst : Leaves codec store vault later)
    (hsecond : Leaves codec store later last) : Leaves codec store vault last where
  frame := by
    obtain ⟨middle, rfl⟩ := hfirst.frame
    obtain ⟨cache, rfl⟩ := hsecond.frame
    exact ⟨cache, rfl⟩
  fills oid found hfound := by
    rcases hsecond.fills oid found hfound with hlater | hcurrent
    · exact hfirst.fills oid found hlater
    · exact Or.inr hcurrent

namespace Vault

/-- A look-up caches nothing. -/
theorem leaves_get (codec : Codec α) (store : σ) (vault : Vault α) (oid : Oid) :
    Leaves codec store vault { vault with cache := (vault.cache.get oid).2 } where
  frame := ⟨_, rfl⟩
  fills other found hfound := by
    rw [Cache.find?_get] at hfound
    exact Or.inl hfound

/-- A fill caches the version that it decodes. -/
theorem leaves_putIfFresh {vault : Vault α} {ticket : FillTicket} {version : Version} {object : α}
    (hcurrent : current? store version.oid = some version)
    (hdecode : codec.decode version.state = .ok object) :
    Leaves codec store vault { vault with
      cache := (vault.cache.putIfFresh version.oid version.tid object version.size ticket).2 } where
  frame := ⟨_, rfl⟩
  fills oid found hfound := by
    rcases Cache.find?_of_putIfFresh hfound with ⟨_, rfl, rfl⟩ | hbefore
    · exact Or.inr ⟨version, hcurrent, rfl, hdecode⟩
    · exact Or.inl hbefore

/-- What the store alone answers to a read. -/
def loadStored (codec : Codec α) (store : σ) (oid : Oid) : Except VaultError (α × Tid) :=
  match ObjectStore.load store oid with
  | .error error => .error (.ofStore error)
  | .ok none => .error (.notFound oid)
  | .ok (some version) => match codec.decode version.state with
    | .error error => .error (.codec error)
    | .ok object => .ok (object, version.tid)

/-- What is not cached is read from the store. -/
theorem load_of_missing {oid : Oid} (hmissing : vault.cache.find? oid = none) :
    (vault.load codec store oid).1 = loadStored codec store oid := by
  rw [← Cache.get_fst] at hmissing
  simp only [load, hmissing, loadStored]
  cases ObjectStore.load store oid with
  | error error => rfl
  | ok found =>
      cases found with
      | none => rfl
      | some version =>
          simp only [fill]
          cases codec.decode version.state <;> rfl

variable [LawfulStore σ] (hvalid : Valid store)

include hvalid

theorem load_spec (vault : Vault α) (oid : Oid) :
    Leaves codec store vault (vault.load codec store oid).2 ∧
      (∀ object tid, (vault.load codec store oid).1 = .ok (object, tid) →
        Reads codec vault.cache store oid (some (object, tid))) ∧
      ((vault.load codec store oid).1 = .error (.notFound oid) ↔
        Reads codec vault.cache store oid none) := by
  have hleaves := leaves_get codec store vault oid
  simp only [Vault.load, Cache.get_fst, LawfulStore.load_eq hvalid]
  cases hfound : vault.cache.find? oid with
  | some found =>
      refine ⟨hleaves, ?_, ?_⟩
      · rintro _ _ ⟨⟩
        exact .cached hfound
      · constructor
        · nofun
        · rintro (_ | _ | ⟨hmiss, _⟩)
          rw [hfound] at hmiss
          cases hmiss
  | none =>
      cases hcurrent : current? store oid with
      | none =>
          refine ⟨hleaves, nofun, ?_⟩
          constructor
          · exact fun _ => .absent hfound hcurrent
          · exact fun _ => rfl
      | some version =>
          have hpresent : ¬ Reads codec vault.cache store oid none := by
            rintro (_ | _ | ⟨_, hnone⟩)
            rw [hcurrent] at hnone
            cases hnone
          cases hdecode : codec.decode version.state with
          | error error =>
              simp only [fill, hdecode]
              refine ⟨hleaves, nofun, ?_⟩
              constructor
              · nofun
              · exact fun habsent => absurd habsent hpresent
          | ok object =>
              simp only [fill, hdecode]
              have hoid := LawfulStore.current_oid hvalid hcurrent
              refine ⟨hleaves.trans (leaves_putIfFresh (hoid.symm ▸ hcurrent) hdecode), ?_, ?_⟩
              · rintro _ _ ⟨⟩
                exact .current hfound hcurrent hdecode
              · constructor
                · nofun
                · exact fun habsent => absurd habsent hpresent

omit hvalid [LawfulStore σ] in
/-- Looking objects up finds what is cached of each, and caches nothing. -/
theorem lookUp_spec (cache : Cache α) (oids : List Oid) :
    (lookUp cache oids).1 = oids.map (fun oid => (oid, cache.find? oid)) ∧
      ∀ oid, (lookUp cache oids).2.find? oid = cache.find? oid := by
  induction oids generalizing cache with
  | nil => exact ⟨rfl, fun _ => rfl⟩
  | cons head rest ih =>
      obtain ⟨hfound, hcache⟩ := ih (cache.get head).2
      simp only [Cache.find?_get] at hfound hcache
      simp only [lookUp, Cache.get_fst, hfound, List.map_cons, true_and]
      exact hcache

/-- The gaps are filled with the current versions of the objects in them. -/
theorem fillGaps_spec (codec : Codec α) (cache : Cache α) (ticket : FillTicket)
    (vault : Vault α) (oids : List Oid) {versions : List (Option Version)}
    (hversions : versions =
      (oids.filter fun oid => (cache.find? oid).isNone).map (current? store)) :
    Leaves codec store vault (fillGaps codec ticket vault
        (oids.map fun oid => (oid, cache.find? oid)) versions).2 ∧
      ∀ answers, (fillGaps codec ticket vault
          (oids.map fun oid => (oid, cache.find? oid)) versions).1 = .ok answers →
        List.Forall₂ (Reads codec cache store) oids answers := by
  induction oids generalizing vault versions with
  | nil =>
      refine ⟨.refl codec store vault, ?_⟩
      rintro _ ⟨⟩
      exact .nil
  | cons oid rest ih =>
      cases hfound : cache.find? oid with
      | some found =>
          rw [List.filter_cons_of_neg (by simp [hfound])] at hversions
          obtain ⟨hleaves, hanswers⟩ := ih vault hversions
          simp only [List.map_cons, hfound, fillGaps]
          refine ⟨hleaves, ?_⟩
          intro answers hmap
          obtain ⟨later, hlater, rfl⟩ := map_eq_ok hmap
          exact .cons (.cached hfound) (hanswers later hlater)
      | none =>
          rw [List.filter_cons_of_pos (by simp [hfound]), List.map_cons] at hversions
          cases hcurrent : current? store oid with
          | none =>
              rw [hcurrent] at hversions
              obtain ⟨hleaves, hanswers⟩ := ih vault rfl
              simp only [List.map_cons, hfound, hversions, fillGaps, List.tail_cons]
              refine ⟨hleaves, ?_⟩
              intro answers hmap
              obtain ⟨later, hlater, rfl⟩ := map_eq_ok hmap
              exact .cons (.absent hfound hcurrent) (hanswers later hlater)
          | some version =>
              rw [hcurrent] at hversions
              cases hdecode : codec.decode version.state with
              | error error =>
                  simp only [List.map_cons, hfound, hversions, fillGaps, fill, hdecode]
                  exact ⟨.refl codec store vault, nofun⟩
              | ok object =>
                  have hoid := LawfulStore.current_oid hvalid hcurrent
                  simp only [List.map_cons, hfound, hversions, fillGaps, fill, hdecode]
                  obtain ⟨hleaves, hanswers⟩ := ih { vault with
                    cache := (vault.cache.putIfFresh version.oid version.tid object version.size
                      ticket).2 } rfl
                  refine ⟨(leaves_putIfFresh (hoid.symm ▸ hcurrent) hdecode).trans hleaves, ?_⟩
                  intro answers hmap
                  obtain ⟨later, hlater, rfl⟩ := map_eq_ok hmap
                  exact .cons (.current hfound hcurrent hdecode) (hanswers later hlater)

omit hvalid [ObjectStore σ] [LawfulStore σ] in
theorem missing_eq (cache : Cache α) (oids : List Oid) :
    ((oids.map fun oid => (oid, cache.find? oid)).filterMap fun (oid, entry) =>
      if entry.isNone then some oid else none) =
        oids.filter fun oid => (cache.find? oid).isNone := by
  rw [List.filterMap_map]
  induction oids with
  | nil => rfl
  | cons oid rest ih =>
      cases hfound : cache.find? oid with
      | none => simpa [hfound] using ih
      | some found => simpa [hfound] using ih

theorem loadMany_spec (vault : Vault α) (oids : List Oid) :
    Leaves codec store vault (vault.loadMany codec store oids).2 ∧
      ∀ answers, (vault.loadMany codec store oids).1 = .ok answers →
        List.Forall₂ (Reads codec vault.cache store) oids answers := by
  obtain ⟨hfound, hcache⟩ := lookUp_spec vault.cache oids
  have hlookedUp :
      Leaves codec store vault { vault with cache := (lookUp vault.cache oids).2 } := by
    refine ⟨⟨_, rfl⟩, ?_⟩
    intro oid found hcached
    rw [hcache] at hcached
    exact Or.inl hcached
  simp only [Vault.loadMany, hfound, missing_eq]
  split
  · rename_i hnone
    refine ⟨hlookedUp, ?_⟩
    rintro _ ⟨⟩
    rw [List.map_map, List.forall₂_map_right_iff, List.forall₂_same]
    intro oid hmem
    cases hcached : vault.cache.find? oid with
    | some found =>
        simp only [Function.comp_apply, hcached, Option.map_some]
        exact .cached hcached
    | none =>
        have hmissing : oid ∈ oids.filter fun oid => (vault.cache.find? oid).isNone := by
          rw [List.mem_filter, hcached]
          exact ⟨hmem, rfl⟩
        rw [List.isEmpty_iff.mp hnone] at hmissing
        cases hmissing
  · rw [LawfulStore.loadMany_eq hvalid]
    have hfilled := fillGaps_spec hvalid codec vault.cache (lookUp vault.cache oids).2.ticket
      { vault with cache := (lookUp vault.cache oids).2 } oids rfl
    exact ⟨hlookedUp.trans hfilled.1, hfilled.2⟩

end Vault

end Reads

section Changes

variable {α σ : Type} [ObjectStore σ] [LawfulStore σ] {store after : σ} {cache later : Cache α}

/-- The store only loses objects, and the cache beside it loses those too. -/
structure Follows (store : σ) (cache : Cache α) (after : σ) (later : Cache α) : Prop where
  valid : Valid after
  last : last? after = last? store
  current (oid : Oid) (version : Version) : current? after oid = some version →
    current? store oid = some version
  kept (oid : Oid) (found : Tid × α) : later.find? oid = some found →
    cache.find? oid = some found ∧ current? after oid = current? store oid

theorem Follows.refl (hvalid : Valid store) (cache : Cache α) : Follows store cache store cache :=
  ⟨hvalid, rfl, fun _ _ => id, fun _ _ hfound => ⟨hfound, rfl⟩⟩

theorem Follows.trans {last : σ} {final : Cache α} (hfirst : Follows store cache after later)
    (hsecond : Follows after later last final) : Follows store cache last final where
  valid := hsecond.valid
  last := hsecond.last.trans hfirst.last
  current oid version hcurrent := hfirst.current oid version (hsecond.current oid version hcurrent)
  kept oid found hfound := by
    obtain ⟨hlater, hlast⟩ := hsecond.kept oid found hfound
    obtain ⟨hcached, hafter⟩ := hfirst.kept oid found hlater
    exact ⟨hcached, hlast.trans hafter⟩

theorem Follows.grows (h : Follows store cache after later) : Grows store after where
  passed hpassed := by
    rw [Passed, h.last]
    exact hpassed
  current hcurrent := Or.inl (h.current _ _ hcurrent)

/-- Deleted objects are invalidated. -/
theorem Loses.follows {oids : List Oid} (h : Loses store oids after) (hvalid : Valid after)
    (cache : Cache α) : Follows store cache after (cache.invalidate oids) where
  valid := hvalid
  last := h.last
  current oid version hcurrent := by
    rw [h.current, Option.ite_none_left_eq_some] at hcurrent
    exact hcurrent.2
  kept oid found hfound := by
    rw [Cache.find?_invalidate, Option.ite_none_left_eq_some] at hfound
    refine ⟨hfound.2, ?_⟩
    rw [h.current, if_neg hfound.1]

theorem Loses.follows_nil (h : Loses store [] after) (hvalid : Valid after) (cache : Cache α) :
    Follows store cache after cache where
  valid := hvalid
  last := h.last
  current oid _ hcurrent := (h.current oid).symm.trans hcurrent
  kept oid _ hfound := ⟨hfound, h.current oid⟩

namespace Sweep

variable {settings : PackSettings} {cancelled : Bool} {sweep : Sweep}

theorem follows_going {next : Sweep} (hvalid : Valid store)
    (h : sweep.step settings cancelled store cache = .going next after later) :
    Follows store cache after later := by
  cases touches_of_step h with
  | nothing => exact .refl hvalid cache
  | deleted hdelete =>
      obtain ⟨hafter, hloses⟩ := LawfulStore.deleteObjects_eq_deleted hvalid hdelete
      exact hloses.follows hafter cache
  | stale hdelete =>
      obtain ⟨hafter, hloses⟩ := LawfulStore.deleteObjects_eq_stale hvalid hdelete
      exact hloses.follows_nil hafter cache

theorem follows_done {report : PackReport} (hvalid : Valid store)
    (h : sweep.step settings cancelled store cache = .done report after) :
    Follows store cache after cache := by
  obtain ⟨_, _, hprune, _⟩ := prunes_of_step h
  obtain ⟨hafter, hloses⟩ := LawfulStore.pruneHistory_eq_ok hvalid hprune
  exact hloses.follows_nil hafter cache

/-- A sweep invalidates whatever it deletes, however it ends. -/
theorem follows_run (settings : PackSettings) (cancelled : Bool) (sweep : Sweep)
    (hvalid : Valid store) (cache : Cache α) :
    Follows store cache (sweep.run settings cancelled store cache).store
      (sweep.run settings cancelled store cache).cache := by
  fun_induction run settings cancelled sweep store cache with
  | case1 sweep store cache next store' cache' hgoing ih =>
      have hfollows := follows_going hvalid hgoing
      exact hfollows.trans (ih hfollows.valid)
  | case2 sweep store cache report after hdone => exact follows_done hvalid hdone
  | case3 sweep store cache error hfailed => exact .refl hvalid cache

end Sweep

namespace Vault

theorem pack_spec (hvalid : Valid store) (vault : Vault α) (before : Instant) (cancelled : Bool) :
    (∃ cache, (vault.pack store before cancelled).vault = { vault with cache }) ∧
      Follows store vault.cache (vault.pack store before cancelled).store
        (vault.pack store before cancelled).vault.cache := by
  refine ⟨⟨_, rfl⟩, ?_⟩
  simp only [Vault.pack, Collector.pack]
  split
  · exact .refl hvalid vault.cache
  · exact .refl hvalid vault.cache
  · exact Sweep.follows_run _ cancelled _ hvalid vault.cache

theorem dropHistory_spec (hvalid : Valid store) (vault : Vault α) :
    Valid (vault.dropHistory store).store ∧ Loses store [] (vault.dropHistory store).store ∧
      ∃ cache, (vault.dropHistory store).vault = { vault with cache } ∧
        ∀ oid found, cache.find? oid = some found → vault.cache.find? oid = some found := by
  simp only [Vault.dropHistory, History.drop]
  cases hdrop : ObjectStore.dropHistory store with
  | error error => exact ⟨hvalid, .refl store, vault.cache, rfl, fun _ _ => id⟩
  | ok answer =>
      obtain ⟨hafter, hloses⟩ := LawfulStore.dropHistory_eq_ok hvalid hdrop
      refine ⟨hafter, hloses, vault.cache.clear, rfl, ?_⟩
      intro oid found hfound
      rw [Cache.find?_clear] at hfound
      cases hfound

/-- A synchronisation drops what has changed since the last one. -/
theorem sync_spec (hvalid : Valid store) {vault later : Vault α} {count : Nat}
    (hsynced : ∀ tid, vault.synced = some tid → Passed store tid)
    (h : vault.sync store = .ok (count, later)) :
    (∃ cache, later = { vault with cache, synced := Tid.latest vault.synced (last? store) }) ∧
      ∀ oid found, later.cache.find? oid = some found → vault.cache.find? oid = some found ∧
        ∀ version, current? store oid = some version → version.tid ≤ vault.synced.getD .zero := by
  have hsince : vault.synced.getD .zero = .zero ∨ Passed store (vault.synced.getD .zero) := by
    cases hlast : vault.synced with
    | none => exact Or.inl rfl
    | some tid => exact Or.inr (hsynced tid hlast)
  obtain ⟨changed, hchanges, hmem⟩ := LawfulStore.changesSince_eq hvalid hsince
  rw [Vault.sync, hchanges] at h
  cases h
  refine ⟨⟨_, rfl⟩, ?_⟩
  intro oid found hfound
  have hunchanged : oid ∉ changed → ∀ version, current? store oid = some version →
      version.tid ≤ vault.synced.getD .zero := by
    intro hnot version hcurrent
    by_contra habove
    exact hnot ((hmem oid).mpr ⟨version, hcurrent, not_le.mp habove⟩)
  have hleft : (withoutChanged vault.cache changed).find? oid = some found := hfound
  rw [withoutChanged] at hleft
  split at hleft
  · rw [Cache.find?_clear] at hleft
    cases hleft
  · split at hleft
    · rename_i hnone
      refine ⟨hleft, hunchanged ?_⟩
      rw [List.isEmpty_iff.mp hnone]
      exact List.not_mem_nil
    · rw [Cache.find?_invalidate, Option.ite_none_left_eq_some] at hleft
      exact ⟨hleft.2, hunchanged hleft.1⟩

end Vault

end Changes

section Commits

variable {α σ κ : Type} [ObjectStore σ]

/-- The ways to commit through a vault. -/
inductive CommitCall (α : Type) where
  | objects (note : CommitNote) (requests : List (StoreRequest α))
  | encoded (note : CommitNote) (writes : List Write)
  | transaction (txn : Transaction)
  | undo (note : CommitNote) (tid : Tid)

namespace CommitCall

def answer (codec : Codec α) (vault : Vault α) (clock : Clock) (store : σ) :
    CommitCall α → Vault.Outcome α σ Tid
  | .objects note requests => vault.store codec clock store note requests
  | .encoded note writes => vault.commitWrites clock store note writes
  | .transaction txn => vault.commit clock store txn
  | .undo note tid => vault.undo clock store note tid

/-- The transaction that a call is to commit. -/
def staged (codec : Codec α) (vault : Vault α) (clock : Clock) (store : σ) :
    CommitCall α → Except VaultError Transaction
  | .objects note requests => requests.foldlM (Vault.stage codec) (vault.start clock note)
  | .encoded note writes => writes.foldlM Vault.stageWrite (vault.start clock note)
  | .transaction txn => .ok txn
  | .undo note tid =>
      match History.reverting store tid with
      | .ok writes => .ok { vault.start clock note with writes }
      | .error error => .error (.ofTxn error)

variable (codec : Codec α) (vault : Vault α) (clock : Clock) (store : σ)

/-- Every call stages its transaction and commits it. -/
theorem answer_eq (call : CommitCall α) : call.answer codec vault clock store =
    vault.commitStaged clock store (call.staged codec vault clock store) := by
  cases call with
  | objects | encoded | transaction => rfl
  | undo note tid =>
      simp only [answer, staged, Vault.undo, History.undo]
      cases History.reverting store tid <;> rfl

/-- A call makes one commit of what it staged, or leaves the store and the
vault alone. -/
theorem answer_cases (call : CommitCall α) :
    ((call.answer codec vault clock store).store = store ∧
        (call.answer codec vault clock store).vault = vault ∧
        ∀ tid txn, (call.answer codec vault clock store).result = .ok tid →
          call.staged codec vault clock store = .ok txn → txn.writes = []) ∨
      ∃ tid txn, (call.answer codec vault clock store).result = .ok tid ∧
        call.staged codec vault clock store = .ok txn ∧ txn.writes ≠ [] ∧
        ObjectStore.commit store clock.wall txn.note txn.writes =
          .ok (tid, (call.answer codec vault clock store).store) ∧
        (call.answer codec vault clock store).vault =
          { vault with cache := vault.cache.invalidate txn.touched } := by
  rw [answer_eq]
  cases hstaged : call.staged codec vault clock store with
  | error error => exact Or.inl ⟨rfl, rfl, nofun⟩
  | ok txn =>
      simp only [Vault.commitStaged, Vault.commit]
      rcases txn.commit_cases clock store vault.cache with
        ⟨hstore, hcache, hempty⟩ | ⟨hne, tid, hresult, hcommit, hcache⟩
      · refine Or.inl ⟨hstore, by rw [hcache], ?_⟩
        rintro tid _ hresult ⟨⟩
        cases hanswer : (txn.commit clock store vault.cache).result with
        | error error =>
            rw [hanswer] at hresult
            cases hresult
        | ok answer => exact hempty answer hanswer
      · refine Or.inr ⟨tid, txn, ?_, rfl, hne, hcommit, ?_⟩
        · rw [hresult]
          rfl
        · rw [hcache]
          rfl

end CommitCall

end Commits

end ObjectVault
