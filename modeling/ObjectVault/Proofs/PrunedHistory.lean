/-
Pruning more than once.  What a prune keeps below its boundary depends on what
was stored when it ran, so a later prune decides about other rows.  All the
same, only the largest boundary counts: prunes in any order leave the store
that one prune there leaves, and together they remove as many rows.
-/
import ObjectVault.Proofs.Provenance
import Mathlib.Order.MinMax

namespace ObjectVault

namespace Tid

theorem latest_latest (older : Option Tid) (low high : Tid) :
    latest (latest older (some low)) (some high) = latest older (some (max low high)) := by
  cases older with
  | none => rfl
  | some old => exact congrArg some (max_assoc old low high)

/-- The later of two boundaries, one of which may be missing, is a boundary
no earlier than the other. -/
theorem exists_latest_left (newer : Option Tid) (old : Tid) :
    ∃ last, latest (some old) newer = some last ∧ old ≤ last := by
  cases newer with
  | none => exact ⟨old, rfl, le_refl old⟩
  | some new => exact ⟨max old new, rfl, le_max_left old new⟩

end Tid

attribute [ext] MemoryStore PruneCounts

/-- The rows that two prunes removed. -/
instance : Add PruneCounts where
  add first second := ⟨first.history + second.history, first.blobs + second.blobs,
    first.transactions + second.transactions⟩

/-- Prune at one boundary after another, and add up what is removed. -/
def pruneEach [ObjectStore σ] (store : σ) : List Tid → Except StoreError (PruneCounts × σ)
  | [] => .ok ({}, store)
  | boundary :: rest => do
      let (counts, after) ← ObjectStore.pruneHistory store boundary
      let (more, last) ← pruneEach after rest
      return (counts + more, last)

namespace MemoryStore

variable {store : MemoryStore} {low high boundary : Tid}

/-- After a prune the blobs of stored versions are left, and no others. -/
theorem blobs_prune {key : VersionKey} : (store.prune boundary).2.blobs[key]? =
    if (store.prune boundary).2.hasVersion key then store.blobs[key]? else none := by
  obtain ⟨pruned, count, hprune, hblobs, _⟩ := prune_eq_cleanUp store boundary
  rw [hprune, blobs_cleanUp, hblobs]
  rfl

theorem log_prune {tid : Tid} : (store.prune boundary).2.log[tid]? =
    if (store.prune boundary).2.storedTids.contains tid then store.log[tid]? else none := by
  obtain ⟨pruned, count, hprune, _, hlog⟩ := prune_eq_cleanUp store boundary
  rw [hprune, log_cleanUp, hlog]
  rfl

/-- The versions that a prune leaves were there before it. -/
theorem hasVersion_of_prune (hsound : store.Sound) {key : VersionKey}
    (hstored : (store.prune boundary).2.hasVersion key) : store.hasVersion key := by
  obtain ⟨version, hstores, htid⟩ := (hasVersion_iff (hsound.change (.pruned boundary))).mp hstored
  exact (hasVersion_iff hsound).mpr ⟨version, ((stores_prune_iff hsound boundary).mp hstores).1, htid⟩

theorem storedTids_of_prune (hsound : store.Sound) {tid : Tid}
    (hstored : (store.prune boundary).2.storedTids.contains tid) :
    store.storedTids.contains tid := by
  obtain ⟨oid, version, hstores, htid⟩ :=
    (contains_storedTids_iff (hsound.change (.pruned boundary))).mp hstored
  refine (contains_storedTids_iff hsound).mpr ⟨oid, version, ?_, htid⟩
  exact ((stores_prune_iff hsound boundary).mp hstores).1

/-- What is outdated at the larger of two boundaries is outdated at the first
one, or at the second one in what the first prune leaves. -/
theorem isOutdated_max_iff (hsound : store.Sound) {oid : Oid} {tid : Tid} :
    store.isOutdated (max low high) (oid, tid) ↔
      store.isOutdated low (oid, tid) ∨ (store.prune low).2.isOutdated high (oid, tid) := by
  simp only [isOutdated_iff, mem_storedVersions_prune hsound]
  constructor
  · rintro ⟨newer, hnewer, hlt, hbelow⟩
    by_cases hlow : newer.tid < low
    · exact Or.inl ⟨newer, hnewer, hlt, hlow⟩
    · -- the first prune keeps the newer version: none above it is below `low`
      refine Or.inr ⟨newer, ⟨hnewer, ?_⟩, hlt, (lt_max_iff.mp hbelow).resolve_left hlow⟩
      rintro ⟨_, next, _, habove, hnext⟩
      exact hlow (lt_trans habove hnext)
  · rintro (⟨newer, hnewer, hlt, hbelow⟩ | ⟨newer, ⟨hnewer, _⟩, hlt, hbelow⟩)
    · exact ⟨newer, hnewer, hlt, lt_max_iff.mpr (Or.inl hbelow)⟩
    · exact ⟨newer, hnewer, hlt, lt_max_iff.mpr (Or.inr hbelow)⟩

theorem history_prune_prune (hsound : store.Sound) (low high : Tid) :
    ((store.prune low).2.prune high).2.history = (store.prune (max low high)).2.history := by
  refine Std.ExtTreeMap.ext_getElem? fun (oid, tid) => ?_
  simp only [history_prune, (prune_frame store low).1, isOutdated_max_iff hsound]
  by_cases hkeeps : store.keepsHistory <;>
    by_cases hlow : store.isOutdated low (oid, tid) <;> simp [hkeeps, hlow]

/-- Whether a version is stored is a matter of the current and the archived
rows. -/
theorem hasVersion_congr {other : MemoryStore} (hcurrent : other.current = store.current)
    (hhistory : other.history = store.history) : other.hasVersion = store.hasVersion := by
  funext key
  rw [hasVersion, hasVersion, currentTid?, currentTid?, hcurrent, hhistory]

theorem storedTids_congr {other : MemoryStore} (hcurrent : other.current = store.current)
    (hhistory : other.history = store.history) : other.storedTids = store.storedTids := by
  rw [storedTids, storedTids, hcurrent, hhistory]

/-- Of two prunes only the larger boundary counts. -/
theorem prune_prune (hsound : store.Sound) (low high : Tid) :
    ((store.prune low).2.prune high).2 = (store.prune (max low high)).2 := by
  have hlow : Sound (store.prune low).2 := hsound.change (.pruned low)
  have hcurrent : ((store.prune low).2.prune high).2.current =
      (store.prune (max low high)).2.current := by
    simp only [current_prune]
  have hhistory := history_prune_prune hsound low high
  have hblobs : ((store.prune low).2.prune high).2.blobs =
      (store.prune (max low high)).2.blobs := by
    refine Std.ExtTreeMap.ext_getElem? fun key => ?_
    rw [blobs_prune, blobs_prune, blobs_prune, ← hasVersion_congr hcurrent hhistory]
    by_cases hstored : ((store.prune low).2.prune high).2.hasVersion key
    · rw [if_pos hstored, if_pos hstored, if_pos (hasVersion_of_prune hlow hstored)]
    · rw [if_neg hstored, if_neg hstored]
  have hlog : ((store.prune low).2.prune high).2.log = (store.prune (max low high)).2.log := by
    refine Std.ExtTreeMap.ext_getElem? fun tid => ?_
    rw [log_prune, log_prune, log_prune, ← storedTids_congr hcurrent hhistory]
    by_cases hstored : ((store.prune low).2.prune high).2.storedTids.contains tid
    · rw [if_pos hstored, if_pos hstored, if_pos (storedTids_of_prune hlow hstored)]
    · rw [if_neg hstored, if_neg hstored]
  have hpacked : ((store.prune low).2.prune high).2.packedBefore =
      (store.prune (max low high)).2.packedBefore := by
    rw [packedBefore_prune, packedBefore_prune, packedBefore_prune, (prune_frame store low).1]
    split
    · exact Tid.latest_latest store.packedBefore low high
    · rfl
  refine MemoryStore.ext ?_ ?_ hcurrent hhistory hblobs hlog ?_ ?_ hpacked <;>
    simp only [prune_frame, nextOid_prune]

/-- The rows that a prune removes and those that it leaves make up the
tables. -/
theorem prune_counts (store : MemoryStore) (boundary : Tid) :
    (store.prune boundary).1.history + (store.prune boundary).2.history.size =
        store.history.size ∧
      (store.prune boundary).1.blobs + (store.prune boundary).2.blobs.size = store.blobs.size ∧
      (store.prune boundary).1.transactions + (store.prune boundary).2.log.size =
        store.log.size := by
  have hcleanUp : ∀ (cleaned : MemoryStore) (count : Nat),
      (cleaned.cleanUp count).1.blobs + (cleaned.cleanUp count).2.blobs.size = cleaned.blobs.size ∧
      (cleaned.cleanUp count).1.transactions + (cleaned.cleanUp count).2.log.size =
        cleaned.log.size := by
    intro cleaned count
    exact ⟨Nat.sub_add_cancel Std.ExtTreeMap.size_filter_le_size,
      Nat.sub_add_cancel Std.ExtTreeMap.size_filter_le_size⟩
  rw [prune]
  split
  · exact ⟨Nat.sub_add_cancel Std.ExtTreeMap.size_filter_le_size, hcleanUp _ _⟩
  · exact ⟨Nat.zero_add _, hcleanUp store 0⟩

/-- Two prunes remove together what one at the larger boundary removes. -/
theorem prune_counts_add (hsound : store.Sound) (low high : Tid) :
    (store.prune low).1 + ((store.prune low).2.prune high).1 = (store.prune (max low high)).1 := by
  obtain ⟨hhistory, hblobs, hlog⟩ := prune_counts store low
  obtain ⟨hhistory', hblobs', hlog'⟩ := prune_counts (store.prune low).2 high
  obtain ⟨honce, hblobsOnce, hlogOnce⟩ := prune_counts store (max low high)
  rw [prune_prune hsound] at hhistory' hblobs' hlog'
  apply PruneCounts.ext
  · change (store.prune low).1.history + ((store.prune low).2.prune high).1.history = _
    omega
  · change (store.prune low).1.blobs + ((store.prune low).2.prune high).1.blobs = _
    omega
  · change (store.prune low).1.transactions + ((store.prune low).2.prune high).1.transactions = _
    omega

theorem pruneHistory_eq (hsound : store.Sound) (boundary : Tid) :
    ObjectStore.pruneHistory store boundary = .ok (store.prune boundary) :=
  hsound.online_eq _

/-- A run of prunes does what one at the largest boundary does. -/
theorem pruneEach_cons (hsound : store.Sound) (boundary : Tid) (rest : List Tid) :
    pruneEach store (boundary :: rest) =
      ObjectStore.pruneHistory store (rest.foldl max boundary) := by
  induction rest generalizing store boundary with
  | nil =>
      rw [pruneEach, List.foldl_nil, pruneHistory_eq hsound]
      rfl
  | cons next rest ih =>
      have hafter : Sound (store.prune boundary).2 := hsound.change (.pruned boundary)
      have hlargest : rest.foldl max (max boundary next) = max boundary (rest.foldl max next) :=
        List.foldl_assoc
      rw [pruneEach, pruneHistory_eq hsound]
      simp only [bind, Except.bind]
      rw [ih hafter, List.foldl_cons, pruneHistory_eq hafter, hlargest, pruneHistory_eq hsound]
      simp only [pure, Except.pure, prune_prune hsound, prune_counts_add hsound]

/-- The same prune once more finds nothing to remove. -/
theorem prune_again (hsound : store.Sound) (boundary : Tid) :
    (store.prune boundary).2.prune boundary = ({}, (store.prune boundary).2) := by
  have hafter : ((store.prune boundary).2.prune boundary).2 = (store.prune boundary).2 := by
    rw [prune_prune hsound, max_self]
  obtain ⟨hhistory, hblobs, hlog⟩ := prune_counts (store.prune boundary).2 boundary
  rw [hafter] at hhistory hblobs hlog
  have hcounts : ((store.prune boundary).2.prune boundary).1 = {} :=
    PruneCounts.ext (Nat.add_eq_right.mp hhistory) (Nat.add_eq_right.mp hblobs)
      (Nat.add_eq_right.mp hlog)
  exact Prod.ext hcounts hafter

/-- No call takes the boundary of pruned history back. -/
theorem Change.packedBefore {after : MemoryStore} (hchange : Change store after) {old : Tid}
    (hpacked : store.packedBefore = some old) :
    ∃ new, after.packedBefore = some new ∧ old ≤ new := by
  have hsame : ∃ new, store.packedBefore = some new ∧ old ≤ new := ⟨old, hpacked, le_refl old⟩
  cases hchange with
  | none | counted | deleted => exact hsame
  | committed now note writes => exact (foldl_apply_frame _ store writes).2.2 ▸ hsame
  | pruned boundary =>
      rw [packedBefore_prune, hpacked]
      split
      · exact Tid.exists_latest_left (some boundary) old
      · exact ⟨old, rfl, le_refl old⟩
  | dropped =>
      rw [packedBefore_dropAll, hpacked]
      split
      · exact Tid.exists_latest_left (store.lastTid.map Tid.succ) old
      · exact ⟨old, rfl, le_refl old⟩

theorem packedBefore_performAll (actions : List StoreAction) {old : Tid}
    (hpacked : store.packedBefore = some old) :
    ∃ new, (performAll store actions).packedBefore = some new ∧ old ≤ new := by
  induction actions generalizing store old with
  | nil => exact ⟨old, hpacked, le_refl old⟩
  | cons action rest ih =>
      have hchange : Change store (perform store action) := change_perform
      obtain ⟨next, hnext, hle⟩ := hchange.packedBefore hpacked
      obtain ⟨new, hnew, hge⟩ := ih hnext
      exact ⟨new, hnew, le_trans hle hge⟩

end MemoryStore

/-- Two prunes in either order do what one at the larger boundary does: the
store is the same in all its tables, and the counts add up.  No prune touches a
current version, the same prune once more removes nothing, and nothing that
happens later takes the boundary of pruned history back. -/
theorem prunes_compose (keepsHistory : Bool) (actions : List StoreAction) (low high : Tid) :
    let store := performAll (MemoryStore.empty keepsHistory) actions
    pruneEach store [low, high] = ObjectStore.pruneHistory store (max low high) ∧
    pruneEach store [high, low] = ObjectStore.pruneHistory store (max low high) ∧
    (∃ counts after, ObjectStore.pruneHistory store low = .ok (counts, after) ∧
      after.current = store.current ∧ ObjectStore.pruneHistory after low = .ok ({}, after)) ∧
    ∀ later old, ObjectStore.packedBefore store = .ok (some old) →
      ∃ new, ObjectStore.packedBefore (performAll store later) = .ok (some new) ∧ old ≤ new := by
  have hsound : MemoryStore.Sound (performAll (MemoryStore.empty keepsHistory) actions) :=
    MemoryStore.sound_performAll MemoryStore.sound_empty
  generalize performAll (MemoryStore.empty keepsHistory) actions = store at hsound
  have hafter : MemoryStore.Sound (store.prune low).2 := hsound.change (.pruned low)
  refine ⟨MemoryStore.pruneEach_cons hsound low [high], ?_, ?_, ?_⟩
  · rw [max_comm]
    exact MemoryStore.pruneEach_cons hsound high [low]
  · refine ⟨_, _, MemoryStore.pruneHistory_eq hsound low, MemoryStore.current_prune, ?_⟩
    exact (MemoryStore.pruneHistory_eq hafter low).trans
      (congrArg Except.ok (MemoryStore.prune_again hsound low))
  · intro later old hpacked
    have hbefore : ObjectStore.packedBefore store = .ok store.packedBefore := hsound.online_eq _
    have hanswer : ObjectStore.packedBefore (performAll store later) =
        .ok (performAll store later).packedBefore :=
      (MemoryStore.sound_performAll hsound).online_eq _
    rw [hbefore] at hpacked
    rw [hanswer]
    obtain ⟨new, hnew, hle⟩ := MemoryStore.packedBefore_performAll later (Except.ok.inj hpacked)
    exact ⟨new, congrArg Except.ok hnew, hle⟩

end ObjectVault
