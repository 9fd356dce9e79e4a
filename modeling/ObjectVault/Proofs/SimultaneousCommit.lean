/-
Commits as one step.  A batch is applied write by write, and each write edits
four tables.  Since the objects of a valid batch are distinct, the writes may
change places, and what the commit leaves can be told for all objects at once:
those of the batch have their new versions, and the others have what they had.
-/
import ObjectVault.Proofs.PresentAlike
import Mathlib.Data.List.Perm.Basic

namespace ObjectVault

namespace MemoryStore

variable {store : MemoryStore} {oid : Oid}

theorem current_apply (tid : Tid) (store : MemoryStore) (write : Write) (oid : Oid) :
    (apply tid store write).current[oid]? =
      if write.oid = oid then some (write.version tid) else store.current[oid]? := by
  split
  · rename_i hself
    exact hself ▸ current_apply_self
  · rename_i hne
    exact (apply_of_ne tid store hne).1

theorem history_apply (tid : Tid) (store : MemoryStore) (write : Write) (oid : Oid) (old : Tid) :
    (apply tid store write).history[(oid, old)]? =
      if write.oid = oid ∧ store.keepsHistory ∧ store.currentTid? oid = some old then
        store.current[oid]?
      else store.history[(oid, old)]? := by
  by_cases hself : write.oid = oid
  · subst hself
    rw [history_apply_self]
    simp only [true_and]
  · rw [(apply_of_ne tid store hself).2, if_neg fun hwritten => hself hwritten.1]

theorem currentTid?_apply_of_ne (tid : Tid) (store : MemoryStore) {write : Write}
    (hne : write.oid ≠ oid) : (apply tid store write).currentTid? oid = store.currentTid? oid := by
  rw [currentTid?, currentTid?, (apply_of_ne tid store hne).1]

/-- Writes of different objects may change places. -/
theorem apply_apply (tid : Tid) (store : MemoryStore) {first second : Write}
    (hne : first.oid ≠ second.oid) :
    apply tid (apply tid store first) second = apply tid (apply tid store second) first := by
  have hcurrent : (apply tid (apply tid store first) second).current =
      (apply tid (apply tid store second) first).current := by
    refine Std.ExtTreeMap.ext_getElem? fun oid => ?_
    simp only [current_apply]
    by_cases hfirst : first.oid = oid
    · have hsecond : second.oid ≠ oid := fun hsecond => hne (hfirst.trans hsecond.symm)
      simp only [hfirst, hsecond, ↓reduceIte]
    · simp only [hfirst, ↓reduceIte]
  have hhistory : (apply tid (apply tid store first) second).history =
      (apply tid (apply tid store second) first).history := by
    refine Std.ExtTreeMap.ext_getElem? fun key => ?_
    obtain ⟨oid, old⟩ := key
    -- A row depends on the write of its own object only, which finds the
    -- object at the same version before and after the other write.
    simp only [history_apply]
    by_cases hfirst : first.oid = oid
    · have hsecond : second.oid ≠ oid := fun hsecond => hne (hfirst.trans hsecond.symm)
      simp only [hfirst, hsecond, currentTid?_apply_of_ne tid store hsecond, current_apply,
        false_and, ↓reduceIte]
      rfl
    · simp only [hfirst, currentTid?_apply_of_ne tid store hfirst, current_apply, false_and,
        ↓reduceIte]
      rfl
  have hblobs : (apply tid (apply tid store first) second).blobs =
      (apply tid (apply tid store second) first).blobs := by
    refine Std.ExtTreeMap.ext_getElem? fun key => ?_
    obtain ⟨oid, old⟩ := key
    simp only [blobs_apply, Prod.mk.injEq]
    by_cases hfirst : oid = first.oid
    · have hsecond : oid ≠ second.oid := fun hsecond => hne (hfirst.symm.trans hsecond)
      simp only [hsecond, false_and, and_false, ↓reduceIte]
      rfl
    · simp only [hfirst, false_and, and_false, ↓reduceIte]
      rfl
  have hnext : (apply tid (apply tid store first) second).nextOid =
      (apply tid (apply tid store second) first).nextOid :=
    Nat.max_right_comm store.nextOid _ _
  calc apply tid (apply tid store first) second
      = { store with
          current := (apply tid (apply tid store first) second).current
          history := (apply tid (apply tid store first) second).history
          blobs := (apply tid (apply tid store first) second).blobs
          nextOid := (apply tid (apply tid store first) second).nextOid } := rfl
    _ = { store with
          current := (apply tid (apply tid store second) first).current
          history := (apply tid (apply tid store second) first).history
          blobs := (apply tid (apply tid store second) first).blobs
          nextOid := (apply tid (apply tid store second) first).nextOid } := by
        rw [hcurrent, hhistory, hblobs, hnext]
    _ = apply tid (apply tid store second) first := rfl

theorem foldl_apply_perm (tid : Tid) (store : MemoryStore) {writes others : List Write}
    (hperm : others.Perm writes) (hnodup : (writes.map Write.oid).Nodup) :
    others.foldl (apply tid) store = writes.foldl (apply tid) store := by
  refine hperm.foldl_eq' (fun first hfirst second hsecond store => ?_) store
  by_cases hsame : first.oid = second.oid
  · have hone : first = second := List.inj_on_of_nodup_map hnodup
      (hperm.mem_iff.mp hfirst) (hperm.mem_iff.mp hsecond) hsame
    rw [hone]
  · exact apply_apply tid store hsame

/-- A batch is as valid in any order. -/
theorem refusal?_perm {writes others : List Write} (hperm : others.Perm writes)
    (hvalid : store.refusal? ∅ writes = none) : store.refusal? ∅ others = none := by
  obtain ⟨hnodup, _, hexpected⟩ := refusal?_eq_none_iff.mp hvalid
  refine refusal?_eq_none_iff.mpr ⟨(hperm.map Write.oid).nodup_iff.mpr hnodup, by simp, ?_⟩
  exact fun write hmem => hexpected write (hperm.mem_iff.mp hmem)

theorem commit_perm {after : MemoryStore} {now : Instant} {note : CommitNote} {tid : Tid}
    {writes others : List Write} (hperm : others.Perm writes)
    (hcommit : ObjectStore.commit store now note writes = .ok (tid, after)) :
    ObjectStore.commit store now note others = .ok (tid, after) := by
  obtain ⟨hvalid, rfl, rfl⟩ := commit_eq_ok hcommit
  have honline := (online_eq_ok hcommit).1
  have hanswer : ObjectStore.commit store now note others = _ := online_eq honline _
  have hnodup := (refusal?_eq_none_iff.mp hvalid).1
  rw [hanswer, refusal?_perm hperm hvalid]
  simp only [applyAll, foldl_apply_perm _ store hperm hnodup]

/-- A commit under `tid` as the answers of the store show it: each write is
current with its blob, what it superseded stays in the history or is gone, and
nothing else has changed. -/
structure Updates (store : MemoryStore) (tid : Tid) (writes : List Write) (after : MemoryStore) :
    Prop where
  last : ObjectStore.lastTid after = .ok (some tid)
  later {old : Tid} : store.HasPassed old → old < tid
  written {write : Write} : write ∈ writes →
    ObjectStore.load after write.oid = .ok (some (write.version tid)) ∧
      ObjectStore.loadBlob after write.oid tid = .ok write.blob
  archived {write : Write} {version : Version} : write ∈ writes → store.keepsHistory →
    store.current[write.oid]? = some version →
      after.history[(write.oid, version.tid)]? = some version
  older {write : Write} {old : Tid} : write ∈ writes → old ≠ tid →
    ObjectStore.loadVersion after write.oid old =
        (if store.keepsHistory then ObjectStore.loadVersion store write.oid old else .ok none) ∧
      ObjectStore.loadBlob after write.oid old =
        if store.keepsHistory then ObjectStore.loadBlob store write.oid old else .ok none
  others {oid : Oid} : oid ∉ writes.map Write.oid →
    ObjectStore.load after oid = ObjectStore.load store oid ∧
      (∀ before, ObjectStore.loadBefore after oid before = ObjectStore.loadBefore store oid before) ∧
      (∀ old, ObjectStore.loadVersion after oid old = ObjectStore.loadVersion store oid old) ∧
      (∀ old, ObjectStore.loadBlob after oid old = ObjectStore.loadBlob store oid old) ∧
      ∀ before limit,
        ObjectStore.versions after oid before limit = ObjectStore.versions store oid before limit

/-- Past versions are answered from the stored ones. -/
theorem loadBefore_congr {later : MemoryStore} (hsound : store.Sound) (hlater : later.Sound)
    (hstored : later.storedVersions oid = store.storedVersions oid) (before : Tid) :
    ObjectStore.loadBefore later oid before = ObjectStore.loadBefore store oid before := by
  simp only [ObjectStore.loadBefore, hsound.online_eq, hlater.online_eq, hstored]

theorem versions_congr {later : MemoryStore} (hsound : store.Sound) (hlater : later.Sound)
    (hstored : later.storedVersions oid = store.storedVersions oid)
    (hsummary : ∀ version ∈ store.storedVersions oid, later.summary version = store.summary version)
    (before : Option Tid) (limit : Nat) :
    ObjectStore.versions later oid before limit = ObjectStore.versions store oid before limit := by
  simp only [ObjectStore.versions, hsound.online_eq, hlater.online_eq, hstored]
  congr 1
  refine List.map_congr_left fun version hmem => hsummary version ?_
  exact List.mem_reverse.mp (List.mem_filter.mp (List.mem_of_mem_take hmem)).1

/-- A version that a written object had before stays if the store keeps
history. -/
theorem Sound.loadVersion_older (hsound : store.Sound) (now : Instant) (note : CommitNote)
    {writes : List Write} (hvalid : store.refusal? ∅ writes = none) {write : Write}
    (hwrite : write ∈ writes) {old : Tid} (hne : old ≠ Tid.nextAfter store.lastTid now) :
    ObjectStore.loadVersion (store.applyAll (Tid.nextAfter store.lastTid now) now note writes)
        write.oid old =
      if store.keepsHistory then ObjectStore.loadVersion store write.oid old else .ok none := by
  have hlater : Sound (store.applyAll (Tid.nextAfter store.lastTid now) now note writes) :=
    hsound.applyAll hvalid
  obtain ⟨hcurrent, hhistory⟩ := foldl_apply_of_mem (Tid.nextAfter store.lastTid now) store
    (refusal?_eq_none_iff.mp hvalid).1 hwrite
  have hother : (store.applyAll (Tid.nextAfter store.lastTid now) now note writes).currentTid?
      write.oid ≠ some old := by
    intro hsame
    obtain ⟨version, hversion, htid⟩ := Option.map_eq_some_iff.mp hsame
    cases hcurrent.symm.trans hversion
    exact hne htid.symm
  rw [loadVersion_eq hlater, if_neg hother, MemoryStore.applyAll, hhistory, history_apply_self,
    loadVersion_eq hsound]
  by_cases hkeeps : store.keepsHistory
  · simp only [hkeeps, true_and, ↓reduceIte]
  · have hnone : store.history[(write.oid, old)]? = none := by
      cases hrow : store.history[(write.oid, old)]? with
      | none => rfl
      | some version => exact absurd (hsound.history_kept hrow) hkeeps
    simp only [hkeeps, Bool.false_eq_true, false_and, ↓reduceIte, hnone]

/-- So does its blob. -/
theorem Stamped.loadBlob_older (hstamped : store.Stamped) (now : Instant) (note : CommitNote)
    {writes : List Write} (hvalid : store.refusal? ∅ writes = none) {write : Write}
    (hwrite : write ∈ writes) {old : Tid} (hne : old ≠ Tid.nextAfter store.lastTid now) :
    ObjectStore.loadBlob (store.applyAll (Tid.nextAfter store.lastTid now) now note writes)
        write.oid old =
      if store.keepsHistory then ObjectStore.loadBlob store write.oid old else .ok none := by
  have hmem : write.oid ∈ writes.map Write.oid := List.mem_map_of_mem hwrite
  rw [loadBlob_eq (hstamped.toSound.applyAll hvalid), blobs_applyAll_of_ne store hvalid hne,
    loadBlob_eq hstamped.toSound]
  cases hkeeps : store.keepsHistory with
  | true => rfl
  | false =>
      cases hblob : store.blobs[(write.oid, old)]? with
      | none => simp only [ite_self, Bool.false_eq_true, ↓reduceIte]
      | some blob =>
          have hlt : old < Tid.nextAfter store.lastTid now :=
            lt_nextAfter_of_hasPassed (hstamped.blob_passed hblob)
          simp only [hmem, hlt, and_self, Bool.false_eq_true, ↓reduceIte]

theorem Stamped.updates (hstamped : store.Stamped) (now : Instant) (note : CommitNote)
    {writes : List Write} (hvalid : store.refusal? ∅ writes = none) :
    Updates store (Tid.nextAfter store.lastTid now) writes
      (store.applyAll (Tid.nextAfter store.lastTid now) now note writes) := by
  have hsound := hstamped.toSound
  have hlater : Sound (store.applyAll (Tid.nextAfter store.lastTid now) now note writes) :=
    hsound.applyAll hvalid
  have hnodup := (refusal?_eq_none_iff.mp hvalid).1
  constructor
  case last => exact hlater.online_eq _
  case later => exact lt_nextAfter_of_hasPassed
  case written =>
    intro write hwrite
    rw [load_eq hlater, loadBlob_eq hlater, blobs_applyAll_self hstamped now note hvalid hwrite]
    exact ⟨congrArg Except.ok (foldl_apply_of_mem _ store hnodup hwrite).1, rfl⟩
  case archived =>
    intro write version hwrite hkeeps hcurrent
    have htid : store.currentTid? write.oid = some version.tid := by
      rw [currentTid?, hcurrent]
      rfl
    refine ((foldl_apply_of_mem _ store hnodup hwrite).2 version.tid).trans ?_
    rw [history_apply_self, if_pos ⟨hkeeps, htid⟩, hcurrent]
  case older =>
    intro write old hwrite hne
    exact ⟨hsound.loadVersion_older now note hvalid hwrite hne,
      hstamped.loadBlob_older now note hvalid hwrite hne⟩
  case others =>
    intro oid hout
    obtain ⟨hcurrent, hhistory⟩ :=
      foldl_apply_of_notMem (Tid.nextAfter store.lastTid now) store hout
    have hstored : (store.applyAll (Tid.nextAfter store.lastTid now) now note
        writes).storedVersions oid = store.storedVersions oid :=
      storedVersions_congr hsound.keyed hlater.keyed hcurrent hhistory
    refine ⟨?_, loadBefore_congr hsound hlater hstored, ?_, ?_, ?_⟩
    · rw [load_eq hlater, load_eq hsound]
      exact congrArg Except.ok hcurrent
    · intro old
      rw [loadVersion_eq hlater, loadVersion_eq hsound, currentTid?, currentTid?,
        MemoryStore.applyAll, hcurrent, hhistory]
    · intro old
      rw [loadBlob_eq hlater, loadBlob_eq hsound]
      exact congrArg Except.ok (blobs_foldl_apply_of_notMem _ store hout old)
    · refine versions_congr hsound hlater hstored fun version hmem => ?_
      exact summary_applyAll (hsound.stored_passed hmem)

end MemoryStore

/-- A commit is a simultaneous update.  It succeeds exactly if its objects are
distinct and each is at the expected version; then it does all its writes
under one new tid and nothing else, in whatever order they come.  Otherwise it
changes nothing. -/
theorem commit_simultaneous (keepsHistory : Bool) (actions : List StoreAction) (now : Instant)
    (note : CommitNote) (writes : List Write) :
    let store := performAll (MemoryStore.empty keepsHistory) actions
    ((∃ tid after, ObjectStore.commit store now note writes = .ok (tid, after)) ↔
      (writes.map Write.oid).Nodup ∧
        ∀ write ∈ writes, store.currentTid? write.oid = write.expected) ∧
    (∀ tid after, ObjectStore.commit store now note writes = .ok (tid, after) →
      MemoryStore.Updates store tid writes after ∧
      ∀ others, others.Perm writes →
        ObjectStore.commit store now note others = .ok (tid, after)) ∧
    ∀ error, ObjectStore.commit store now note writes = .error error →
      perform store (.commit now note writes) = store := by
  intro store
  have hrun : store.Stamped := (Documented.ofRun keepsHistory actions).toStamped
  have hcommit := MemoryStore.commit_eq hrun.toSound now note writes
  refine ⟨?_, ?_, ?_⟩
  · rw [hcommit]
    constructor
    · rintro ⟨tid, after, h⟩
      obtain ⟨hvalid, _⟩ := MemoryStore.commit_eq_ok (hcommit.trans h)
      obtain ⟨hnodup, _, hexpected⟩ := MemoryStore.refusal?_eq_none_iff.mp hvalid
      exact ⟨hnodup, hexpected⟩
    · rintro ⟨hnodup, hexpected⟩
      have hvalid := MemoryStore.refusal?_eq_none_iff.mpr
        ⟨hnodup, fun write _ => Std.ExtTreeSet.not_mem_empty, hexpected⟩
      rw [hvalid]
      exact ⟨_, _, rfl⟩
  · intro tid after h
    refine ⟨?_, fun others hperm => MemoryStore.commit_perm hperm h⟩
    obtain ⟨hvalid, rfl, rfl⟩ := MemoryStore.commit_eq_ok h
    exact hrun.updates now note hvalid
  · intro error h
    rw [perform, h]
    rfl

end ObjectVault
