/-
Where stored rows come from.  A record keeps all successful commits.  Each
stored version was written by one of them; its blob, or the lack of one, and
its log row are those of that commit.  No other blob is stored, and after
history was pruned or dropped the log has no other row either.
-/
import ObjectVault.Proofs.HistoryPages
import ObjectVault.Proofs.StampedStore

namespace ObjectVault

/-- A successful commit. -/
structure Committed where
  tid : Tid
  now : Instant
  note : CommitNote
  writes : List Write

namespace Committed

/-- The log row that belongs to the commit. -/
def entry (commit : Committed) : LogEntry :=
  ⟨commit.tid.instant?.getD commit.now, commit.note⟩

/-- The commit wrote that version of the object, with that blob or none. -/
def Wrote (commit : Committed) (oid : Oid) (version : Version) (blob : Option Bytes) : Prop :=
  ∃ write ∈ commit.writes, write.oid = oid ∧ write.version commit.tid = version ∧
    write.blob = blob

/-- Enter what a call does, going by the store's answer. -/
def enter [ObjectStore σ] (record : List Committed) (store : σ) : StoreAction → List Committed
  | .commit now note writes =>
      match ObjectStore.commit store now note writes with
      | .ok (tid, _) => record ++ [⟨tid, now, note, writes⟩]
      | .error _ => record
  | .newOid | .deleteObjects .. | .pruneHistory _ | .dropHistory => record

/-- Enter a run. -/
def enterAll [ObjectStore σ] (record : List Committed) (store : σ) :
    List StoreAction → List Committed
  | [] => record
  | action :: rest => enterAll (enter record store action) (perform store action) rest

/-- All successful commits of a run from an empty store, the first one first. -/
def ofRun (keepsHistory : Bool) (actions : List StoreAction) : List Committed :=
  enterAll [] (MemoryStore.empty keepsHistory) actions

end Committed

namespace MemoryStore

variable {store later : MemoryStore} {oid : Oid} {version : Version}

theorem stores_iff (hsound : store.Sound) :
    store.Stores oid version ↔ version ∈ store.storedVersions oid := by
  rw [mem_storedVersions hsound]
  constructor
  · rintro (hcurrent | ⟨tid, hhistory⟩)
    · exact Or.inl hcurrent
    · rw [(hsound.history_key hhistory).2]
      exact Or.inr hhistory
  · rintro (hcurrent | hhistory)
    · exact Or.inl hcurrent
    · exact Or.inr ⟨version.tid, hhistory⟩

theorem hasVersion_iff (hsound : store.Sound) {tid : Tid} :
    store.hasVersion (oid, tid) ↔ ∃ version, store.Stores oid version ∧ version.tid = tid := by
  rw [hasVersion, Bool.or_eq_true, beq_iff_eq, Std.ExtTreeMap.contains_iff_mem, mem_table_iff]
  constructor
  · rintro (hcurrent | ⟨version, hhistory⟩)
    · obtain ⟨version, hfound, htid⟩ := Option.map_eq_some_iff.mp hcurrent
      exact ⟨version, Or.inl hfound, htid⟩
    · exact ⟨version, Or.inr ⟨tid, hhistory⟩, (hsound.history_key hhistory).2⟩
  · rintro ⟨version, hcurrent | ⟨old, hhistory⟩, rfl⟩
    · exact Or.inl (Option.map_eq_some_iff.mpr ⟨version, hcurrent, rfl⟩)
    · rw [(hsound.history_key hhistory).2]
      exact Or.inr ⟨version, hhistory⟩

/-- Some stored version has that tid. -/
def StoresTid (store : MemoryStore) (tid : Tid) : Prop :=
  ∃ oid version, store.Stores oid version ∧ version.tid = tid

theorem contains_storedTids_iff (hsound : store.Sound) {tid : Tid} :
    store.storedTids.contains tid ↔ store.StoresTid tid := by
  rw [storedTids, Std.ExtTreeSet.contains_ofList, List.contains_iff_mem, List.mem_append,
    List.mem_map, List.mem_map]
  constructor
  · rintro (⟨⟨oid, version⟩, hmem, rfl⟩ | ⟨⟨oid, old⟩, hmem, rfl⟩)
    · rw [Std.ExtTreeMap.mem_toList_iff_getElem?_eq_some] at hmem
      exact ⟨oid, version, Or.inl hmem, rfl⟩
    · obtain ⟨version, hhistory⟩ := mem_table_iff.mp (Std.ExtTreeMap.mem_keys.mp hmem)
      exact ⟨oid, version, Or.inr ⟨old, hhistory⟩, (hsound.history_key hhistory).2⟩
  · rintro ⟨oid, version, hcurrent | ⟨old, hhistory⟩, rfl⟩
    · exact Or.inl ⟨(oid, version),
        Std.ExtTreeMap.mem_toList_iff_getElem?_eq_some.mpr hcurrent, rfl⟩
    · refine Or.inr ⟨(oid, old), ?_, (hsound.history_key hhistory).2.symm⟩
      exact Std.ExtTreeMap.mem_keys.mpr (mem_table_iff.mpr ⟨version, hhistory⟩)

/-- What is stored after a commit: what it wrote, and what was stored before,
less what a store without history drops of the objects written. -/
theorem stores_applyAll_iff (hsound : store.Sound) (now : Instant) (note : CommitNote)
    {writes : List Write} (hvalid : store.refusal? ∅ writes = none) :
    (store.applyAll (Tid.nextAfter store.lastTid now) now note writes).Stores oid version ↔
      (store.Stores oid version ∧ (store.keepsHistory ∨ oid ∉ writes.map Write.oid)) ∨
        ∃ write ∈ writes, write.oid = oid ∧
          write.version (Tid.nextAfter store.lastTid now) = version := by
  have hlater : Sound (store.applyAll (Tid.nextAfter store.lastTid now) now note writes) :=
    hsound.applyAll hvalid
  have hnodup := (refusal?_eq_none_iff.mp hvalid).1
  rw [stores_iff hlater, stores_iff hsound]
  rcases storedVersions_applyAll hsound now note hvalid oid with
    ⟨hout, hstored⟩ | ⟨write, hwrite, rfl, _, hstored⟩
  · have hnone : ¬ ∃ write ∈ writes, write.oid = oid ∧
        write.version (Tid.nextAfter store.lastTid now) = version := by
      rintro ⟨write, hwrite, hoid, _⟩
      exact hout (List.mem_map.mpr ⟨write, hwrite, hoid⟩)
    simp only [hstored, hout, hnone, not_false_eq_true, or_true, and_true, or_false]
  · have hmem : write.oid ∈ writes.map Write.oid := List.mem_map_of_mem hwrite
    have hone : (∃ other ∈ writes, other.oid = write.oid ∧
        other.version (Tid.nextAfter store.lastTid now) = version) ↔
          version = write.version (Tid.nextAfter store.lastTid now) := by
      constructor
      · rintro ⟨other, hother, hoid, rfl⟩
        rw [List.inj_on_of_nodup_map hnodup hother hwrite hoid]
      · rintro rfl
        exact ⟨write, hwrite, rfl, rfl⟩
    rw [hstored, List.mem_append, List.mem_singleton, hone]
    cases store.keepsHistory <;> simp [hmem]

theorem stores_deleteAll_iff (hsound : store.Sound) (oids : List Oid) :
    (store.deleteAll (.ofOids oids)).2.Stores oid version ↔
      oid ∉ oids ∧ store.Stores oid version := by
  rw [stores_iff (hsound.change (.deleted oids)), storedVersions_deleteAll hsound,
    stores_iff hsound]
  by_cases hmem : oid ∈ oids <;> simp [hmem]

theorem stores_prune_iff (hsound : store.Sound) (boundary : Tid) :
    (store.prune boundary).2.Stores oid version ↔ store.Stores oid version ∧
      ¬ (store.keepsHistory ∧ store.isOutdated boundary (oid, version.tid)) := by
  rw [stores_iff (hsound.change (.pruned boundary)), mem_storedVersions_prune hsound,
    stores_iff hsound]

theorem stores_dropAll_iff : store.dropAll.2.Stores oid version ↔
    store.current[oid]? = some version := by
  constructor
  · rintro (hcurrent | ⟨tid, hhistory⟩)
    · exact hcurrent
    · cases history_dropAll.symm.trans hhistory
  · exact Or.inl

theorem blobs_deleteAll (oids : List Oid) (tid : Tid) :
    (store.deleteAll (.ofOids oids)).2.blobs[(oid, tid)]? =
      if oid ∈ oids then none else store.blobs[(oid, tid)]? := by
  rw [deleteAll, getElem?_filter_key fun key : VersionKey => !(OidSet.ofOids oids).contains key.1]
  simp only [Bool.not_eq_eq_eq_not, Bool.not_true, ← Bool.not_eq_true,
    Std.ExtTreeSet.contains_iff_mem, OidSet.mem_ofOids, ite_not]

/-- A batch leaves alone the blobs of what it does not write. -/
theorem blobs_foldl_apply_of_notMem (tid : Tid) (store : MemoryStore) {writes : List Write}
    (hmem : oid ∉ writes.map Write.oid) (old : Tid) :
    (writes.foldl (apply tid) store).blobs[(oid, old)]? = store.blobs[(oid, old)]? := by
  induction writes generalizing store with
  | nil => rfl
  | cons head rest ih =>
      rw [List.map_cons, List.mem_cons, not_or] at hmem
      rw [List.foldl_cons, ih (apply tid store head) hmem.2, blobs_apply,
        if_neg fun hself => hmem.1 (congrArg Prod.fst hself.1),
        if_neg fun hold => hmem.1 hold.2.1]

/-- A batch does to the blobs of an object what its write for the object does. -/
theorem blobs_foldl_apply_of_mem (tid : Tid) (store : MemoryStore) {writes : List Write}
    (hnodup : (writes.map Write.oid).Nodup) {write : Write} (hmem : write ∈ writes) (old : Tid) :
    (writes.foldl (apply tid) store).blobs[(write.oid, old)]? =
      (apply tid store write).blobs[(write.oid, old)]? := by
  induction writes generalizing store with
  | nil => cases hmem
  | cons head rest ih =>
      obtain ⟨hfresh, hrest⟩ := List.nodup_cons.mp hnodup
      rw [List.foldl_cons]
      cases hmem with
      | head => exact blobs_foldl_apply_of_notMem tid (apply tid store write) hfresh old
      | tail _ hlater =>
          have hne : write.oid ≠ head.oid := by
            intro heq
            exact hfresh (List.mem_map.mpr ⟨write, hlater, heq⟩)
          have hbefore : (apply tid store head).blobs[(write.oid, old)]? =
              store.blobs[(write.oid, old)]? := by
            rw [blobs_apply, if_neg fun hself => hne (congrArg Prod.fst hself.1),
              if_neg fun hold => hne hold.2.1]
          rw [ih (apply tid store head) hrest hlater, blobs_apply, hbefore, blobs_apply]
          rfl

/-- Under its own tid a commit leaves exactly the blobs that it carries. -/
theorem blobs_applyAll_self (hstamped : store.Stamped) (now : Instant) (note : CommitNote)
    {writes : List Write} (hvalid : store.refusal? ∅ writes = none) {write : Write}
    (hwrite : write ∈ writes) :
    (store.applyAll (Tid.nextAfter store.lastTid now) now note writes).blobs[(write.oid,
      Tid.nextAfter store.lastTid now)]? = write.blob := by
  have hnodup := (refusal?_eq_none_iff.mp hvalid).1
  rw [applyAll, blobs_foldl_apply_of_mem _ store hnodup hwrite, blobs_apply]
  cases hblob : write.blob with
  | some blob => simp
  | none =>
      have hnone : store.blobs[(write.oid, Tid.nextAfter store.lastTid now)]? = none := by
        cases hold : store.blobs[(write.oid, Tid.nextAfter store.lastTid now)]? with
        | none => rfl
        | some blob =>
            have hpassed := hstamped.blob_passed hold
            exact absurd (lt_nextAfter_of_hasPassed hpassed) (lt_irrefl _)
      simp [hnone]

/-- A commit keeps an earlier blob, unless it writes the object in a store
without history. -/
theorem blobs_applyAll_of_ne (store : MemoryStore) {tid old : Tid} {now : Instant}
    {note : CommitNote} {writes : List Write} (hvalid : store.refusal? ∅ writes = none)
    (hne : old ≠ tid) :
    (store.applyAll tid now note writes).blobs[(oid, old)]? =
      if store.keepsHistory = false ∧ oid ∈ writes.map Write.oid ∧ old < tid then none
      else store.blobs[(oid, old)]? := by
  by_cases hmem : oid ∈ writes.map Write.oid
  · obtain ⟨write, hwrite, rfl⟩ := List.mem_map.mp hmem
    have hnodup := (refusal?_eq_none_iff.mp hvalid).1
    rw [applyAll, blobs_foldl_apply_of_mem tid store hnodup hwrite, blobs_apply,
      if_neg fun hself => hne (congrArg Prod.snd hself.1)]
    simp only [hmem, true_and]
  · rw [applyAll, blobs_foldl_apply_of_notMem tid store hmem, if_neg fun hold => hmem hold.2.1]

theorem log_applyAll {tid old : Tid} {now : Instant} {note : CommitNote} {writes : List Write} :
    (store.applyAll tid now note writes).log[old]? =
      if old = tid then some ⟨tid.instant?.getD now, note⟩ else store.log[old]? := by
  rw [applyAll, log_foldl_apply, Std.ExtTreeMap.getElem?_insert]
  simp only [Std.LawfulEqCmp.compare_eq_iff_eq, eq_comm (a := tid)]

/-- A row that is older than a commit keeps its blob and its log row, if its
version stays. -/
theorem rows_applyAll_of_passed (now : Instant) (note : CommitNote) {writes : List Write}
    (hvalid : store.refusal? ∅ writes = none) {tid : Tid} (hpassed : store.HasPassed tid)
    (hstays : store.keepsHistory ∨ oid ∉ writes.map Write.oid) :
    (store.applyAll (Tid.nextAfter store.lastTid now) now note writes).blobs[(oid, tid)]? =
        store.blobs[(oid, tid)]? ∧
      (store.applyAll (Tid.nextAfter store.lastTid now) now note writes).log[tid]? =
        store.log[tid]? := by
  have hne : tid ≠ Tid.nextAfter store.lastTid now := ne_of_lt (lt_nextAfter_of_hasPassed hpassed)
  constructor
  · rw [blobs_applyAll_of_ne store hvalid hne, if_neg]
    rintro ⟨hfree, hmem, _⟩
    cases hstays with
    | inl hkeeps =>
        rw [hfree] at hkeeps
        cases hkeeps
    | inr hout => exact hout hmem
  · rw [log_applyAll, if_neg hne]

/-- The blobs after a commit: those it carries, and those before it of the
versions that stay. -/
theorem blobs_applyAll_cases (hstamped : store.Stamped) {now : Instant} {note : CommitNote}
    {writes : List Write} (hvalid : store.refusal? ∅ writes = none) {tid : Tid} {blob : Bytes}
    (hblob : (store.applyAll (Tid.nextAfter store.lastTid now) now note writes).blobs[(oid, tid)]? =
      some blob) :
    (∃ write ∈ writes, write.oid = oid ∧ tid = Tid.nextAfter store.lastTid now) ∨
      store.blobs[(oid, tid)]? = some blob ∧
        (store.keepsHistory ∨ oid ∉ writes.map Write.oid) := by
  by_cases hmem : oid ∈ writes.map Write.oid
  · by_cases htid : tid = Tid.nextAfter store.lastTid now
    · obtain ⟨write, hwrite, hoid⟩ := List.mem_map.mp hmem
      exact Or.inl ⟨write, hwrite, hoid, htid⟩
    · rw [blobs_applyAll_of_ne store hvalid htid, Option.ite_none_left_eq_some] at hblob
      obtain ⟨hkeeps, hbefore⟩ := hblob
      have hlt : tid < Tid.nextAfter store.lastTid now :=
        lt_nextAfter_of_hasPassed (hstamped.blob_passed hbefore)
      refine Or.inr ⟨hbefore, Or.inl ?_⟩
      rw [← Bool.not_eq_false]
      exact fun hfree => hkeeps ⟨hfree, hmem, hlt⟩
  · rw [applyAll, blobs_foldl_apply_of_notMem _ store hmem] at hblob
    exact Or.inr ⟨hblob, Or.inr hmem⟩

end MemoryStore

/-- What a store has is what the recorded commits wrote, blobs and log rows
included. -/
structure Documented (store : MemoryStore) (record : List Committed) : Prop
    extends store.Stamped where
  ascending : record.Pairwise fun earlier later => earlier.tid < later.tid
  passed : ∀ commit ∈ record, store.HasPassed commit.tid
  distinct : ∀ commit ∈ record, (commit.writes.map Write.oid).Nodup
  written {oid : Oid} {version : Version} : store.Stores oid version →
    ∃ commit ∈ record, commit.Wrote oid version store.blobs[(oid, version.tid)]? ∧
      store.log[version.tid]? = some commit.entry
  owned {oid : Oid} {tid : Tid} {blob : Bytes} : store.blobs[(oid, tid)]? = some blob →
    ∃ version, store.Stores oid version ∧ version.tid = tid

namespace Documented

variable {store : MemoryStore} {record : List Committed}

theorem empty (keepsHistory : Bool) : Documented (.empty keepsHistory) [] where
  toSound := MemoryStore.sound_empty
  blob_passed := by simp [MemoryStore.empty]
  log_passed := by simp [MemoryStore.empty]
  ascending := List.Pairwise.nil
  passed := by simp
  distinct := by simp
  written := by simp [MemoryStore.Stores, MemoryStore.empty]
  owned := by simp [MemoryStore.empty]

/-- The commits of a record differ in their tids. -/
theorem eq_of_tid_eq (h : Documented store record) {commit other : Committed}
    (hcommit : commit ∈ record) (hother : other ∈ record) (htid : commit.tid = other.tid) :
    commit = other := by
  have hnodup : (record.map Committed.tid).Nodup :=
    List.pairwise_map.mpr (h.ascending.imp ne_of_lt)
  exact List.inj_on_of_nodup_map hnodup hcommit hother htid

/-- The writes of a commit differ in their oids. -/
theorem eq_of_oid_eq (h : Documented store record) {commit : Committed} (hcommit : commit ∈ record)
    {write other : Write} (hwrite : write ∈ commit.writes) (hother : other ∈ commit.writes)
    (hoid : write.oid = other.oid) : write = other :=
  List.inj_on_of_nodup_map (h.distinct commit hcommit) hwrite hother hoid

/-- Rows may go, if each version that stays keeps its blob and its log row. -/
theorem removal (h : Documented store record) {after : MemoryStore} (hstamped : after.Stamped)
    (hlast : after.lastTid = store.lastTid)
    (hstores : ∀ {oid version}, after.Stores oid version → store.Stores oid version ∧
      after.blobs[(oid, version.tid)]? = store.blobs[(oid, version.tid)]? ∧
      after.log[version.tid]? = store.log[version.tid]?)
    (howned : ∀ {oid : Oid} {tid : Tid} {blob}, after.blobs[(oid, tid)]? = some blob →
      ∃ version, after.Stores oid version ∧ version.tid = tid) : Documented after record where
  toStamped := hstamped
  ascending := h.ascending
  passed commit hmem := by
    rw [MemoryStore.HasPassed, hlast]
    exact h.passed commit hmem
  distinct := h.distinct
  written hstored := by
    obtain ⟨hbefore, hblob, hlog⟩ := hstores hstored
    rw [hblob, hlog]
    exact h.written hbefore
  owned := howned

/-- After a clean-up exactly the blobs and log rows of stored versions are
left. -/
theorem cleanUp (h : Documented store record) {pruned : MemoryStore} {count : Nat}
    (hsound : (pruned.cleanUp count).2.Sound) (hlast : pruned.lastTid = store.lastTid)
    (hblobs : pruned.blobs = store.blobs) (hlog : pruned.log = store.log)
    (hstores : ∀ {oid version}, (pruned.cleanUp count).2.Stores oid version →
      store.Stores oid version) : Documented (pruned.cleanUp count).2 record := by
  refine h.removal (h.toStamped.cleanUp hsound hlast hblobs hlog) hlast ?_ ?_
  · intro oid version hstored
    have hversion : pruned.hasVersion (oid, version.tid) :=
      (MemoryStore.hasVersion_iff hsound).mpr ⟨version, hstored, rfl⟩
    have htid : pruned.storedTids.contains version.tid :=
      (MemoryStore.contains_storedTids_iff hsound).mpr ⟨oid, version, hstored, rfl⟩
    rw [MemoryStore.blobs_cleanUp, if_pos hversion, MemoryStore.log_cleanUp, if_pos htid, hblobs,
      hlog]
    exact ⟨hstores hstored, rfl, rfl⟩
  · intro oid tid blob hblob
    rw [MemoryStore.blobs_cleanUp, Option.ite_none_right_eq_some] at hblob
    exact (MemoryStore.hasVersion_iff hsound).mp hblob.1

theorem delete (h : Documented store record) (oids : List Oid) :
    Documented (store.deleteAll (.ofOids oids)).2 record := by
  refine h.removal (h.toStamped.change (.deleted oids)) rfl ?_ ?_
  · intro oid version hstored
    obtain ⟨hkept, hbefore⟩ := (MemoryStore.stores_deleteAll_iff h.toSound oids).mp hstored
    rw [MemoryStore.blobs_deleteAll, if_neg hkept]
    exact ⟨hbefore, rfl, rfl⟩
  · intro oid tid blob hblob
    rw [MemoryStore.blobs_deleteAll, Option.ite_none_left_eq_some] at hblob
    obtain ⟨version, hbefore, htid⟩ := h.owned hblob.2
    exact ⟨version, (MemoryStore.stores_deleteAll_iff h.toSound oids).mpr ⟨hblob.1, hbefore⟩, htid⟩

theorem prune (h : Documented store record) (boundary : Tid) :
    Documented (store.prune boundary).2 record := by
  have hsound : MemoryStore.Sound (store.prune boundary).2 := h.toSound.change (.pruned boundary)
  have hstores : ∀ {oid version}, (store.prune boundary).2.Stores oid version →
      store.Stores oid version := fun hstored =>
    ((MemoryStore.stores_prune_iff h.toSound boundary).mp hstored).1
  obtain ⟨pruned, count, hprune, hblobs, hlog⟩ := MemoryStore.prune_eq_cleanUp store boundary
  have hlast := (MemoryStore.prune_frame store boundary).2.2.1
  rw [hprune] at hsound hstores hlast ⊢
  exact h.cleanUp hsound hlast hblobs hlog hstores

theorem drop (h : Documented store record) : Documented store.dropAll.2 record := by
  have hsound : MemoryStore.Sound store.dropAll.2 := h.toSound.change .dropped
  exact h.cleanUp hsound rfl rfl rfl fun hstored =>
    Or.inl (MemoryStore.stores_dropAll_iff.mp hstored)

/-- A commit documents what it writes, and leaves the rest as it was. -/
theorem commit (h : Documented store record) (now : Instant) (note : CommitNote)
    {writes : List Write} (hvalid : store.refusal? ∅ writes = none) :
    Documented (store.applyAll (Tid.nextAfter store.lastTid now) now note writes)
      (record ++ [⟨Tid.nextAfter store.lastTid now, now, note, writes⟩]) := by
  have hstores := fun oid version =>
    @MemoryStore.stores_applyAll_iff store oid version h.toSound now note writes hvalid
  refine ⟨h.toStamped.applyAll hvalid, ?_, ?_, ?_, ?_, ?_⟩
  · refine List.pairwise_append.mpr ⟨h.ascending, List.pairwise_singleton _ _, ?_⟩
    intro earlier hearlier _ hlast
    rw [List.mem_singleton.mp hlast]
    exact MemoryStore.lt_nextAfter_of_hasPassed (h.passed earlier hearlier)
  · intro commit hmem
    refine ⟨_, rfl, ?_⟩
    cases List.mem_append.mp hmem with
    | inl hearlier =>
        exact le_of_lt (MemoryStore.lt_nextAfter_of_hasPassed (h.passed commit hearlier))
    | inr hlast => rw [List.mem_singleton.mp hlast]
  · intro commit hmem
    cases List.mem_append.mp hmem with
    | inl hearlier => exact h.distinct commit hearlier
    | inr hlast =>
        rw [List.mem_singleton.mp hlast]
        exact (MemoryStore.refusal?_eq_none_iff.mp hvalid).1
  · intro oid version hstored
    rcases (hstores oid version).mp hstored with ⟨hbefore, hstays⟩ | ⟨write, hwrite, rfl, rfl⟩
    · obtain ⟨commit, hcommit, hwrote⟩ := h.written hbefore
      have hmem := (MemoryStore.stores_iff h.toSound).mp hbefore
      obtain ⟨hblob, hlog⟩ := MemoryStore.rows_applyAll_of_passed now note hvalid
        (h.toSound.stored_passed hmem) hstays
      rw [hblob, hlog]
      exact ⟨commit, List.mem_append_left _ hcommit, hwrote⟩
    · have hblob := MemoryStore.blobs_applyAll_self h.toStamped now note hvalid hwrite
      refine ⟨_, List.mem_append_right _ (List.mem_singleton.mpr rfl), ?_, ?_⟩
      · exact ⟨write, hwrite, rfl, rfl, hblob.symm⟩
      · exact MemoryStore.log_applyAll.trans (if_pos rfl)
  · intro oid tid blob hblob
    rcases MemoryStore.blobs_applyAll_cases h.toStamped hvalid hblob with
      ⟨write, hwrite, rfl, rfl⟩ | ⟨hbefore, hstays⟩
    · exact ⟨_, (hstores _ _).mpr (Or.inr ⟨write, hwrite, rfl, rfl⟩), rfl⟩
    · obtain ⟨version, hversion, htid⟩ := h.owned hbefore
      exact ⟨version, (hstores oid version).mpr (Or.inl ⟨hversion, hstays⟩), htid⟩

theorem perform (h : Documented store record) (action : StoreAction) :
    Documented (perform store action) (Committed.enter record store action) := by
  cases action with
  | newOid =>
      rw [MemoryStore.perform_newOid h.toSound]
      exact h.removal (h.toStamped.change (.counted _)) rfl (fun hstored => ⟨hstored, rfl, rfl⟩)
        h.owned
  | commit now note writes =>
      rw [MemoryStore.perform_commit h.toSound, Committed.enter,
        MemoryStore.commit_eq h.toSound]
      cases hvalid : store.refusal? ∅ writes with
      | some error => exact h
      | none => exact h.commit now note hvalid
  | deleteObjects oids guardTid =>
      rw [MemoryStore.perform_deleteObjects h.toSound]
      split
      · exact h
      · exact h.delete oids
  | pruneHistory boundary =>
      rw [MemoryStore.perform_pruneHistory h.toSound]
      exact h.prune boundary
  | dropHistory =>
      rw [MemoryStore.perform_dropHistory h.toSound]
      exact h.drop

theorem performAll (h : Documented store record) (actions : List StoreAction) :
    Documented (performAll store actions) (Committed.enterAll record store actions) := by
  induction actions generalizing store record with
  | nil => exact h
  | cons action rest ih => exact ih (h.perform action)

/-- What holds after every run from an empty store. -/
theorem ofRun (keepsHistory : Bool) (actions : List StoreAction) :
    Documented (ObjectVault.performAll (MemoryStore.empty keepsHistory) actions)
      (Committed.ofRun keepsHistory actions) :=
  (empty keepsHistory).performAll actions

/-- Where the log was cleaned up, it has the rows of stored versions only. -/
theorem mem_log_iff (h : Documented store record)
    (htrimmed : ∀ tid ∈ store.log, store.StoresTid tid) (tid : Tid) :
    tid ∈ store.log ↔ store.StoresTid tid := by
  constructor
  · exact htrimmed tid
  · rintro ⟨oid, version, hstored, rfl⟩
    obtain ⟨commit, _, _, hlog⟩ := h.written hstored
    exact MemoryStore.mem_table_iff.mpr ⟨commit.entry, hlog⟩

end Documented

/-- A clean-up leaves no log row without a stored version. -/
theorem MemoryStore.storesTid_of_mem_log {store : MemoryStore} {count : Nat}
    (hsound : (store.cleanUp count).2.Sound) {tid : Tid}
    (hmem : tid ∈ (store.cleanUp count).2.log) : (store.cleanUp count).2.StoresTid tid := by
  obtain ⟨entry, hentry⟩ := mem_table_iff.mp hmem
  rw [log_cleanUp, Option.ite_none_right_eq_some] at hentry
  exact (contains_storedTids_iff hsound).mp hentry.1

/-- Blobs and log rows follow versions.  Each stored version has the blob and
the log row of the one commit that wrote it, and no other blob is stored.  No
archived version outlives its object.  A prune or a drop leaves exactly the log
rows of stored versions. -/
theorem rows_follow_versions (keepsHistory : Bool) (actions : List StoreAction) :
    let store := performAll (MemoryStore.empty keepsHistory) actions
    let record := Committed.ofRun keepsHistory actions
    (record.Pairwise (fun earlier later => earlier.tid < later.tid) ∧
      ∀ commit ∈ record, (commit.writes.map Write.oid).Nodup) ∧
    (∀ oid version, store.Stores oid version →
      ∃ commit ∈ record, commit.Wrote oid version store.blobs[(oid, version.tid)]? ∧
        store.log[version.tid]? = some commit.entry) ∧
    (∀ (oid : Oid) (tid : Tid) (blob : Bytes), store.blobs[(oid, tid)]? = some blob →
      ∃ version, store.Stores oid version ∧ version.tid = tid) ∧
    (∀ (oid : Oid) (tid : Tid) (version : Version), store.history[(oid, tid)]? = some version →
      ∃ current, store.current[oid]? = some current ∧ tid < current.tid) ∧
    (∀ boundary tid, tid ∈ (perform store (.pruneHistory boundary)).log ↔
      (perform store (.pruneHistory boundary)).StoresTid tid) ∧
    ∀ tid, tid ∈ (perform store .dropHistory).log ↔ (perform store .dropHistory).StoresTid tid := by
  intro store record
  have hrun : Documented store record := Documented.ofRun keepsHistory actions
  refine ⟨⟨hrun.ascending, hrun.distinct⟩, fun _ _ => hrun.written, fun _ _ _ => hrun.owned,
    fun _ _ _ => hrun.history_lt, ?_, ?_⟩
  · intro boundary
    apply (hrun.perform (.pruneHistory boundary)).mem_log_iff
    have hafter := (hrun.prune boundary).toSound
    rw [MemoryStore.perform_pruneHistory hrun.toSound]
    obtain ⟨pruned, count, hprune, _⟩ := MemoryStore.prune_eq_cleanUp store boundary
    rw [hprune] at hafter ⊢
    exact fun _ => MemoryStore.storesTid_of_mem_log hafter
  · apply (hrun.perform .dropHistory).mem_log_iff
    rw [MemoryStore.perform_dropHistory hrun.toSound]
    exact fun _ => MemoryStore.storesTid_of_mem_log hrun.drop.toSound

end ObjectVault
