/-
Stores whose tids are in order.  In a stamped store no blob and no log row is
later than the last commit; if its tids fit their columns too, or if they all
encode instants before the year 10000, that holds on through every call which
keeps to it.
-/
import ObjectVault.Proofs.Columns
import ObjectVault.Proofs.StoredVersions
import ObjectVault.Proofs.TimeText

namespace ObjectVault

namespace MemoryStore

/-- A sound store whose blobs and log rows are no later than its last
commit. -/
structure Stamped (store : MemoryStore) : Prop extends Sound store where
  blob_passed {key : VersionKey} {blob : Bytes} :
    store.blobs[key]? = some blob → store.HasPassed key.2
  log_passed {tid : Tid} {entry : LogEntry} :
    store.log[tid]? = some entry → store.HasPassed tid

/-- The columns of all tids are in the order of the tids. -/
structure InColumns (store : MemoryStore) : Prop extends Stamped store where
  last_fits {last : Tid} : store.lastTid = some last → last.succ.FitsColumn
  packed_fits {boundary : Tid} : store.packedBefore = some boundary → boundary.FitsColumn

namespace InColumns

variable {store : MemoryStore} (h : store.InColumns)

include h

theorem passed_fits {tid : Tid} (hpassed : store.HasPassed tid) : tid.FitsColumn := by
  obtain ⟨last, hlast, hle⟩ := hpassed
  exact (h.last_fits hlast).of_le (le_trans hle (le_of_lt (Tid.lt_succ last)))

theorem current_fits {oid : Oid} {version : Version}
    (hcurrent : store.current[oid]? = some version) : version.tid.FitsColumn :=
  h.passed_fits (h.current_passed hcurrent)

theorem history_fits {oid : Oid} {tid : Tid} {version : Version}
    (hhistory : store.history[(oid, tid)]? = some version) : tid.FitsColumn := by
  obtain ⟨current, hcurrent, hlt⟩ := h.history_lt hhistory
  exact (h.current_fits hcurrent).of_le (le_of_lt hlt)

end InColumns

theorem blobs_apply {tid : Tid} {store : MemoryStore} {write : Write} {key : VersionKey} :
    (apply tid store write).blobs[key]? =
      if key = (write.oid, tid) ∧ write.blob.isSome then write.blob
      else if store.keepsHistory = false ∧ key.1 = write.oid ∧ key.2 < tid then none
      else store.blobs[key]? := by
  have hkept : (if store.keepsHistory then store.blobs
      else store.blobs.filter fun key _ => !(key.1 = write.oid && key.2 < tid))[key]? =
        if store.keepsHistory = false ∧ key.1 = write.oid ∧ key.2 < tid then none
        else store.blobs[key]? := by
    cases store.keepsHistory with
    | true => simp
    | false =>
        rw [if_neg Bool.false_ne_true, getElem?_filter_key fun key : VersionKey =>
          !(key.1 = write.oid && key.2 < tid)]
        by_cases hold : key.1 = write.oid ∧ key.2 < tid
        · simp [hold]
        · simp [hold]
  cases hblob : write.blob with
  | none =>
      simpa only [apply, hblob, Option.isSome_none, Bool.false_eq_true, and_false, ↓reduceIte]
        using hkept
  | some blob =>
      simp only [apply, hblob, Std.ExtTreeMap.getElem?_insert, Std.LawfulEqCmp.compare_eq_iff_eq,
        hkept, Option.isSome_some, and_true, eq_comm (a := key)]

/-- A batch adds blobs under its own tid only. -/
theorem blobs_foldl_apply {tid : Tid} {store : MemoryStore} {writes : List Write}
    {key : VersionKey} {blob : Bytes}
    (h : (writes.foldl (apply tid) store).blobs[key]? = some blob) :
    store.blobs[key]? = some blob ∨ key.2 = tid := by
  induction writes generalizing store with
  | nil => exact Or.inl h
  | cons head rest ih =>
      rcases ih h with hbefore | htid
      · rw [blobs_apply] at hbefore
        split_ifs at hbefore with hself hold
        · exact Or.inr (congrArg Prod.snd hself.1)
        · exact Or.inl hbefore
      · exact Or.inr htid

theorem log_foldl_apply (tid : Tid) (store : MemoryStore) (writes : List Write) :
    (writes.foldl (apply tid) store).log = store.log := by
  induction writes generalizing store with
  | nil => rfl
  | cons head _ ih => exact ih (apply tid store head)

theorem blobs_cleanUp {store : MemoryStore} {count : Nat} {key : VersionKey} :
    (store.cleanUp count).2.blobs[key]? =
      if store.hasVersion key then store.blobs[key]? else none :=
  getElem?_filter_key store.hasVersion

theorem log_cleanUp {store : MemoryStore} {count : Nat} {tid : Tid} :
    (store.cleanUp count).2.log[tid]? =
      if store.storedTids.contains tid then store.log[tid]? else none :=
  getElem?_filter_key store.storedTids.contains

/-- A prune removes history first and then cleans up. -/
theorem prune_eq_cleanUp (store : MemoryStore) (boundary : Tid) :
    ∃ (pruned : MemoryStore) (count : Nat), store.prune boundary = pruned.cleanUp count ∧
      pruned.blobs = store.blobs ∧ pruned.log = store.log := by
  rw [prune]
  split
  · exact ⟨_, _, rfl, rfl, rfl⟩
  · exact ⟨_, _, rfl, rfl, rfl⟩

/-- Removing rows keeps a store stamped. -/
theorem Stamped.removal {store after : MemoryStore} (h : store.Stamped) (hsound : after.Sound)
    (hlast : after.lastTid = store.lastTid)
    (hblobs : ∀ {key : VersionKey} {blob}, after.blobs[key]? = some blob →
      store.blobs[key]? = some blob)
    (hlog : ∀ {tid : Tid} {entry}, after.log[tid]? = some entry → store.log[tid]? = some entry) :
    after.Stamped where
  toSound := hsound
  blob_passed hblob := by
    rw [HasPassed, hlast]
    exact h.blob_passed (hblobs hblob)
  log_passed hentry := by
    rw [HasPassed, hlast]
    exact h.log_passed (hlog hentry)

theorem Stamped.cleanUp {store pruned : MemoryStore} {count : Nat} (h : store.Stamped)
    (hsound : (pruned.cleanUp count).2.Sound) (hlast : pruned.lastTid = store.lastTid)
    (hblobs : pruned.blobs = store.blobs) (hlog : pruned.log = store.log) :
    (pruned.cleanUp count).2.Stamped := by
  refine h.removal hsound hlast ?_ ?_
  · intro key blob hblob
    rw [blobs_cleanUp, Option.ite_none_right_eq_some, hblobs] at hblob
    exact hblob.2
  · intro tid entry hentry
    rw [log_cleanUp, Option.ite_none_right_eq_some, hlog] at hentry
    exact hentry.2

theorem Stamped.applyAll {store : MemoryStore} (h : store.Stamped) {now : Instant}
    {note : CommitNote} {writes : List Write} (hvalid : store.refusal? ∅ writes = none) :
    Stamped (store.applyAll (Tid.nextAfter store.lastTid now) now note writes) where
  toSound := h.toSound.applyAll hvalid
  blob_passed hblob := by
    refine ⟨_, rfl, ?_⟩
    rcases blobs_foldl_apply hblob with hold | htid
    · exact le_of_lt (lt_nextAfter_of_hasPassed (h.blob_passed hold))
    · exact le_of_eq htid
  log_passed {tid entry} hentry := by
    refine ⟨_, rfl, ?_⟩
    rw [MemoryStore.applyAll, log_foldl_apply, Std.ExtTreeMap.getElem?_insert] at hentry
    split at hentry
    · rename_i hsame
      exact le_of_eq (Std.LawfulEqCmp.eq_of_compare hsame).symm
    · exact le_of_lt (lt_nextAfter_of_hasPassed (h.log_passed hentry))

theorem Stamped.change {store after : MemoryStore} (h : store.Stamped)
    (hchange : Change store after) : after.Stamped := by
  have hsound := h.toSound.change hchange
  cases hchange with
  | none => exact h
  | counted => exact h.removal hsound rfl id id
  | committed now note writes hvalid => exact h.applyAll hvalid
  | deleted oids =>
      refine h.removal hsound rfl ?_ id
      intro key blob hblob
      rw [deleteAll, getElem?_filter_key fun key : VersionKey => !(OidSet.ofOids oids).contains key.1,
        Option.ite_none_right_eq_some] at hblob
      exact hblob.2
  | pruned boundary =>
      obtain ⟨pruned, count, hprune, hblobs, hlog⟩ := prune_eq_cleanUp store boundary
      have hlast := (prune_frame store boundary).2.2.1
      rw [hprune] at hsound hlast ⊢
      exact h.cleanUp hsound hlast hblobs hlog
  | dropped => exact h.cleanUp hsound rfl rfl rfl

/-- A store that keeps no history has none. -/
theorem Sound.history_eq_empty {store : MemoryStore} (hsound : store.Sound)
    (hkeeps : store.keepsHistory = false) : store.history = ∅ := by
  refine Std.ExtTreeMap.ext_getElem? fun key => ?_
  cases hhistory : store.history[key]? with
  | none => simp
  | some version =>
      have hkept := hsound.history_kept hhistory
      rw [hkeeps] at hkept
      cases hkept

end MemoryStore

/-- The tid that a commit receives, none if it is refused. -/
def assigned? [ObjectStore σ] (store : σ) : StoreAction → Option Tid
  | .commit now note writes =>
      match ObjectStore.commit store now note writes with
      | .ok (tid, _) => some tid
      | .error _ => none
  | _ => none

/-- What a call has to keep to for tids and columns to be in one order: its
batch has distinct objects, its boundary fits, and so does the tid it assigns. -/
structure StoreAction.Fits [ObjectStore σ] (store : σ) (action : StoreAction) : Prop where
  distinct {now note writes} : action = .commit now note writes → (writes.map Write.oid).Nodup
  boundary {boundary} : action = .pruneHistory boundary → boundary.FitsColumn
  assigned {tid} : assigned? store action = some tid → tid.succ.FitsColumn

namespace MemoryStore

theorem commit_eq {store : MemoryStore} (hsound : store.Sound) (now : Instant) (note : CommitNote)
    (writes : List Write) :
    ObjectStore.commit store now note writes =
      match store.refusal? ∅ writes with
      | some error => .error error
      | none => .ok (Tid.nextAfter store.lastTid now,
          store.applyAll (Tid.nextAfter store.lastTid now) now note writes) :=
  hsound.online_eq _

section Perform

variable {store : MemoryStore} (hsound : store.Sound)

include hsound

theorem perform_commit (now : Instant) (note : CommitNote) (writes : List Write) :
    perform store (.commit now note writes) =
      match store.refusal? ∅ writes with
      | some _ => store
      | none => store.applyAll (Tid.nextAfter store.lastTid now) now note writes := by
  rw [perform, commit_eq hsound]
  cases store.refusal? ∅ writes <;> rfl

theorem perform_deleteObjects (oids : List Oid) (guardTid : Tid) :
    perform store (.deleteObjects oids guardTid) =
      if store.lastTid.any (guardTid < ·) then store else (store.deleteAll (.ofOids oids)).2 := by
  have hanswer : ObjectStore.deleteObjects store oids guardTid = _ := hsound.online_eq _
  rw [perform, hanswer]
  cases store.lastTid with
  | none => rfl
  | some last => by_cases hstale : guardTid < last <;> simp [hstale, perform.left]

theorem perform_pruneHistory (boundary : Tid) :
    perform store (.pruneHistory boundary) = (store.prune boundary).2 := by
  have hanswer : ObjectStore.pruneHistory store boundary = .ok (store.prune boundary) :=
    hsound.online_eq _
  rw [perform, hanswer]
  rfl

theorem perform_dropHistory : perform store .dropHistory = store.dropAll.2 := by
  have hanswer : ObjectStore.dropHistory store = .ok store.dropAll := hsound.online_eq _
  rw [perform, hanswer]
  rfl

theorem perform_newOid :
    perform store .newOid = { store with nextOid := (store.nextOid + 1) % UInt64.size } := by
  have hanswer : ObjectStore.newOid store =
      .ok (Oid.ofNat store.nextOid, { store with nextOid := (store.nextOid + 1) % UInt64.size }) :=
    hsound.online_eq _
  rw [perform, hanswer]
  rfl

omit hsound in
/-- Below the largest word the counter moves on by one. -/
theorem following_eq (hroom : store.nextOid < Oid.maxWord) :
    (store.nextOid + 1) % UInt64.size = store.nextOid + 1 := by
  simp only [Oid.maxWord, UInt64.size] at hroom ⊢
  omega

theorem assigned?_commit (now : Instant) (note : CommitNote) (writes : List Write) :
    assigned? store (.commit now note writes) =
      match store.refusal? ∅ writes with
      | some _ => none
      | none => some (Tid.nextAfter store.lastTid now) := by
  rw [assigned?, commit_eq hsound]
  cases store.refusal? ∅ writes <;> rfl

/-- A call that assigns no tid keeps the last one. -/
theorem lastTid_perform (action : StoreAction) :
    (perform store action).lastTid = (assigned? store action).or store.lastTid := by
  cases action with
  | newOid =>
      rw [perform_newOid hsound]
      rfl
  | commit now note writes =>
      rw [perform_commit hsound, assigned?_commit hsound]
      cases store.refusal? ∅ writes <;> rfl
  | deleteObjects oids guardTid =>
      rw [perform_deleteObjects hsound]
      split <;> rfl
  | pruneHistory boundary =>
      rw [perform_pruneHistory hsound]
      exact (prune_frame store boundary).2.2.1
  | dropHistory =>
      rw [perform_dropHistory hsound]
      rfl

end Perform

theorem latest_eq_some {older newer : Option Tid} {tid : Tid}
    (h : Tid.latest older newer = some tid) : older = some tid ∨ newer = some tid := by
  cases older with
  | none => exact Or.inr h
  | some a =>
      cases newer with
      | none => exact Or.inl h
      | some b =>
          rw [Tid.latest, Option.some.injEq] at h
          rcases le_total a b with hle | hge
          · exact Or.inr (congrArg some ((max_eq_right hle).symm.trans h))
          · exact Or.inl (congrArg some ((max_eq_left hge).symm.trans h))

theorem InColumns.perform {store : MemoryStore} (h : store.InColumns) {action : StoreAction}
    (hfits : action.Fits store) : (perform store action).InColumns where
  toStamped := h.toStamped.change change_perform
  last_fits {last} hlast := by
    rw [lastTid_perform h.toSound, Option.or_eq_some_iff] at hlast
    rcases hlast with hnew | ⟨_, hold⟩
    · exact hfits.assigned hnew
    · exact h.last_fits hold
  packed_fits {boundary} hpacked := by
    cases action with
    | newOid =>
        rw [perform_newOid h.toSound] at hpacked
        exact h.packed_fits hpacked
    | commit now note writes =>
        rw [perform_commit h.toSound] at hpacked
        split at hpacked
        · exact h.packed_fits hpacked
        · exact h.packed_fits ((foldl_apply_frame _ store writes).2.2 ▸ hpacked)
    | deleteObjects oids guardTid =>
        rw [perform_deleteObjects h.toSound] at hpacked
        split at hpacked <;> exact h.packed_fits hpacked
    | pruneHistory upper =>
        rw [perform_pruneHistory h.toSound, packedBefore_prune] at hpacked
        split at hpacked
        · rcases latest_eq_some hpacked with hold | hnew
          · exact h.packed_fits hold
          · cases hnew
            exact hfits.boundary rfl
        · exact h.packed_fits hpacked
    | dropHistory =>
        rw [perform_dropHistory h.toSound, packedBefore_dropAll] at hpacked
        split at hpacked
        · rcases latest_eq_some hpacked with hold | hnew
          · exact h.packed_fits hold
          · obtain ⟨last, hlast, rfl⟩ := Option.map_eq_some_iff.mp hnew
            exact h.last_fits hlast
        · exact h.packed_fits hpacked

end MemoryStore

/-- Whether the tid encodes an instant before the year 10000. -/
def Tid.IsDated (tid : Tid) : Prop := tid.micros < 253402300800000000

namespace Tid

variable {tid : Tid}

theorem IsDated.instant?_eq (h : tid.IsDated) :
    tid.instant? = some (Instant.ofMicros tid.micros) := by
  have hdated : (Instant.ofMicros tid.micros).hasDate := by
    simp only [Instant.hasDate, Bool.and_eq_true, decide_eq_true_eq]
    simp only [IsDated, Instant.ofMicros, Instant.firstSecond, Instant.lastSecond] at *
    omega
  rw [instant?, if_pos hdated]

/-- The time of a dated commit survives its text. -/
theorem IsDated.readExact?_offsetText (h : tid.IsDated) :
    Rfc3339.readExact? (Rfc3339.offsetText (Instant.ofMicros tid.micros)) =
      some (Instant.ofMicros tid.micros) := by
  simp only [IsDated] at h
  apply Rfc3339.readExact?_offsetText <;> simp only [Instant.ofMicros] <;> omega

theorem IsDated.succ_fitsColumn (h : tid.IsDated) : tid.succ.FitsColumn := by
  simp only [IsDated, FitsColumn, succ, Column.largest] at *
  omega

end Tid

namespace MemoryStore

/-- All commits came before the year 10000, and the log gives their times. -/
structure Dated (store : MemoryStore) : Prop extends InColumns store where
  last_dated {last : Tid} : store.lastTid = some last → last.IsDated
  log_time {tid : Tid} {entry : LogEntry} :
    store.log[tid]? = some entry → entry.time = Instant.ofMicros tid.micros

theorem Dated.of_hasPassed {store : MemoryStore} (h : store.Dated) {tid : Tid}
    (hpassed : store.HasPassed tid) : tid.IsDated := by
  obtain ⟨last, hlast, hle⟩ := hpassed
  exact lt_of_le_of_lt hle (h.last_dated hlast)

/-- A call logs nothing but the commit it makes. -/
theorem log_perform {store : MemoryStore} (hsound : store.Sound) {action : StoreAction} {tid : Tid}
    {entry : LogEntry} (hlog : (perform store action).log[tid]? = some entry) :
    store.log[tid]? = some entry ∨
      assigned? store action = some tid ∧ ∃ now, entry.time = tid.instant?.getD now := by
  cases action with
  | newOid =>
      rw [perform_newOid hsound] at hlog
      exact Or.inl hlog
  | commit now note writes =>
      rw [perform_commit hsound] at hlog
      rw [assigned?_commit hsound]
      cases hrefusal : store.refusal? ∅ writes with
      | some error =>
          rw [hrefusal] at hlog
          exact Or.inl hlog
      | none =>
          simp only [hrefusal, applyAll, log_foldl_apply, Std.ExtTreeMap.getElem?_insert] at hlog
          split at hlog
          · rename_i hsame
            cases Std.LawfulEqCmp.eq_of_compare hsame
            cases hlog
            exact Or.inr ⟨rfl, now, rfl⟩
          · exact Or.inl hlog
  | deleteObjects oids guardTid =>
      rw [perform_deleteObjects hsound] at hlog
      split at hlog <;> exact Or.inl hlog
  | pruneHistory boundary =>
      obtain ⟨pruned, count, hprune, _, hkept⟩ := prune_eq_cleanUp store boundary
      rw [perform_pruneHistory hsound, hprune, log_cleanUp, Option.ite_none_right_eq_some,
        hkept] at hlog
      exact Or.inl hlog.2
  | dropHistory =>
      rw [perform_dropHistory hsound, dropAll, log_cleanUp, Option.ite_none_right_eq_some] at hlog
      exact Or.inl hlog.2

theorem Dated.perform {store : MemoryStore} (h : store.Dated) {action : StoreAction}
    (hfits : action.Fits store)
    (hassigned : ∀ tid, assigned? store action = some tid → tid.IsDated) :
    (perform store action).Dated where
  toInColumns := h.toInColumns.perform hfits
  last_dated {last} hlast := by
    rw [lastTid_perform h.toSound, Option.or_eq_some_iff] at hlast
    rcases hlast with hnew | ⟨_, hold⟩
    · exact hassigned last hnew
    · exact h.last_dated hold
  log_time {tid entry} hlog := by
    rcases log_perform h.toSound hlog with hold | ⟨hnew, now, htime⟩
    · exact h.log_time hold
    · rw [htime, (hassigned tid hnew).instant?_eq]
      rfl

theorem dated_empty (keepsHistory : Bool) : Dated (empty keepsHistory) where
  toSound := sound_empty
  blob_passed h := by simp [empty] at h
  log_passed h := by simp [empty] at h
  last_fits h := by simp [empty] at h
  packed_fits h := by simp [empty] at h
  last_dated h := by simp [empty] at h
  log_time h := by simp [empty] at h

end MemoryStore

end ObjectVault
