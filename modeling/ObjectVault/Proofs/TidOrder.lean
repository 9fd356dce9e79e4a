/-
Tids in order.  Whatever the clock reads, each commit receives a tid above all
earlier ones and not below its reading.  The last tid is the largest one ever
assigned, whatever was deleted since, and no table of the store mentions a
later tid.
-/
import ObjectVault.Proofs.Provenance
import Mathlib.Order.MinMax

namespace ObjectVault

/-- The tids that the tables of a store mention. -/
inductive MemoryStore.Mentions (store : MemoryStore) : Tid → Prop where
  | stored {oid : Oid} {version : Version} :
      store.Stores oid version → Mentions store version.tid
  | archived {oid : Oid} {tid : Tid} : (oid, tid) ∈ store.history → Mentions store tid
  | superseded {oid : Oid} {version : Version} {prev : Tid} :
      store.Stores oid version → version.prev = some prev → Mentions store prev
  | blob {oid : Oid} {tid : Tid} : (oid, tid) ∈ store.blobs → Mentions store tid
  | logged {tid : Tid} : tid ∈ store.log → Mentions store tid

/-- A predecessor of a stored version is older. -/
theorem Kept.prev_lt {store : MemoryStore} {oid : Oid} {committed : List Version}
    (hsound : store.Sound) (hkept : Kept store oid committed) {version : Version} {prev : Tid}
    (hstored : store.Stores oid version) (hprev : version.prev = some prev) :
    prev < version.tid := by
  have hmem := (MemoryStore.stores_iff hsound).mp hstored
  exact hkept.chained.prev_lt (hkept.suffix.mem hmem) hprev

/-- No tid in the tables is later than the last commit. -/
theorem MemoryStore.Stamped.mentions_passed {store : MemoryStore} (h : store.Stamped)
    (hprev : ∀ oid version prev, store.Stores oid version → version.prev = some prev →
      prev < version.tid) {tid : Tid} (hmentions : store.Mentions tid) : store.HasPassed tid := by
  have hstored : ∀ {oid version}, store.Stores oid version → store.HasPassed version.tid := by
    intro oid version hstored
    exact h.toSound.stored_passed ((stores_iff h.toSound).mp hstored)
  induction hmentions with
  | stored hversion => exact hstored hversion
  | archived hmem =>
      obtain ⟨version, hhistory⟩ := mem_table_iff.mp hmem
      rw [← (h.history_key hhistory).2]
      exact hstored (Or.inr ⟨_, hhistory⟩)
  | superseded hversion hsuperseded =>
      obtain ⟨last, hlast, hle⟩ := hstored hversion
      have hlt := hprev _ _ _ hversion hsuperseded
      exact ⟨last, hlast, le_of_lt (lt_of_lt_of_le hlt hle)⟩
  | blob hmem =>
      obtain ⟨blob, hblob⟩ := mem_table_iff.mp hmem
      exact h.blob_passed hblob
  | logged hmem =>
      obtain ⟨entry, hentry⟩ := mem_table_iff.mp hmem
      exact h.log_passed hentry

/-- The record grows by the tid that a call is assigned. -/
theorem Committed.tids_enter [ObjectStore σ] (record : List Committed) (store : σ)
    (action : StoreAction) :
    (enter record store action).map tid =
      record.map tid ++ (assigned? store action).toList := by
  cases action with
  | commit now note writes =>
      cases hcommit : ObjectStore.commit store now note writes <;>
        simp [enter, assigned?, hcommit]
  | newOid | deleteObjects | pruneHistory | dropHistory => simp [enter, assigned?]

/-- A commit is not dated before its clock reading. -/
theorem Committed.reading_le_of_enter {store : MemoryStore} {record : List Committed}
    {action : StoreAction}
    (hrecord : ∀ commit ∈ record, Tid.ofInstant commit.now ≤ commit.tid) :
    ∀ commit ∈ enter record store action, Tid.ofInstant commit.now ≤ commit.tid := by
  cases action with
  | newOid | deleteObjects | pruneHistory | dropHistory => exact hrecord
  | commit now note writes =>
      simp only [enter]
      split
      · rename_i tid after hcommit
        obtain ⟨_, htid, _⟩ := MemoryStore.commit_eq_ok hcommit
        intro commit hmem
        rcases List.mem_append.mp hmem with hearlier | hlast
        · exact hrecord commit hearlier
        · rw [List.mem_singleton.mp hlast, htid]
          exact Tid.ofInstant_le_nextAfter
      · exact hrecord

/-- The last tid of a store is that of the last recorded commit, and no
commit is dated before its clock reading. -/
structure Clocked (store : MemoryStore) (record : List Committed) : Prop where
  last : store.lastTid = (record.map Committed.tid).getLast?
  reading_le : ∀ commit ∈ record, Tid.ofInstant commit.now ≤ commit.tid

namespace Clocked

variable {store : MemoryStore} {record : List Committed}

theorem perform (hsound : store.Sound) (h : Clocked store record) (action : StoreAction) :
    Clocked (perform store action) (Committed.enter record store action) where
  last := by
    rw [MemoryStore.lastTid_perform hsound, Committed.tids_enter, List.getLast?_append, h.last]
    cases assigned? store action <;> rfl
  reading_le := Committed.reading_le_of_enter h.reading_le

theorem performAll (hsound : store.Sound) (h : Clocked store record)
    (actions : List StoreAction) :
    Clocked (performAll store actions) (Committed.enterAll record store actions) := by
  induction actions generalizing store record with
  | nil => exact h
  | cons action rest ih =>
      exact ih (hsound.change MemoryStore.change_perform) (h.perform hsound action)

/-- What holds after every run from an empty store. -/
theorem ofRun (keepsHistory : Bool) (actions : List StoreAction) :
    Clocked (ObjectVault.performAll (MemoryStore.empty keepsHistory) actions)
      (Committed.ofRun keepsHistory actions) :=
  performAll MemoryStore.sound_empty ⟨rfl, by simp⟩ actions

end Clocked

/-- The last of increasing tids is the largest. -/
theorem max?_eq_getLast? {tids : List Tid} (hascending : tids.Pairwise (· < ·)) :
    tids.max? = tids.getLast? := by
  induction tids using List.reverseRecOn with
  | nil => rfl
  | append_singleton earlier last _ =>
      rw [List.getLast?_concat, List.max?_eq_some_iff]
      constructor
      · simp
      · intro tid hmem
        rcases List.mem_append.mp hmem with hearlier | hlast
        · exact le_of_lt ((List.pairwise_append.mp hascending).2.2 tid hearlier last (by simp))
        · exact le_of_eq (List.mem_singleton.mp hlast)

/-- Tids are never reused or reordered.  Those of successful commits strictly
increase and are not below their clock readings.  The last tid is the largest
one ever assigned, every tid in the tables is at most the last one, and every
version is later than its predecessor. -/
theorem tids_never_reused (keepsHistory : Bool) (actions : List StoreAction) :
    let store := performAll (MemoryStore.empty keepsHistory) actions
    let record := Committed.ofRun keepsHistory actions
    (record.Pairwise fun earlier later => earlier.tid < later.tid) ∧
    (∀ commit ∈ record, commit.now.micros ≤ commit.tid.micros) ∧
    ObjectStore.lastTid store = .ok (record.map Committed.tid).max? ∧
    (∀ tid, store.Mentions tid →
      ∃ last, ObjectStore.lastTid store = .ok (some last) ∧ tid ≤ last) ∧
    ∀ oid version prev, store.Stores oid version → version.prev = some prev →
      prev < version.tid := by
  intro store record
  have hrun : Documented store record := Documented.ofRun keepsHistory actions
  have hclocked : Clocked store record := Clocked.ofRun keepsHistory actions
  have hlast : ObjectStore.lastTid store = .ok store.lastTid := hrun.toSound.online_eq _
  have hprev : ∀ oid version prev, store.Stores oid version → version.prev = some prev →
      prev < version.tid := by
    intro oid version prev
    exact (kept_run keepsHistory actions oid).prev_lt hrun.toSound
  refine ⟨hrun.ascending, ?_, ?_, ?_, hprev⟩
  · intro commit hmem
    have hle : commit.now.micros.toNat ≤ commit.tid.micros := hclocked.reading_le commit hmem
    omega
  · have hascending : (record.map Committed.tid).Pairwise (· < ·) :=
      List.pairwise_map.mpr hrun.ascending
    rw [hlast, hclocked.last, max?_eq_getLast? hascending]
  · intro tid hmentions
    obtain ⟨last, hsome, hle⟩ := hrun.toStamped.mentions_passed hprev hmentions
    rw [hlast, hsome]
    exact ⟨last, rfl, hle⟩

end ObjectVault
