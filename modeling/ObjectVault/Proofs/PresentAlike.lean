/-
Keeping history does not change the present.  A store that keeps history and
one that does not, both empty at first, go through the same calls with the same
current versions, last tid and counter of oids.  Both are documented by one
record of commits, so the blobs and log rows of current versions agree as well.
-/
import ObjectVault.Proofs.Provenance

namespace ObjectVault

/-- Stores that differ at most in what they keep of the past. -/
structure SamePresent (store other : MemoryStore) : Prop where
  current : store.current = other.current
  lastTid : store.lastTid = other.lastTid
  nextOid : store.nextOid = other.nextOid

namespace SamePresent

variable {store other : MemoryStore} {record : List Committed} (h : SamePresent store other)

include h

theorem currentTid?_eq (oid : Oid) : store.currentTid? oid = other.currentTid? oid := by
  rw [MemoryStore.currentTid?, MemoryStore.currentTid?, h.current]

theorem currentWhere_eq (test : Tid → Bool) :
    store.currentWhere test = other.currentWhere test := by
  rw [MemoryStore.currentWhere, MemoryStore.currentWhere, h.current]

/-- A batch is refused by both stores or by none. -/
theorem refusal?_eq (seen : OidSet) (writes : List Write) :
    store.refusal? seen writes = other.refusal? seen writes := by
  induction writes generalizing seen with
  | nil => rfl
  | cons head rest ih => simp only [MemoryStore.refusal?, h.currentTid?_eq, ih]

theorem apply (tid : Tid) (write : Write) :
    SamePresent (MemoryStore.apply tid store write) (MemoryStore.apply tid other write) where
  current := by simp only [MemoryStore.apply, h.current]
  lastTid := h.lastTid
  nextOid := by simp only [MemoryStore.apply, h.nextOid]

theorem foldl_apply (tid : Tid) (writes : List Write) :
    SamePresent (writes.foldl (MemoryStore.apply tid) store)
      (writes.foldl (MemoryStore.apply tid) other) := by
  induction writes generalizing store other with
  | nil => exact h
  | cons head rest ih => exact ih (h.apply tid head)

theorem applyAll (tid : Tid) (now : Instant) (note : CommitNote) (writes : List Write) :
    SamePresent (store.applyAll tid now note writes) (other.applyAll tid now note writes) where
  current := (h.foldl_apply tid writes).current
  lastTid := rfl
  nextOid := (h.foldl_apply tid writes).nextOid

theorem deleteAll (oids : OidSet) :
    SamePresent (store.deleteAll oids).2 (other.deleteAll oids).2 where
  current := by simp only [MemoryStore.deleteAll, h.current]
  lastTid := h.lastTid
  nextOid := h.nextOid

theorem prune (boundary : Tid) : SamePresent (store.prune boundary).2 (other.prune boundary).2 where
  current := by rw [MemoryStore.current_prune, MemoryStore.current_prune, h.current]
  lastTid := by
    rw [(MemoryStore.prune_frame store boundary).2.2.1,
      (MemoryStore.prune_frame other boundary).2.2.1, h.lastTid]
  nextOid := by rw [MemoryStore.nextOid_prune, MemoryStore.nextOid_prune, h.nextOid]

/-- Each call leaves the same present in both stores. -/
theorem perform (hstore : store.Sound) (hother : other.Sound) (action : StoreAction) :
    SamePresent (perform store action) (perform other action) := by
  cases action with
  | newOid =>
      rw [MemoryStore.perform_newOid hstore, MemoryStore.perform_newOid hother]
      exact ⟨h.current, h.lastTid, congrArg (fun next => (next + 1) % UInt64.size) h.nextOid⟩
  | commit now note writes =>
      rw [MemoryStore.perform_commit hstore, MemoryStore.perform_commit hother, h.refusal?_eq,
        h.lastTid]
      split
      · exact h
      · exact h.applyAll _ now note writes
  | deleteObjects oids guardTid =>
      rw [MemoryStore.perform_deleteObjects hstore, MemoryStore.perform_deleteObjects hother,
        h.lastTid]
      split
      · exact h
      · exact h.deleteAll _
  | pruneHistory boundary =>
      rw [MemoryStore.perform_pruneHistory hstore, MemoryStore.perform_pruneHistory hother]
      exact h.prune boundary
  | dropHistory =>
      rw [MemoryStore.perform_dropHistory hstore, MemoryStore.perform_dropHistory hother]
      exact ⟨h.current, h.lastTid, h.nextOid⟩

/-- Both stores answer a commit alike. -/
theorem commit_eq (hstore : store.Sound) (hother : other.Sound) (now : Instant)
    (note : CommitNote) (writes : List Write) :
    (ObjectStore.commit store now note writes).map Prod.fst =
      (ObjectStore.commit other now note writes).map Prod.fst := by
  rw [MemoryStore.commit_eq hstore, MemoryStore.commit_eq hother, h.refusal?_eq, h.lastTid]
  split <;> rfl

theorem enter_eq (hstore : store.Sound) (hother : other.Sound) (record : List Committed)
    (action : StoreAction) :
    Committed.enter record store action = Committed.enter record other action := by
  cases action with
  | newOid | deleteObjects | pruneHistory | dropHistory => rfl
  | commit now note writes =>
      simp only [Committed.enter, MemoryStore.commit_eq hstore, MemoryStore.commit_eq hother,
        h.refusal?_eq, h.lastTid]
      cases other.refusal? ∅ writes <;> rfl

/-- One record documents both stores along a run. -/
theorem performAll (hstore : Documented store record) (hother : Documented other record)
    (actions : List StoreAction) :
    SamePresent (performAll store actions) (performAll other actions) ∧
      Committed.enterAll record store actions = Committed.enterAll record other actions := by
  induction actions generalizing store other record with
  | nil => exact ⟨h, rfl⟩
  | cons action rest ih =>
      have hrecord := h.enter_eq hstore.toSound hother.toSound record action
      have hnext := h.perform hstore.toSound hother.toSound action
      have hlater := hother.perform action
      rw [← hrecord] at hlater
      obtain ⟨hrun, hentered⟩ := ih hnext (hstore.perform action) hlater
      rw [Committed.enterAll, Committed.enterAll, ← hrecord]
      exact ⟨hrun, hentered⟩

end SamePresent

/-- Stores with one record have one blob and one log row for a version that
both of them store. -/
theorem Documented.rows_eq {store other : MemoryStore} {record : List Committed}
    (h : Documented store record) (hother : Documented other record) {oid : Oid}
    {version : Version} (hstored : store.Stores oid version) (hsame : other.Stores oid version) :
    store.blobs[(oid, version.tid)]? = other.blobs[(oid, version.tid)]? ∧
      store.log[version.tid]? = other.log[version.tid]? := by
  obtain ⟨commit, hcommit, ⟨write, hwrite, hoid, hversion, hblob⟩, hlog⟩ := h.written hstored
  obtain ⟨source, hsource, ⟨origin, horigin, hsameOid, hsameVersion, hsameBlob⟩, hsameLog⟩ :=
    hother.written hsame
  have htid : commit.tid = source.tid :=
    (congrArg Version.tid hversion).trans (congrArg Version.tid hsameVersion).symm
  obtain rfl := h.eq_of_tid_eq hcommit hsource htid
  obtain rfl := h.eq_of_oid_eq hcommit hwrite horigin (hoid.trans hsameOid.symm)
  constructor
  · rw [← hblob, ← hsameBlob]
  · rw [hlog, hsameLog]

theorem MemoryStore.summary_congr {store other : MemoryStore} {version : Version}
    (hlog : store.log[version.tid]? = other.log[version.tid]?) :
    store.summary version = other.summary version := by
  simp only [summary, hlog]

/-- A commit does not change the entries of older versions. -/
theorem MemoryStore.summary_applyAll {store : MemoryStore} {now : Instant} {note : CommitNote}
    {writes : List Write} {version : Version} (hpassed : store.HasPassed version.tid) :
    (store.applyAll (Tid.nextAfter store.lastTid now) now note writes).summary version =
      store.summary version :=
  summary_congr (log_applyAll.trans (if_neg (ne_of_lt (lt_nextAfter_of_hasPassed hpassed))))

/-- The newest entry of a listing is that of the current version. -/
theorem MemoryStore.versions_one {store : MemoryStore} (hsound : store.Sound) (oid : Oid) :
    ObjectStore.versions store oid none 1 =
      .ok (store.current[oid]?.toList.map store.summary) := by
  have hanswer : ObjectStore.versions store oid none 1 = _ := hsound.online_eq _
  have hall : (store.storedVersions oid).reverse.filter
      (fun version => (none : Option Tid).all (version.tid < ·)) =
        (store.storedVersions oid).reverse := List.filter_eq_self.mpr fun _ _ => rfl
  rw [hanswer]
  simp only [hall, List.take_one, List.head?_reverse, getLast?_storedVersions hsound]

/-- What a deletion does to the present; the counts of archived versions and
of blobs are left out. -/
inductive DeletionEffect where
  | deleted (objects : Nat)
  | stale (last : Tid)
deriving DecidableEq

def SweepOutcome.effect : SweepOutcome → DeletionEffect
  | deleted objects _ _ => .deleted objects
  | stale last => .stale last

/-- The stores answer every question about the present alike, and every call
that commits, deletes or hands out an oid. -/
structure PresentAlike (store other : MemoryStore) : Prop where
  commit (now : Instant) (note : CommitNote) (writes : List Write) :
    (ObjectStore.commit store now note writes).map Prod.fst =
      (ObjectStore.commit other now note writes).map Prod.fst
  lastTid : ObjectStore.lastTid store = ObjectStore.lastTid other
  load (oid : Oid) : ObjectStore.load store oid = ObjectStore.load other oid
  loadMany (oids : List Oid) : ObjectStore.loadMany store oids = ObjectStore.loadMany other oids
  currentTids (oids : List Oid) :
    ObjectStore.currentTids store oids = ObjectStore.currentTids other oids
  changesSince (since : Tid) :
    ObjectStore.changesSince store since = ObjectStore.changesSince other since
  reachableFrom (roots : List Oid) :
    ObjectStore.reachableFrom store roots = ObjectStore.reachableFrom other roots
  committedUpto (snapshot : Tid) :
    ObjectStore.committedUpto store snapshot = ObjectStore.committedUpto other snapshot
  newOid : (ObjectStore.newOid store).map Prod.fst = (ObjectStore.newOid other).map Prod.fst
  deleteObjects (oids : List Oid) (guardTid : Tid) :
    (ObjectStore.deleteObjects store oids guardTid).map (·.1.effect) =
      (ObjectStore.deleteObjects other oids guardTid).map (·.1.effect)
  loadBlob {oid : Oid} {version : Version} : ObjectStore.load store oid = .ok (some version) →
    ObjectStore.loadBlob store oid version.tid = ObjectStore.loadBlob other oid version.tid
  newest (oid : Oid) : ObjectStore.versions store oid none 1 = ObjectStore.versions other oid none 1

namespace SamePresent

variable {store other : MemoryStore} (h : SamePresent store other) (hstore : store.Sound)
  (hother : other.Sound)

include h

theorem reachable_eq (roots : List Oid) : store.reachable roots = other.reachable roots := by
  have htargets : store.targets = other.targets := by
    funext oid
    rw [MemoryStore.targets, MemoryStore.targets, h.current]
  rw [MemoryStore.reachable, MemoryStore.reachable, htargets, h.current]

include hstore hother

theorem deleteObjects_eq (oids : List Oid) (guardTid : Tid) :
    (ObjectStore.deleteObjects store oids guardTid).map (·.1.effect) =
      (ObjectStore.deleteObjects other oids guardTid).map (·.1.effect) := by
  have hcount : (store.deleteAll (.ofOids oids)).1.effect =
      (other.deleteAll (.ofOids oids)).1.effect := by
    simp only [MemoryStore.deleteAll, SweepOutcome.effect, h.current]
  simp only [ObjectStore.deleteObjects, hstore.online_eq, hother.online_eq, h.lastTid]
  cases other.lastTid with
  | none => exact congrArg Except.ok hcount
  | some last =>
      by_cases hstale : guardTid < last
      · simp only [hstale, ↓reduceIte, Except.map]
      · simp only [hstale, ↓reduceIte, Except.map, hcount]

end SamePresent

/-- Documented stores of one present and one record answer alike. -/
theorem SamePresent.alike {store other : MemoryStore} {record : List Committed}
    (h : SamePresent store other) (hstore : Documented store record)
    (hother : Documented other record) : PresentAlike store other := by
  have hsound := hstore.toSound
  have hsoundOther := hother.toSound
  have hrows : ∀ (oid : Oid) (version : Version), store.current[oid]? = some version →
      store.blobs[(oid, version.tid)]? = other.blobs[(oid, version.tid)]? ∧
        store.log[version.tid]? = other.log[version.tid]? := by
    intro oid version hcurrent
    exact hstore.rows_eq hother (Or.inl hcurrent) (Or.inl (h.current ▸ hcurrent))
  constructor
  case commit => exact h.commit_eq hsound hsoundOther
  case deleteObjects => exact h.deleteObjects_eq hsound hsoundOther
  case newest =>
    intro oid
    rw [MemoryStore.versions_one hsound, MemoryStore.versions_one hsoundOther, ← h.current]
    cases hcurrent : store.current[oid]? with
    | none => rfl
    | some version =>
        have hsummary := MemoryStore.summary_congr (hrows oid version hcurrent).2
        simp only [Option.toList, List.map_cons, hsummary, List.map_nil]
  case loadBlob =>
    intro oid version hload
    have hcurrent := Except.ok.inj (MemoryStore.online_eq_ok hload).2
    simp only [ObjectStore.loadBlob, hsound.online_eq, hsoundOther.online_eq,
      (hrows oid version hcurrent).1]
  all_goals
    intros
    simp only [ObjectStore.lastTid, ObjectStore.load, ObjectStore.loadMany,
      ObjectStore.currentTids, ObjectStore.changesSince, ObjectStore.reachableFrom,
      ObjectStore.committedUpto, ObjectStore.newOid, hsound.online_eq, hsoundOther.online_eq,
      h.current, h.lastTid, h.nextOid, h.currentTid?_eq, h.currentWhere_eq, h.reachable_eq,
      Except.map]

/-- Keeping history does not change the present.  A store that keeps history
and one that does not, driven from empty by the same calls at the same clock
readings, answer alike at every point. -/
theorem history_keeps_present (actions : List StoreAction) :
    PresentAlike (performAll (MemoryStore.empty false) actions)
      (performAll (MemoryStore.empty true) actions) := by
  have hstart : SamePresent (MemoryStore.empty false) (MemoryStore.empty true) :=
    ⟨rfl, rfl, rfl⟩
  obtain ⟨hpresent, hrecord⟩ :=
    hstart.performAll (Documented.empty false) (Documented.empty true) actions
  have hkeeping := (Documented.empty true).performAll actions
  rw [← hrecord] at hkeeping
  exact hpresent.alike ((Documented.empty false).performAll actions) hkeeping

end ObjectVault
