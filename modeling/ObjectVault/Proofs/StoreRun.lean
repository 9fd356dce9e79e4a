/-
Runs of the memory store.  A run is any sequence of calls that may change a
store, refused ones included.  What a call does to the tables is stated once,
as look-ups in the store it leaves, and what holds after every run is derived
from that.
-/
import ObjectVault.Proofs.Answers
import ObjectVault.Store.Memory
import Mathlib.Data.List.Basic
import Mathlib.Order.Defs.LinearOrder

namespace ObjectVault

instance : LinearOrder Tid where
  le_refl tid := Nat.le_refl tid.micros
  le_trans _ _ _ := Nat.le_trans
  lt_iff_le_not_ge _ _ := Nat.lt_iff_le_and_not_ge
  le_antisymm _ _ hle hge := Tid.ext_micros (Nat.le_antisymm hle hge)
  le_total a b := Nat.le_total a.micros b.micros
  max_def _ _ := rfl
  compare := compareOn Tid.micros
  compare_eq_compareOfLessAndEq a b := by
    simp only [compareOn, Nat.compare_eq_ite_lt, compareOfLessAndEq, Tid.lt_def]
    grind [Tid.ext_micros]
  toDecidableLE := inferInstance
  toDecidableLT := inferInstance
  toDecidableEq := inferInstance

@[simp]
theorem OidSet.mem_ofOids {oids : List Oid} {oid : Oid} : oid ∈ ofOids oids ↔ oid ∈ oids := by
  rw [ofOids, Std.ExtTreeSet.mem_ofList, List.contains_iff_mem]

theorem OidSet.nodup_toList (oids : OidSet) : oids.toList.Nodup :=
  Std.ExtTreeSet.distinct_toList.imp fun hne hsame =>
    hne (Std.LawfulEqCmp.compare_eq_iff_eq.mpr hsame)

/-- A call that may change a store. -/
inductive StoreAction where
  | newOid
  | commit (now : Instant) (note : CommitNote) (writes : List Write)
  | deleteObjects (oids : List Oid) (guardTid : Tid)
  | pruneHistory (boundary : Tid)
  | dropHistory

/-- The store that a call leaves.  A refused call changes nothing. -/
def perform [ObjectStore σ] (store : σ) : StoreAction → σ
  | .newOid => left (ObjectStore.newOid store)
  | .commit now note writes => left (ObjectStore.commit store now note writes)
  | .deleteObjects oids guardTid => left (ObjectStore.deleteObjects store oids guardTid)
  | .pruneHistory boundary => left (ObjectStore.pruneHistory store boundary)
  | .dropHistory => left (ObjectStore.dropHistory store)
where
  left {α : Type} : Except StoreError (α × σ) → σ
    | .ok (_, after) => after
    | .error _ => store

/-- The store after a run. -/
def performAll [ObjectStore σ] (store : σ) (actions : List StoreAction) : σ :=
  actions.foldl perform store

/-- Whether a call takes a new oid. -/
def StoreAction.takesOid : StoreAction → Bool
  | .newOid => true
  | .commit .. | .deleteObjects .. | .pruneHistory _ | .dropHistory => false

/-- The counter of oids does not overflow in a run: whenever an oid is taken,
there is room for the next one. -/
def CountsOn [ObjectStore σ] (room : σ → Prop) (store : σ) : List StoreAction → Prop
  | [] => True
  | action :: rest => (action.takesOid → room store) ∧ CountsOn room (perform store action) rest

theorem CountsOn.imp [ObjectStore σ] {room more : σ → Prop}
    (himp : ∀ store, room store → more store) {store : σ} {actions : List StoreAction}
    (h : CountsOn room store actions) :
    CountsOn more store actions := by
  induction actions generalizing store with
  | nil => trivial
  | cons action rest ih => exact ⟨fun htakes => himp store (h.1 htakes), ih h.2⟩

theorem CountsOn.of_append [ObjectStore σ] {room : σ → Prop} {store : σ}
    {actions more : List StoreAction} (h : CountsOn room store (actions ++ more)) :
    CountsOn room store actions := by
  induction actions generalizing store with
  | nil => trivial
  | cons action rest ih => exact ⟨h.1, ih h.2⟩

namespace MemoryStore

/-- Some commit has received this tid or a larger one. -/
def HasPassed (store : MemoryStore) (tid : Tid) : Prop :=
  ∃ last, store.lastTid = some last ∧ tid ≤ last

theorem lt_nextAfter_of_hasPassed {store : MemoryStore} {tid : Tid} {now : Instant}
    (hpassed : store.HasPassed tid) : tid < Tid.nextAfter store.lastTid now := by
  obtain ⟨last, hlast, hle⟩ := hpassed
  rw [hlast]
  exact lt_of_le_of_lt hle Tid.lt_nextAfter

theorem mem_currentWhere_iff {store : MemoryStore} {test : Tid → Bool} {oid : Oid} {tid : Tid} :
    (oid, tid) ∈ store.currentWhere test ↔
      ∃ version, store.current[oid]? = some version ∧ version.tid = tid ∧ test tid := by
  simp only [currentWhere, List.mem_filterMap, Prod.exists, Option.ite_none_right_eq_some,
    Option.some.injEq, Prod.mk.injEq, Std.ExtTreeMap.mem_toList_iff_getElem?_eq_some]
  constructor
  · rintro ⟨_, version, hcurrent, htest, rfl, rfl⟩
    exact ⟨version, hcurrent, rfl, htest⟩
  · rintro ⟨version, hcurrent, rfl, htest⟩
    exact ⟨oid, version, hcurrent, htest, rfl, rfl⟩

theorem refusal?_eq_none_iff {store : MemoryStore} {seen : OidSet} {writes : List Write} :
    store.refusal? seen writes = none ↔
      (writes.map Write.oid).Nodup ∧ (∀ write ∈ writes, write.oid ∉ seen) ∧
        ∀ write ∈ writes, store.currentTid? write.oid = write.expected := by
  induction writes generalizing seen with
  | nil => simp [refusal?]
  | cons head rest ih =>
      by_cases hseen : head.oid ∈ seen
      · simp [refusal?, Std.ExtTreeSet.contains_iff_mem, hseen]
      · by_cases hexpected : store.currentTid? head.oid = head.expected
        · simp only [refusal?, Std.ExtTreeSet.contains_iff_mem, hseen, hexpected, ↓reduceIte,
            ne_eq, not_true_eq_false, ih, List.map_cons, List.nodup_cons, List.mem_map,
            Std.ExtTreeSet.mem_insert, Std.LawfulEqCmp.compare_eq_iff_eq, not_or,
            List.forall_mem_cons, not_false_eq_true, true_and]
          constructor
          · rintro ⟨hnodup, hnew, hrest⟩
            refine ⟨⟨?_, hnodup⟩, fun write hmem => (hnew write hmem).2, hrest⟩
            rintro ⟨write, hmem, heq⟩
            exact (hnew write hmem).1 heq.symm
          · rintro ⟨⟨hfresh, hnodup⟩, hnew, hrest⟩
            refine ⟨hnodup, fun write hmem => ⟨?_, hnew write hmem⟩, hrest⟩
            intro heq
            exact hfresh ⟨write, hmem, heq.symm⟩
        · simp [refusal?, Std.ExtTreeSet.contains_iff_mem, hseen, hexpected]

/-- A write leaves the other objects alone. -/
theorem apply_of_ne (tid : Tid) (store : MemoryStore) {write : Write} {oid : Oid}
    (hne : write.oid ≠ oid) :
    (apply tid store write).current[oid]? = store.current[oid]? ∧
      ∀ old : Tid, (apply tid store write).history[(oid, old)]? = store.history[(oid, old)]? := by
  constructor
  · simp [apply, Std.ExtTreeMap.getElem?_insert, hne]
  · intro old
    cases hcurrent : store.current[write.oid]? with
    | none => simp [apply, hcurrent]
    | some outgoing =>
        by_cases hkeeps : store.keepsHistory <;>
          simp [apply, hcurrent, hkeeps, Std.ExtTreeMap.getElem?_insert, hne]

theorem current_apply_self {tid : Tid} {store : MemoryStore} {write : Write} :
    (apply tid store write).current[write.oid]? = some (write.version tid) := by
  simp [apply]

theorem history_apply_self {tid old : Tid} {store : MemoryStore} {write : Write} :
    (apply tid store write).history[(write.oid, old)]? =
      if store.keepsHistory ∧ store.currentTid? write.oid = some old then
        store.current[write.oid]?
      else store.history[(write.oid, old)]? := by
  cases hcurrent : store.current[write.oid]? with
  | none => simp [apply, currentTid?, hcurrent]
  | some outgoing =>
      by_cases hkeeps : store.keepsHistory
      · simp [apply, currentTid?, hcurrent, hkeeps, Std.ExtTreeMap.getElem?_insert]
      · simp [apply, hcurrent, hkeeps]

/-- A batch leaves alone what it does not write. -/
theorem foldl_apply_of_notMem (tid : Tid) (store : MemoryStore) {writes : List Write} {oid : Oid}
    (hmem : oid ∉ writes.map Write.oid) :
    (writes.foldl (apply tid) store).current[oid]? = store.current[oid]? ∧
      ∀ old : Tid, (writes.foldl (apply tid) store).history[(oid, old)]? =
        store.history[(oid, old)]? := by
  induction writes generalizing store with
  | nil => exact ⟨rfl, fun _ => rfl⟩
  | cons head rest ih =>
      simp only [List.map_cons, List.mem_cons, not_or] at hmem
      obtain ⟨hcurrent, hhistory⟩ := apply_of_ne tid store (Ne.symm hmem.1)
      obtain ⟨hcurrent', hhistory'⟩ := ih (apply tid store head) hmem.2
      exact ⟨hcurrent'.trans hcurrent, fun old => (hhistory' old).trans (hhistory old)⟩

/-- A batch does to each object it writes what its write for that object
does. -/
theorem foldl_apply_of_mem (tid : Tid) (store : MemoryStore) {writes : List Write}
    (hnodup : (writes.map Write.oid).Nodup) {write : Write} (hmem : write ∈ writes) :
    (writes.foldl (apply tid) store).current[write.oid]? = some (write.version tid) ∧
      ∀ old : Tid, (writes.foldl (apply tid) store).history[(write.oid, old)]? =
        (apply tid store write).history[(write.oid, old)]? := by
  induction writes generalizing store with
  | nil => simp at hmem
  | cons head rest ih =>
      simp only [List.map_cons, List.nodup_cons] at hnodup
      rcases List.mem_cons.mp hmem with rfl | hrest
      · obtain ⟨hcurrent, hhistory⟩ :=
          foldl_apply_of_notMem tid (apply tid store write) hnodup.1
        exact ⟨hcurrent.trans current_apply_self, hhistory⟩
      · have hne : head.oid ≠ write.oid := by
          intro heq
          exact hnodup.1 (List.mem_map.mpr ⟨write, hrest, heq.symm⟩)
        obtain ⟨hcurrent, hhistory⟩ := apply_of_ne tid store hne
        obtain ⟨hcurrent', hhistory'⟩ := ih (apply tid store head) hnodup.2 hrest
        refine ⟨hcurrent', fun old => ?_⟩
        rw [List.foldl_cons, hhistory', history_apply_self, history_apply_self, currentTid?,
          currentTid?, hcurrent, hhistory]
        rfl

/-- What a batch leaves alone in a store. -/
theorem foldl_apply_frame (tid : Tid) (store : MemoryStore) (writes : List Write) :
    (writes.foldl (apply tid) store).keepsHistory = store.keepsHistory ∧
      (writes.foldl (apply tid) store).offline = store.offline ∧
      (writes.foldl (apply tid) store).packedBefore = store.packedBefore := by
  induction writes generalizing store with
  | nil => exact ⟨rfl, rfl, rfl⟩
  | cons head _ ih => exact ih (apply tid store head)

/-- A valid batch either leaves an object alone or holds its one write. -/
theorem applyAll_cases {store : MemoryStore} {tid : Tid} {now : Instant} {note : CommitNote}
    {writes : List Write} (hvalid : store.refusal? ∅ writes = none) (oid : Oid) :
    (oid ∉ writes.map Write.oid ∧
        (store.applyAll tid now note writes).current[oid]? = store.current[oid]? ∧
        ∀ old : Tid, (store.applyAll tid now note writes).history[(oid, old)]? =
          store.history[(oid, old)]?) ∨
      ∃ write ∈ writes, write.oid = oid ∧ store.currentTid? oid = write.expected ∧
        (store.applyAll tid now note writes).current[oid]? = some (write.version tid) ∧
        ∀ old : Tid, (store.applyAll tid now note writes).history[(oid, old)]? =
          if store.keepsHistory ∧ store.currentTid? oid = some old then store.current[oid]?
          else store.history[(oid, old)]? := by
  obtain ⟨hnodup, _, hexpected⟩ := refusal?_eq_none_iff.mp hvalid
  by_cases hmem : oid ∈ writes.map Write.oid
  · obtain ⟨write, hwrite, rfl⟩ := List.mem_map.mp hmem
    obtain ⟨hcurrent, hhistory⟩ := foldl_apply_of_mem tid store hnodup hwrite
    exact Or.inr ⟨write, hwrite, rfl, hexpected write hwrite, hcurrent,
      fun old => (hhistory old).trans history_apply_self⟩
  · obtain ⟨hcurrent, hhistory⟩ := foldl_apply_of_notMem tid store hmem
    exact Or.inl ⟨hmem, hcurrent, hhistory⟩

/-- Filtering by key keeps the rows of the keys that pass. -/
theorem getElem?_filter_key {α β : Type} {order : α → α → Ordering} [Std.TransCmp order]
    [Std.LawfulEqCmp order] {table : Std.ExtTreeMap α β order} (keep : α → Bool) {key : α} :
    (table.filter fun key _ => keep key)[key]? = if keep key then table[key]? else none := by
  rw [Std.ExtTreeMap.getElem?_filter']
  cases table[key]? with
  | none => simp
  | some row => by_cases hkeep : keep key <;> simp [hkeep]

theorem mem_table_iff {α β : Type} {order : α → α → Ordering} [Std.TransCmp order]
    {table : Std.ExtTreeMap α β order} {key : α} :
    key ∈ table ↔ ∃ row, table[key]? = some row :=
  Std.ExtTreeMap.mem_iff_isSome_getElem?.trans Option.isSome_iff_exists

theorem mem_of_mem_filter_key {α β : Type} {order : α → α → Ordering} [Std.TransCmp order]
    [Std.LawfulEqCmp order] {table : Std.ExtTreeMap α β order} (keep : α → Bool) {key : α}
    (h : key ∈ table.filter fun key _ => keep key) : key ∈ table := by
  obtain ⟨row, hrow⟩ := mem_table_iff.mp h
  rw [getElem?_filter_key, Option.ite_none_right_eq_some] at hrow
  exact mem_table_iff.mpr ⟨row, hrow.2⟩

theorem current_deleteAll {store : MemoryStore} {oids : OidSet} {oid : Oid} :
    (store.deleteAll oids).2.current[oid]? =
      if oid ∈ oids then none else store.current[oid]? := by
  simp only [deleteAll, getElem?_filter_key, ← Std.ExtTreeSet.contains_iff_mem]
  cases oids.contains oid <;> rfl

theorem history_deleteAll {store : MemoryStore} {oids : OidSet} {oid : Oid} {tid : Tid} :
    (store.deleteAll oids).2.history[(oid, tid)]? =
      if oid ∈ oids then none else store.history[(oid, tid)]? := by
  simp only [deleteAll, getElem?_filter_key fun key : VersionKey => !oids.contains key.1,
    ← Std.ExtTreeSet.contains_iff_mem]
  cases oids.contains oid <;> rfl

/-- What a prune leaves alone. -/
theorem prune_frame (store : MemoryStore) (boundary : Tid) :
    (store.prune boundary).2.keepsHistory = store.keepsHistory ∧
      (store.prune boundary).2.offline = store.offline ∧
      (store.prune boundary).2.lastTid = store.lastTid ∧
      (store.prune boundary).2.current = store.current := by
  by_cases hkeeps : store.keepsHistory <;> simp [prune, cleanUp, hkeeps]

@[simp]
theorem current_prune {store : MemoryStore} {boundary : Tid} :
    (store.prune boundary).2.current = store.current :=
  (prune_frame store boundary).2.2.2

theorem nextOid_prune (store : MemoryStore) (boundary : Tid) :
    (store.prune boundary).2.nextOid = store.nextOid := by
  rw [prune]
  split <;> rfl

theorem packedBefore_prune (store : MemoryStore) (boundary : Tid) :
    (store.prune boundary).2.packedBefore =
      if store.keepsHistory then Tid.latest store.packedBefore (some boundary)
      else store.packedBefore := by
  by_cases hkeeps : store.keepsHistory <;> simp [prune, cleanUp, hkeeps]

theorem history_prune {store : MemoryStore} {boundary : Tid} {key : VersionKey} :
    (store.prune boundary).2.history[key]? =
      if store.keepsHistory ∧ store.isOutdated boundary key then none
      else store.history[key]? := by
  by_cases hkeeps : store.keepsHistory
  · simp only [prune, cleanUp, hkeeps, ↓reduceIte, true_and,
      getElem?_filter_key fun key => !store.isOutdated boundary key]
    cases store.isOutdated boundary key <;> rfl
  · simp [prune, cleanUp, hkeeps]

theorem packedBefore_dropAll (store : MemoryStore) :
    store.dropAll.2.packedBefore =
      if store.keepsHistory then Tid.latest store.packedBefore (store.lastTid.map Tid.succ)
      else store.packedBefore :=
  rfl

theorem history_dropAll {store : MemoryStore} {key : VersionKey} :
    store.dropAll.2.history[key]? = none := by
  simp [dropAll, cleanUp]

theorem online_eq {store : MemoryStore} (honline : store.offline = false)
    (answer : Except StoreError α) : store.online answer = answer := by
  rw [online, honline]
  rfl

theorem online_eq_ok {store : MemoryStore} {answer : Except StoreError α} {result : α}
    (h : store.online answer = .ok result) : store.offline = false ∧ answer = .ok result := by
  by_cases hoffline : store.offline
  · simp [online, hoffline] at h
  · simpa [online, hoffline] using h

theorem commit_eq_ok {store after : MemoryStore} {now : Instant} {note : CommitNote}
    {writes : List Write} {tid : Tid}
    (h : ObjectStore.commit store now note writes = .ok (tid, after)) :
    store.refusal? ∅ writes = none ∧ tid = Tid.nextAfter store.lastTid now ∧
      after = store.applyAll tid now note writes := by
  have hanswer := (online_eq_ok h).2
  cases hrefusal : store.refusal? ∅ writes with
  | some error => simp [hrefusal] at hanswer
  | none =>
      simp only [hrefusal, Except.ok.injEq, Prod.mk.injEq] at hanswer
      obtain ⟨rfl, rfl⟩ := hanswer
      exact ⟨rfl, rfl, rfl⟩

theorem load_of_commit {store after : MemoryStore} {now : Instant} {note : CommitNote}
    {writes : List Write} {tid : Tid}
    (h : ObjectStore.commit store now note writes = .ok (tid, after)) {write : Write}
    (hwrite : write ∈ writes) :
    ObjectStore.load after write.oid = .ok (some (write.version tid)) := by
  obtain ⟨hrefusal, _, rfl⟩ := commit_eq_ok h
  have honline : store.offline = false := (online_eq_ok h).1
  have hlater : (store.applyAll tid now note writes).offline = false :=
    (foldl_apply_frame tid store writes).2.1.trans honline
  have hcurrent : (store.applyAll tid now note writes).current[write.oid]? =
      some (write.version tid) :=
    (foldl_apply_of_mem tid store (refusal?_eq_none_iff.mp hrefusal).1 hwrite).1
  exact (online_eq hlater _).trans (congrArg Except.ok hcurrent)

/-- A deletion is carried out only if nothing was committed above its guard. -/
theorem deleteObjects_eq_deleted {store after : MemoryStore} {oids : List Oid} {guardTid : Tid}
    {objects history blobs : Nat}
    (h : ObjectStore.deleteObjects store oids guardTid =
      .ok (.deleted objects history blobs, after)) :
    (∀ last, store.lastTid = some last → last ≤ guardTid) ∧
      after = (store.deleteAll (.ofOids oids)).2 := by
  have hanswer := (online_eq_ok h).2
  cases hlast : store.lastTid with
  | none =>
      simp only [hlast, Except.ok.injEq] at hanswer
      exact ⟨by simp, (congrArg Prod.snd hanswer).symm⟩
  | some last =>
      by_cases hstale : guardTid < last
      · simp [hlast, hstale] at hanswer
      · simp only [hlast, hstale, ↓reduceIte, Except.ok.injEq] at hanswer
        refine ⟨?_, (congrArg Prod.snd hanswer).symm⟩
        rintro _ ⟨⟩
        exact le_of_not_gt hstale

/-- A deletion under a stale guard has no effect. -/
theorem deleteObjects_eq_stale {store after : MemoryStore} {oids : List Oid} {guardTid last : Tid}
    (h : ObjectStore.deleteObjects store oids guardTid = .ok (.stale last, after)) :
    store.lastTid = some last ∧ guardTid < last ∧ after = store := by
  have hanswer := (online_eq_ok h).2
  cases hlast : store.lastTid with
  | none => simp [hlast, deleteAll] at hanswer
  | some top =>
      by_cases hstale : guardTid < top
      · simp only [hlast, hstale, ↓reduceIte, Except.ok.injEq, Prod.mk.injEq,
          SweepOutcome.stale.injEq] at hanswer
        obtain ⟨rfl, rfl⟩ := hanswer
        exact ⟨rfl, hstale, rfl⟩
      · simp [hlast, hstale, deleteAll] at hanswer

/-- The ways a call leaves a store. -/
inductive Change (store : MemoryStore) : MemoryStore → Prop where
  | none : Change store store
  | counted (next : Nat) : Change store { store with nextOid := next }
  | committed (now : Instant) (note : CommitNote) (writes : List Write)
      (hvalid : store.refusal? ∅ writes = none) :
      Change store (store.applyAll (Tid.nextAfter store.lastTid now) now note writes)
  | deleted (oids : List Oid) : Change store (store.deleteAll (.ofOids oids)).2
  | pruned (boundary : Tid) : Change store (store.prune boundary).2
  | dropped : Change store store.dropAll.2

theorem change_commit {store after : MemoryStore} {now : Instant} {note : CommitNote}
    {writes : List Write} {tid : Tid}
    (h : ObjectStore.commit store now note writes = .ok (tid, after)) : Change store after := by
  obtain ⟨hvalid, rfl, rfl⟩ := commit_eq_ok h
  exact .committed now note writes hvalid

theorem change_deleteObjects {store after : MemoryStore} {oids : List Oid} {guardTid : Tid}
    {outcome : SweepOutcome}
    (h : ObjectStore.deleteObjects store oids guardTid = .ok (outcome, after)) :
    Change store after := by
  cases outcome with
  | deleted objects history blobs =>
      obtain ⟨_, rfl⟩ := deleteObjects_eq_deleted h
      exact .deleted oids
  | stale last =>
      obtain ⟨_, _, rfl⟩ := deleteObjects_eq_stale h
      exact .none

theorem change_pruneHistory {store after : MemoryStore} {boundary : Tid} {counts : PruneCounts}
    (h : ObjectStore.pruneHistory store boundary = .ok (counts, after)) : Change store after := by
  have hanswer := Except.ok.inj (online_eq_ok h).2
  rw [show after = (store.prune boundary).2 from (congrArg Prod.snd hanswer).symm]
  exact .pruned boundary

theorem change_left {store : MemoryStore} {α : Type} {answer : Except StoreError (α × MemoryStore)}
    (h : ∀ result after, answer = .ok (result, after) → Change store after) :
    Change store (perform.left store answer) := by
  cases answer with
  | error => exact .none
  | ok result => exact h result.1 result.2 rfl

theorem change_perform {store : MemoryStore} {action : StoreAction} :
    Change store (perform store action) := by
  cases action with
  | newOid =>
      apply change_left
      intro oid after h
      obtain ⟨_, rfl⟩ := Prod.mk.inj (Except.ok.inj (online_eq_ok h).2)
      exact .counted _
  | commit now note writes => exact change_left fun _ _ => change_commit
  | deleteObjects oids guardTid => exact change_left fun _ _ => change_deleteObjects
  | pruneHistory boundary => exact change_left fun _ _ => change_pruneHistory
  | dropHistory =>
      apply change_left
      intro counts after h
      have hanswer := Except.ok.inj (online_eq_ok h).2
      rw [show after = store.dropAll.2 from (congrArg Prod.snd hanswer).symm]
      exact .dropped

theorem Change.keepsHistory {store after : MemoryStore} (hchange : Change store after) :
    after.keepsHistory = store.keepsHistory := by
  cases hchange with
  | none | counted | deleted | dropped => rfl
  | committed now note writes => exact (foldl_apply_frame _ store writes).1
  | pruned boundary => exact (prune_frame store boundary).1

theorem keepsHistory_performAll (store : MemoryStore) (actions : List StoreAction) :
    (performAll store actions).keepsHistory = store.keepsHistory := by
  induction actions generalizing store with
  | nil => rfl
  | cons action rest ih => exact (ih (perform store action)).trans change_perform.keepsHistory

/-- What every reached store has: it is online, rows lie under their own keys,
no current version is later than the last commit, and archived versions are
older than their object's current one.  A store that keeps no history has
none. -/
structure Sound (store : MemoryStore) : Prop where
  online : store.offline = false
  current_oid {oid : Oid} {version : Version} :
    store.current[oid]? = some version → version.oid = oid
  current_passed {oid : Oid} {version : Version} :
    store.current[oid]? = some version → store.HasPassed version.tid
  history_key {oid : Oid} {tid : Tid} {version : Version} :
    store.history[(oid, tid)]? = some version → version.oid = oid ∧ version.tid = tid
  history_lt {oid : Oid} {tid : Tid} {version : Version} :
    store.history[(oid, tid)]? = some version →
      ∃ current, store.current[oid]? = some current ∧ tid < current.tid
  history_kept {oid : Oid} {tid : Tid} {version : Version} :
    store.history[(oid, tid)]? = some version → store.keepsHistory

/-- A sound store answers. -/
theorem Sound.online_eq {store : MemoryStore} (hsound : store.Sound) {α : Type}
    (answer : Except StoreError α) : store.online answer = answer :=
  MemoryStore.online_eq hsound.online answer

theorem sound_empty {keepsHistory : Bool} : Sound (empty keepsHistory) := by
  constructor <;> simp [empty]

/-- No current version is above a tid that no commit has passed. -/
theorem Sound.current_le {store : MemoryStore} (hsound : store.Sound) {bound : Tid}
    (hbound : ∀ last, store.lastTid = some last → last ≤ bound) {oid : Oid} {version : Version}
    (hcurrent : store.current[oid]? = some version) : version.tid ≤ bound := by
  obtain ⟨last, hlast, hle⟩ := hsound.current_passed hcurrent
  exact le_trans hle (hbound last hlast)

theorem Sound.applyAll {store : MemoryStore} (hsound : store.Sound) {now : Instant}
    {note : CommitNote} {writes : List Write} (hvalid : store.refusal? ∅ writes = none) :
    Sound (store.applyAll (Tid.nextAfter store.lastTid now) now note writes) where
  online := (foldl_apply_frame _ store writes).2.1.trans hsound.online
  current_oid {oid version} h := by
    rcases applyAll_cases hvalid oid with ⟨_, hcurrent, _⟩ | ⟨write, _, rfl, _, hcurrent, _⟩
    · exact hsound.current_oid (hcurrent.symm.trans h)
    · cases hcurrent.symm.trans h
      rfl
  current_passed {oid version} h := by
    refine ⟨Tid.nextAfter store.lastTid now, rfl, ?_⟩
    rcases applyAll_cases hvalid oid with ⟨_, hcurrent, _⟩ | ⟨write, _, rfl, _, hcurrent, _⟩
    · have hpassed := hsound.current_passed (hcurrent.symm.trans h)
      exact le_of_lt (lt_nextAfter_of_hasPassed hpassed)
    · cases hcurrent.symm.trans h
      exact le_refl _
  history_key {oid tid version} h := by
    rcases applyAll_cases hvalid oid with ⟨_, _, hhistory⟩ | ⟨write, _, rfl, _, _, hhistory⟩
    · exact hsound.history_key ((hhistory tid).symm.trans h)
    · rw [hhistory] at h
      split at h
      · rename_i harchived
        refine ⟨hsound.current_oid h, ?_⟩
        simpa [currentTid?, h] using harchived.2
      · exact hsound.history_key h
  history_lt {oid tid version} h := by
    rcases applyAll_cases hvalid oid with
      ⟨_, hcurrent, hhistory⟩ | ⟨write, _, rfl, _, hcurrent, hhistory⟩
    · rw [hcurrent]
      exact hsound.history_lt ((hhistory tid).symm.trans h)
    · refine ⟨_, hcurrent, lt_nextAfter_of_hasPassed ?_⟩
      rw [hhistory] at h
      split at h
      · rename_i harchived
        have htid : version.tid = tid := by simpa [currentTid?, h] using harchived.2
        exact htid ▸ hsound.current_passed h
      · obtain ⟨current, hold, hlt⟩ := hsound.history_lt h
        obtain ⟨last, hlast, hle⟩ := hsound.current_passed hold
        exact ⟨last, hlast, le_of_lt (lt_of_lt_of_le hlt hle)⟩
  history_kept {oid tid version} h := by
    rw [MemoryStore.applyAll, (foldl_apply_frame _ store writes).1]
    rcases applyAll_cases hvalid oid with ⟨_, _, hhistory⟩ | ⟨write, _, rfl, _, _, hhistory⟩
    · exact hsound.history_kept ((hhistory tid).symm.trans h)
    · rw [hhistory] at h
      split at h
      · rename_i harchived
        exact harchived.1
      · exact hsound.history_kept h

/-- Removing rows keeps a store sound, if no archived version stays behind
without its object. -/
theorem Sound.removal {store : MemoryStore} (hsound : store.Sound) (after : MemoryStore)
    (hkeeps : after.keepsHistory = store.keepsHistory) (honline : after.offline = store.offline)
    (hlast : after.lastTid = store.lastTid)
    (hcurrent : ∀ {oid : Oid} {version}, after.current[oid]? = some version →
      store.current[oid]? = some version)
    (hhistory : ∀ {oid : Oid} {tid : Tid} {version}, after.history[(oid, tid)]? = some version →
      store.history[(oid, tid)]? = some version ∧ after.current[oid]? = store.current[oid]?) :
    after.Sound where
  online := honline.trans hsound.online
  current_oid h := hsound.current_oid (hcurrent h)
  current_passed h := by
    rw [HasPassed, hlast]
    exact hsound.current_passed (hcurrent h)
  history_key h := hsound.history_key (hhistory h).1
  history_lt h := by
    obtain ⟨hold, hkept⟩ := hhistory h
    rw [hkept]
    exact hsound.history_lt hold
  history_kept h := hkeeps ▸ hsound.history_kept (hhistory h).1

theorem Sound.change {store after : MemoryStore} (hsound : store.Sound)
    (hchange : Change store after) : after.Sound := by
  cases hchange with
  | none => exact hsound
  | counted => exact hsound.removal _ rfl rfl rfl id fun h => ⟨h, rfl⟩
  | committed now note writes hvalid => exact hsound.applyAll hvalid
  | deleted oids =>
      refine hsound.removal (store.deleteAll _).2 rfl rfl rfl ?_ ?_
      · intro oid version h
        rw [current_deleteAll, Option.ite_none_left_eq_some] at h
        exact h.2
      · intro oid tid version h
        rw [history_deleteAll, Option.ite_none_left_eq_some] at h
        rw [current_deleteAll, if_neg h.1]
        exact ⟨h.2, rfl⟩
  | pruned boundary =>
      obtain ⟨hkeeps, honline, hlast, _⟩ := prune_frame store boundary
      apply hsound.removal _ hkeeps honline hlast
      · simp
      · intro oid tid version h
        rw [history_prune, Option.ite_none_left_eq_some] at h
        exact ⟨h.2, by rw [current_prune]⟩
  | dropped =>
      refine hsound.removal store.dropAll.2 rfl rfl rfl id ?_
      intro oid tid version h
      rw [history_dropAll] at h
      cases h

theorem sound_performAll {store : MemoryStore} (hsound : store.Sound)
    {actions : List StoreAction} : Sound (performAll store actions) := by
  induction actions generalizing store with
  | nil => exact hsound
  | cons action rest ih => exact ih (hsound.change change_perform)

theorem load_eq {store : MemoryStore} (hsound : store.Sound) (oid : Oid) :
    ObjectStore.load store oid = .ok store.current[oid]? :=
  hsound.online_eq _

theorem loadBlob_eq {store : MemoryStore} (hsound : store.Sound) (oid : Oid) (tid : Tid) :
    ObjectStore.loadBlob store oid tid = .ok store.blobs[(oid, tid)]? :=
  hsound.online_eq _

theorem loadVersion_eq {store : MemoryStore} (hsound : store.Sound) (oid : Oid) (tid : Tid) :
    ObjectStore.loadVersion store oid tid =
      .ok (if store.currentTid? oid = some tid then store.current[oid]?
        else store.history[(oid, tid)]?) := by
  have hanswer : ObjectStore.loadVersion store oid tid = _ := hsound.online_eq _
  rw [hanswer, currentTid?]
  cases hcurrent : store.current[oid]? with
  | none => simp
  | some current => by_cases htid : current.tid = tid <;> simp [htid]

end MemoryStore

end ObjectVault
