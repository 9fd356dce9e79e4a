/-
Stores as a cache sees them.  A cache relies on little of a store: which
versions are current, which tid was assigned last, and how each call changes
that.  The laws are stated for any store and hold in memory and over a
database alike.
-/
import ObjectVault.Proofs.StoreMirror

namespace ObjectVault

section Reads

variable {σ : Type} [ObjectStore σ]

/-- The current version of an object, as the store answers it. -/
def ObjectStore.current? (store : σ) (oid : Oid) : Option Version :=
  match ObjectStore.load store oid with
  | .ok found => found
  | .error _ => none

/-- The last tid, as the store answers it. -/
def ObjectStore.last? (store : σ) : Option Tid :=
  match ObjectStore.lastTid store with
  | .ok last => last
  | .error _ => none

open ObjectStore (current? last?)

/-- Some commit has received this tid or a larger one. -/
def Passed (store : σ) (tid : Tid) : Prop := ∃ last, last? store = some last ∧ tid ≤ last

/-- The object is at this tid. -/
def HasCurrent (store : σ) (oid : Oid) (tid : Tid) : Prop :=
  ∃ version, current? store oid = some version ∧ version.tid = tid

theorem HasCurrent.unique {store : σ} {oid : Oid} {tid other : Tid} (h : HasCurrent store oid tid)
    (hother : HasCurrent store oid other) : tid = other := by
  obtain ⟨version, hversion, rfl⟩ := h
  obtain ⟨_, hsame, rfl⟩ := hother
  cases hversion.symm.trans hsame
  rfl

/-- Outside the objects that a call works on, versions stay current. -/
theorem HasCurrent.kept_or_lost {store after : σ} {oids : List Oid} {oid : Oid} {tid : Tid}
    (h : HasCurrent store oid tid)
    (hothers : ∀ oid, oid ∉ oids → current? after oid = current? store oid) :
    HasCurrent after oid tid ∨
      oid ∈ oids ∧ HasCurrent store oid tid ∧ ¬ HasCurrent after oid tid := by
  by_cases hkept : HasCurrent after oid tid
  · exact Or.inl hkept
  · refine Or.inr ⟨?_, h, hkept⟩
    by_contra hother
    obtain ⟨version, hversion, htid⟩ := h
    exact hkept ⟨version, (hothers oid hother).trans hversion, htid⟩

/-- A commit has made its writes current under a tid above all earlier ones. -/
structure Commits (store : σ) (tid : Tid) (writes : List Write) (after : σ) : Prop where
  distinct : (writes.map Write.oid).Nodup
  last : last? after = some tid
  above {old : Tid} : Passed store old → old < tid
  written {write : Write} : write ∈ writes → current? after write.oid = some (write.version tid)
  others {oid : Oid} : oid ∉ writes.map Write.oid → current? after oid = current? store oid

/-- The store has lost the given objects and no other. -/
structure Loses (store : σ) (oids : List Oid) (after : σ) : Prop where
  last : last? after = last? store
  current (oid : Oid) : current? after oid = if oid ∈ oids then none else current? store oid

theorem Loses.refl (store : σ) : Loses store [] store := ⟨rfl, fun _ => rfl⟩

/-- What any work can do to the current versions: each one stays, goes, or
gives way to one with a tid above all earlier ones. -/
structure Grows (store after : σ) : Prop where
  passed {tid : Tid} : Passed store tid → Passed after tid
  current {oid : Oid} {version : Version} : current? after oid = some version →
    current? store oid = some version ∨ ∀ tid, Passed store tid → tid < version.tid

theorem Grows.refl (store : σ) : Grows store store := ⟨id, Or.inl⟩

theorem Grows.trans {store after later : σ} (hfirst : Grows store after)
    (hsecond : Grows after later) : Grows store later where
  passed hpassed := hsecond.passed (hfirst.passed hpassed)
  current hcurrent := by
    rcases hsecond.current hcurrent with hold | hnew
    · exact hfirst.current hold
    · exact Or.inr fun tid hpassed => hnew tid (hfirst.passed hpassed)

theorem Grows.hasCurrent {store after : σ} (h : Grows store after) {oid : Oid} {tid : Tid}
    (hcurrent : HasCurrent after oid tid) :
    HasCurrent store oid tid ∨ ∀ old, Passed store old → old < tid := by
  obtain ⟨version, hversion, rfl⟩ := hcurrent
  rcases h.current hversion with hold | hnew
  · exact Or.inl ⟨version, hold, rfl⟩
  · exact Or.inr hnew

theorem Commits.current_written {store after : σ} {tid : Tid} {writes : List Write}
    (h : Commits store tid writes after) {oid : Oid} {version : Version}
    (hmem : oid ∈ writes.map Write.oid) (hcurrent : current? after oid = some version) :
    ∃ write ∈ writes, version = write.version tid := by
  obtain ⟨write, hwrite, rfl⟩ := List.mem_map.mp hmem
  cases (h.written hwrite).symm.trans hcurrent
  exact ⟨write, hwrite, rfl⟩

theorem Commits.grows {store after : σ} {tid : Tid} {writes : List Write}
    (h : Commits store tid writes after) : Grows store after where
  passed hpassed := ⟨tid, h.last, le_of_lt (h.above hpassed)⟩
  current {oid version} hcurrent := by
    by_cases hmem : oid ∈ writes.map Write.oid
    · obtain ⟨write, _, rfl⟩ := h.current_written hmem hcurrent
      exact Or.inr fun _ => h.above
    · exact Or.inl ((h.others hmem).symm.trans hcurrent)

theorem Loses.grows {store after : σ} {oids : List Oid} (h : Loses store oids after) :
    Grows store after where
  passed hpassed := by
    rw [Passed, h.last]
    exact hpassed
  current {oid version} hcurrent := by
    rw [h.current, Option.ite_none_left_eq_some] at hcurrent
    exact Or.inl hcurrent.2

end Reads

open ObjectStore (current? last?)

/-- What a store promises about current versions. -/
class LawfulStore (σ : Type) [ObjectStore σ] where
  /-- What holds of every store in use. -/
  Valid : σ → Prop
  /-- Whether the store keeps the tid apart from all others. -/
  Holds : Tid → Prop
  load_eq {store : σ} (h : Valid store) (oid : Oid) :
    ObjectStore.load store oid = .ok (current? store oid)
  loadMany_eq {store : σ} (h : Valid store) (oids : List Oid) :
    ObjectStore.loadMany store oids = .ok (oids.map (current? store))
  lastTid_eq {store : σ} (h : Valid store) : ObjectStore.lastTid store = .ok (last? store)
  current_oid {store : σ} (h : Valid store) {oid : Oid} {version : Version} :
    current? store oid = some version → version.oid = oid
  current_passed {store : σ} (h : Valid store) {oid : Oid} {version : Version} :
    current? store oid = some version → Passed store version.tid
  changesSince_eq {store : σ} (h : Valid store) {since : Tid}
    (hsince : since = .zero ∨ Passed store since) :
    ∃ changed, ObjectStore.changesSince store since = .ok (last? store, changed) ∧
      ∀ oid, oid ∈ changed ↔ ∃ version, current? store oid = some version ∧ since < version.tid
  commit_eq_ok {store after : σ} (h : Valid store) {now : Instant} {note : CommitNote}
    {writes : List Write} {tid : Tid} (hholds : Holds tid)
    (hcommit : ObjectStore.commit store now note writes = .ok (tid, after)) :
    Valid after ∧ Commits store tid writes after
  deleteObjects_eq_deleted {store after : σ} (h : Valid store) {oids : List Oid} {guardTid : Tid}
    {objects history blobs : Nat} (hdelete : ObjectStore.deleteObjects store oids guardTid =
      .ok (.deleted objects history blobs, after)) : Valid after ∧ Loses store oids after
  deleteObjects_eq_stale {store after : σ} (h : Valid store) {oids : List Oid}
    {guardTid last : Tid}
    (hdelete : ObjectStore.deleteObjects store oids guardTid = .ok (.stale last, after)) :
    Valid after ∧ Loses store [] after
  pruneHistory_eq_ok {store after : σ} (h : Valid store) {boundary : Tid} {counts : PruneCounts}
    (hprune : ObjectStore.pruneHistory store boundary = .ok (counts, after)) :
    Valid after ∧ Loses store [] after
  dropHistory_eq_ok {store after : σ} (h : Valid store) {counts : PruneCounts}
    (hdrop : ObjectStore.dropHistory store = .ok (counts, after)) :
    Valid after ∧ Loses store [] after
  newOid_eq_ok {store after : σ} (h : Valid store) {oid : Oid}
    (hnew : ObjectStore.newOid store = .ok (oid, after)) : Valid after ∧ Loses store [] after

/-- Whether a call leaves the current versions alone. -/
def StoreAction.isQuiet : StoreAction → Bool
  | .commit .. | .deleteObjects .. => false
  | .newOid | .pruneHistory _ | .dropHistory => true

open LawfulStore in
/-- A quiet call loses nothing. -/
theorem loses_perform {σ : Type} [ObjectStore σ] [LawfulStore σ] {store : σ} (h : Valid store)
    {action : StoreAction} (hquiet : action.isQuiet) :
    Valid (perform store action) ∧ Loses store [] (perform store action) := by
  cases action with
  | commit | deleteObjects => cases hquiet
  | newOid =>
      rw [perform]
      cases hnew : ObjectStore.newOid store with
      | error => exact ⟨h, .refl store⟩
      | ok answer => exact newOid_eq_ok h hnew
  | pruneHistory boundary =>
      rw [perform]
      cases hprune : ObjectStore.pruneHistory store boundary with
      | error => exact ⟨h, .refl store⟩
      | ok answer => exact pruneHistory_eq_ok h hprune
  | dropHistory =>
      rw [perform]
      cases hdrop : ObjectStore.dropHistory store with
      | error => exact ⟨h, .refl store⟩
      | ok answer => exact dropHistory_eq_ok h hdrop

namespace MemoryStore.Sound

variable {store : MemoryStore} (hsound : store.Sound)

include hsound

theorem current?_eq (oid : Oid) : current? store oid = store.current[oid]? := by
  rw [current?, load_eq hsound]

theorem last?_eq : last? store = store.lastTid := by
  have hlast : ObjectStore.lastTid store = .ok store.lastTid := hsound.online_eq _
  rw [last?, hlast]

theorem passed_iff (tid : Tid) : Passed store tid ↔ store.HasPassed tid := by
  rw [Passed, HasPassed, hsound.last?_eq]

theorem commits {now : Instant} {note : CommitNote} {writes : List Write}
    (hvalid : store.refusal? ∅ writes = none) :
    Commits store (Tid.nextAfter store.lastTid now) writes
      (store.applyAll (Tid.nextAfter store.lastTid now) now note writes) := by
  have hafter : (store.applyAll (Tid.nextAfter store.lastTid now) now note writes).Sound :=
    hsound.applyAll hvalid
  obtain ⟨hdistinct, _, _⟩ := refusal?_eq_none_iff.mp hvalid
  constructor
  · exact hdistinct
  · exact hafter.last?_eq
  · intro old hpassed
    exact lt_nextAfter_of_hasPassed ((hsound.passed_iff old).mp hpassed)
  · intro write hwrite
    rw [hafter.current?_eq]
    exact (foldl_apply_of_mem _ store hdistinct hwrite).1
  · intro oid hother
    rw [hafter.current?_eq, hsound.current?_eq]
    exact (foldl_apply_of_notMem _ store hother).1

theorem loses {after : MemoryStore} (hafter : after.Sound) (hlast : after.lastTid = store.lastTid)
    (oids : List Oid)
    (hcurrent : ∀ oid, after.current[oid]? = if oid ∈ oids then none else store.current[oid]?) :
    after.Sound ∧ Loses store oids after := by
  constructor
  · exact hafter
  · constructor
    · rw [hafter.last?_eq, hlast, hsound.last?_eq]
    · intro oid
      rw [hafter.current?_eq, hcurrent, hsound.current?_eq]

end MemoryStore.Sound

instance : LawfulStore MemoryStore where
  Valid := MemoryStore.Sound
  Holds _ := True
  load_eq h oid := by
    rw [h.current?_eq]
    exact h.online_eq _
  loadMany_eq h oids := by
    rw [funext h.current?_eq]
    exact h.online_eq _
  lastTid_eq h := by
    rw [h.last?_eq]
    exact h.online_eq _
  current_oid := by
    intro store h oid version hcurrent
    rw [h.current?_eq] at hcurrent
    exact h.current_oid hcurrent
  current_passed := by
    intro store h oid version hcurrent
    rw [h.current?_eq] at hcurrent
    exact (h.passed_iff _).mpr (h.current_passed hcurrent)
  changesSince_eq := by
    intro store h since _
    have hanswer : ObjectStore.changesSince store since =
        .ok (store.lastTid, (store.currentWhere (since < ·)).map Prod.fst) := h.online_eq _
    rw [h.last?_eq]
    refine ⟨_, hanswer, ?_⟩
    intro oid
    simp only [List.mem_map, Prod.exists, exists_and_right, exists_eq_right,
      MemoryStore.mem_currentWhere_iff, h.current?_eq, decide_eq_true_eq]
    constructor
    · rintro ⟨_, version, hcurrent, rfl, habove⟩
      exact ⟨version, hcurrent, habove⟩
    · rintro ⟨version, hcurrent, habove⟩
      exact ⟨_, version, hcurrent, rfl, habove⟩
  commit_eq_ok := by
    intro store after h now note writes tid _ hcommit
    obtain ⟨hvalid, rfl, rfl⟩ := MemoryStore.commit_eq_ok hcommit
    exact ⟨h.applyAll hvalid, h.commits hvalid⟩
  deleteObjects_eq_deleted := by
    intro store after h oids guardTid objects history blobs hdelete
    obtain ⟨_, rfl⟩ := MemoryStore.deleteObjects_eq_deleted hdelete
    apply h.loses (h.change (.deleted oids)) rfl oids
    intro oid
    rw [MemoryStore.current_deleteAll]
    simp only [OidSet.mem_ofOids]
  deleteObjects_eq_stale := by
    intro store after h oids guardTid last hdelete
    obtain ⟨_, _, rfl⟩ := MemoryStore.deleteObjects_eq_stale hdelete
    exact ⟨h, .refl after⟩
  pruneHistory_eq_ok := by
    intro store after h boundary counts hprune
    obtain rfl : (store.prune boundary).2 = after :=
      congrArg Prod.snd (Except.ok.inj (MemoryStore.online_eq_ok hprune).2)
    apply h.loses (h.change (.pruned boundary)) (MemoryStore.prune_frame store boundary).2.2.1 []
    intro oid
    rw [MemoryStore.current_prune, if_neg List.not_mem_nil]
  dropHistory_eq_ok := by
    intro store after h counts hdrop
    cases (MemoryStore.online_eq_ok hdrop).2
    exact h.loses (h.change .dropped) rfl [] fun _ => rfl
  newOid_eq_ok := by
    intro store after h oid hnew
    cases (MemoryStore.online_eq_ok hnew).2
    exact h.loses (h.change (.counted ((store.nextOid + 1) % UInt64.size))) rfl [] fun _ => rfl

/-- The version that a current row holds. -/
def CurrentRow.read (oid : Oid) (row : CurrentRow) : Version :=
  ⟨oid, row.tid, row.prev, row.state, (Column.readRefs? row.refs).getD ∅⟩

theorem CurrentRow.read_currentRow (version : Version) :
    version.currentRow.read version.oid = version := by
  have hrefs : Column.readRefs? version.currentRow.refs = some version.refs :=
    Column.readRefs?_refs version.refs
  rw [read, hrefs]
  rfl

/-- Rows inserted one after another leave other keys alone. -/
theorem getElem?_foldl_insert_of_notMem {table : OidMap CurrentRow} {tid : Tid}
    {writes : List Write} {oid : Oid} (hother : oid ∉ writes.map Write.oid) :
    (writes.foldl (fun table write =>
      table.insert write.oid (write.version tid).currentRow) table)[oid]? = table[oid]? := by
  induction writes generalizing table with
  | nil => rfl
  | cons head rest ih =>
      rw [List.map_cons, List.mem_cons, not_or] at hother
      rw [List.foldl_cons, ih hother.2, Std.ExtTreeMap.getElem?_insert, if_neg]
      rw [Std.LawfulEqCmp.compare_eq_iff_eq]
      exact fun hsame => hother.1 hsame.symm

theorem getElem?_foldl_insert_of_mem {table : OidMap CurrentRow} {tid : Tid}
    {writes : List Write} (hdistinct : (writes.map Write.oid).Nodup) {write : Write}
    (hwrite : write ∈ writes) :
    (writes.foldl (fun table write =>
      table.insert write.oid (write.version tid).currentRow) table)[write.oid]? =
        some (write.version tid).currentRow := by
  induction writes generalizing table with
  | nil => cases hwrite
  | cons head rest ih =>
      rw [List.map_cons, List.nodup_cons] at hdistinct
      rcases List.mem_cons.mp hwrite with rfl | hrest
      · rw [List.foldl_cons, getElem?_foldl_insert_of_notMem hdistinct.1,
          Std.ExtTreeMap.getElem?_insert_self]
      · exact ih hdistinct.2 hrest

namespace RelationalStore

variable {store : RelationalStore}

theorem distinct_of_repeated? {seen : OidSet} {writes : List Write}
    (h : repeated? seen writes = none) :
    (writes.map Write.oid).Nodup ∧ ∀ write ∈ writes, write.oid ∉ seen := by
  induction writes generalizing seen with
  | nil => simp
  | cons head rest ih =>
      rw [repeated?] at h
      split at h
      · cases h
      · rename_i hhead
        rw [Std.ExtTreeSet.contains_iff_mem] at hhead
        obtain ⟨hrest, hseen⟩ := ih h
        constructor
        · rw [List.map_cons, List.nodup_cons]
          refine ⟨?_, hrest⟩
          intro hmem
          obtain ⟨write, hwrite, hsame⟩ := List.mem_map.mp hmem
          apply hseen write hwrite
          rw [hsame]
          exact Std.ExtTreeSet.mem_insert_self
        · intro write hwrite
          rcases List.mem_cons.mp hwrite with rfl | hlater
          · exact hhead
          · intro hmem
            exact hseen write hlater (Std.ExtTreeSet.mem_insert.mpr (Or.inr hmem))

/-- What a write does to the database. -/
theorem apply_eq_ok {keepsHistory : Bool} {tid : Tid} {database next : Database} {write : Write}
    (h : apply keepsHistory tid database write = .ok next) :
    ∃ history blobs, archive keepsHistory database write = .ok history ∧
      next = { database with
        current := database.current.insert write.oid (write.version tid).currentRow
        history, blobs } := by
  obtain ⟨history, harchive, hblobs⟩ := bind_eq_ok.mp h
  obtain ⟨blobs, _, hnext⟩ := bind_eq_ok.mp hblobs
  cases hnext
  exact ⟨history, blobs, harchive, rfl⟩

/-- A batch makes its writes current and leaves the counter of oids alone. -/
theorem foldlM_apply_eq_ok {keepsHistory : Bool} {tid : Tid} {writes : List Write}
    {database written : Database}
    (h : writes.foldlM (apply keepsHistory tid) database = .ok written) :
    written.nextOid = database.nextOid ∧
      written.current = writes.foldl (fun table write =>
        table.insert write.oid (write.version tid).currentRow) database.current := by
  induction writes generalizing database with
  | nil =>
      cases h
      exact ⟨rfl, rfl⟩
  | cons head rest ih =>
      rw [List.foldlM_cons] at h
      obtain ⟨next, happly, hrest⟩ := bind_eq_ok.mp h
      obtain ⟨history, blobs, _, rfl⟩ := apply_eq_ok happly
      exact ih hrest

/-- The steps of a successful commit: the log row, then the writes. -/
theorem commit_steps {store after : RelationalStore} {now : Instant} {note : CommitNote}
    {writes : List Write} {tid : Tid} (h : commit store now note writes = .ok (tid, after)) :
    repeated? ∅ writes = none ∧ tid = Tid.nextAfter store.database.last? now ∧
      ∃ log written, insertNew "transaction_log" store.database.log tid
          ⟨Rfc3339.offsetText (tid.instant?.getD now), note⟩ = .ok log ∧
        writes.foldlM (apply store.keepsHistory tid) { store.database with log } = .ok written ∧
        after = { store with database := { written with
          lastTid := some tid.column
          nextOid := nextOidAfter written.nextOid writes } } := by
  simp only [commit] at h
  cases hrepeated : repeated? ∅ writes with
  | some oid => simp [hrepeated, throw, throwThe, MonadExceptOf.throw, bind, Except.bind] at h
  | none =>
      cases hconflict : conflict? store.database writes with
      | some error =>
          simp [hrepeated, hconflict, throw, throwThe, MonadExceptOf.throw, bind, Except.bind] at h
      | none =>
          rw [hrepeated, hconflict] at h
          obtain ⟨log, hlog, hlogged⟩ := bind_eq_ok.mp h
          obtain ⟨written, hwritten, hafter⟩ := bind_eq_ok.mp hlogged
          cases hafter
          exact ⟨rfl, rfl, log, written, hlog, hwritten, rfl⟩

/-- What a successful commit has done to the database. -/
theorem commit_eq_ok {store after : RelationalStore} {now : Instant} {note : CommitNote}
    {writes : List Write} {tid : Tid} (h : commit store now note writes = .ok (tid, after)) :
    (writes.map Write.oid).Nodup ∧ tid = Tid.nextAfter store.database.last? now ∧
      after.database.lastTid = some tid.column ∧
      after.database.nextOid = nextOidAfter store.database.nextOid writes ∧
      after.database.current = writes.foldl (fun table write =>
        table.insert write.oid (write.version tid).currentRow) store.database.current := by
  obtain ⟨hrepeated, htid, log, written, _, hwritten, rfl⟩ := commit_steps h
  obtain ⟨hnext, hcurrent⟩ := foldlM_apply_eq_ok hwritten
  refine ⟨(distinct_of_repeated? hrepeated).1, htid, rfl, ?_, hcurrent⟩
  dsimp only
  rw [hnext]

/-- A commit receives a tid above all earlier ones. -/
theorem lt_of_commit {after : RelationalStore} {now : Instant} {note : CommitNote}
    {writes : List Write} {tid : Tid} (h : commit store now note writes = .ok (tid, after))
    {old : Tid} (hpassed : Passed store old) : old < tid := by
  obtain ⟨last, hold, hle⟩ := hpassed
  have hlast : store.database.last? = some last := hold
  rw [(commit_eq_ok h).2.1, hlast]
  exact lt_of_le_of_lt hle Tid.lt_nextAfter

theorem last?_of_commit {after : RelationalStore} {now : Instant} {note : CommitNote}
    {writes : List Write} {tid : Tid} (h : commit store now note writes = .ok (tid, after))
    (htid : tid.FitsColumn) : last? after = some tid := by
  have hcolumn : last? after = (some tid.column).map Tid.ofColumn :=
    congrArg (Option.map Tid.ofColumn) (commit_eq_ok h).2.2.1
  rw [hcolumn, Option.map_some, Tid.ofColumn_column htid]

/-- After a commit the current rows are those of its writes, and the others as
before. -/
theorem current_of_commit {after : RelationalStore} {now : Instant} {note : CommitNote}
    {writes : List Write} {tid : Tid} (h : commit store now note writes = .ok (tid, after)) :
    (∀ write ∈ writes,
      after.database.current[write.oid]? = some (write.version tid).currentRow) ∧
    ∀ oid, oid ∉ writes.map Write.oid →
      after.database.current[oid]? = store.database.current[oid]? := by
  obtain ⟨hdistinct, _, _, _, hcurrent⟩ := commit_eq_ok h
  rw [hcurrent]
  constructor
  · intro write hwrite
    exact getElem?_foldl_insert_of_mem hdistinct hwrite
  · intro oid hother
    exact getElem?_foldl_insert_of_notMem hother

theorem row_of_commit {after : RelationalStore} {now : Instant} {note : CommitNote}
    {writes : List Write} {tid : Tid} (h : commit store now note writes = .ok (tid, after))
    {oid : Oid} {row : CurrentRow} (hrow : after.database.current[oid]? = some row) :
    (∃ write ∈ writes, row = (write.version tid).currentRow) ∨
      store.database.current[oid]? = some row := by
  obtain ⟨hwritten, hothers⟩ := current_of_commit h
  by_cases hmem : oid ∈ writes.map Write.oid
  · obtain ⟨write, hwrite, rfl⟩ := List.mem_map.mp hmem
    exact Or.inl ⟨write, hwrite, Option.some.inj (hrow.symm.trans (hwritten write hwrite))⟩
  · exact Or.inr ((hothers oid hmem).symm.trans hrow)

/-- The references of every current version can be read, no current version is
later than the last commit, and the last tid fits its column. -/
structure Readable (store : RelationalStore) : Prop where
  refs {oid : Oid} {row : CurrentRow} : store.database.current[oid]? = some row →
    (Column.readRefs? row.refs).isSome
  passed {oid : Oid} {row : CurrentRow} : store.database.current[oid]? = some row →
    Passed store row.tid
  last_fits {tid : Tid} : Passed store tid → tid.FitsColumn

namespace Readable

variable (h : store.Readable)

include h

theorem currentVersion?_eq (oid : Oid) : store.database.currentVersion? oid =
    .ok (store.database.current[oid]?.map (CurrentRow.read oid)) := by
  rw [Database.currentVersion?]
  cases hrow : store.database.current[oid]? with
  | none => rfl
  | some row =>
      obtain ⟨refs, hrefs⟩ := Option.isSome_iff_exists.mp (h.refs hrow)
      simp only [VersionRow.version, hrefs, Option.map_some, CurrentRow.read]
      rfl

theorem load_eq (oid : Oid) : ObjectStore.load store oid =
    .ok (store.database.current[oid]?.map (CurrentRow.read oid)) :=
  h.currentVersion?_eq oid

theorem current?_eq (oid : Oid) :
    current? store oid = store.database.current[oid]?.map (CurrentRow.read oid) := by
  rw [current?, h.load_eq]

theorem current?_eq_some {oid : Oid} {version : Version} : current? store oid = some version ↔
    ∃ row, store.database.current[oid]? = some row ∧ row.read oid = version := by
  rw [h.current?_eq, Option.map_eq_some_iff]

end Readable

/-- Work that keeps or removes rows and keeps the last tid. -/
theorem Readable.loses {store after : RelationalStore} (h : store.Readable) (oids : List Oid)
    (hlast : after.database.lastTid = store.database.lastTid)
    (hcurrent : ∀ oid, after.database.current[oid]? =
      if oid ∈ oids then none else store.database.current[oid]?) :
    after.Readable ∧ Loses store oids after := by
  have hlastEq : last? after = last? store := congrArg (Option.map Tid.ofColumn) hlast
  have hpassed : ∀ tid, Passed after tid ↔ Passed store tid := by
    intro tid
    rw [Passed, Passed, hlastEq]
  have hrow : ∀ {oid : Oid} {row : CurrentRow}, after.database.current[oid]? = some row →
      store.database.current[oid]? = some row := by
    intro oid row hafter
    rw [hcurrent, Option.ite_none_left_eq_some] at hafter
    exact hafter.2
  have hreadable : after.Readable := by
    constructor
    · intro oid row hafter
      exact h.refs (hrow hafter)
    · intro oid row hafter
      exact (hpassed _).mpr (h.passed (hrow hafter))
    · intro tid hafter
      exact h.last_fits ((hpassed tid).mp hafter)
  refine ⟨hreadable, hlastEq, ?_⟩
  intro oid
  rw [hreadable.current?_eq, hcurrent, h.current?_eq]
  split <;> rfl

theorem Readable.commits {store after : RelationalStore} (h : store.Readable) {now : Instant}
    {note : CommitNote} {writes : List Write} {tid : Tid} (htid : tid.FitsColumn)
    (hcommit : ObjectStore.commit store now note writes = .ok (tid, after)) :
    after.Readable ∧ Commits store tid writes after := by
  have hlast : last? after = some tid := last?_of_commit hcommit htid
  have habove : ∀ {old}, Passed store old → old < tid := fun hpassed => lt_of_commit hcommit hpassed
  obtain ⟨hwritten, hothers⟩ := current_of_commit hcommit
  have hreadable : after.Readable := by
    constructor
    · intro oid row hrow
      rcases row_of_commit hcommit hrow with ⟨write, _, rfl⟩ | hold
      · have hrefs : Column.readRefs? (Column.refs write.refs) = some write.refs :=
          Column.readRefs?_refs write.refs
        exact Option.isSome_iff_exists.mpr ⟨write.refs, hrefs⟩
      · exact h.refs hold
    · intro oid row hrow
      rcases row_of_commit hcommit hrow with ⟨write, _, rfl⟩ | hold
      · exact ⟨tid, hlast, le_refl tid⟩
      · exact ⟨tid, hlast, le_of_lt (habove (h.passed hold))⟩
    · rintro old ⟨last, hold, hle⟩
      cases hlast.symm.trans hold
      exact htid.of_le hle
  refine ⟨hreadable, (commit_eq_ok hcommit).1, hlast, habove, ?_, ?_⟩
  · intro write hwrite
    rw [hreadable.current?_eq, hwritten write hwrite]
    exact congrArg some (CurrentRow.read_currentRow (write.version tid))
  · intro oid hother
    rw [hreadable.current?_eq, hothers oid hother, h.current?_eq]

theorem Readable.mem_currentWhere (h : store.Readable) {test : Int → Bool} {oid : Oid} :
    oid ∈ (store.currentWhere test).map Prod.fst ↔
      ∃ version, current? store oid = some version ∧ test version.tid.column := by
  simp only [currentWhere, List.mem_map, List.mem_filterMap, Prod.exists, exists_and_right,
    exists_eq_right, Option.ite_none_right_eq_some, Option.some.injEq, Prod.mk.injEq,
    Std.ExtTreeMap.mem_toList_iff_getElem?_eq_some, h.current?_eq_some]
  constructor
  · rintro ⟨_, _, row, hrow, htest, rfl, rfl⟩
    exact ⟨_, ⟨row, hrow, rfl⟩, htest⟩
  · rintro ⟨_, ⟨row, hrow, rfl⟩, htest⟩
    exact ⟨row.tid, oid, row, hrow, htest, rfl, rfl⟩

theorem current_pruneHistory (store : RelationalStore) (boundary : Tid) :
    (store.prune boundary).2.database.current = store.database.current ∧
      (store.prune boundary).2.database.lastTid = store.database.lastTid := by
  rw [prune]
  split <;> exact ⟨rfl, rfl⟩

theorem current_dropHistory (store : RelationalStore) :
    store.dropAll.2.database.current = store.database.current ∧
      store.dropAll.2.database.lastTid = store.database.lastTid := by
  rw [dropAll]
  split <;> exact ⟨rfl, rfl⟩

theorem current_deleteAll {store : RelationalStore} {oids : List Oid} {oid : Oid} :
    (store.deleteAll (.ofOids oids)).2.database.current[oid]? =
      if oid ∈ oids then none else store.database.current[oid]? := by
  have hmem : oid ∈ oids ↔ (OidSet.ofOids oids).contains oid := by
    rw [Std.ExtTreeSet.contains_iff_mem, OidSet.mem_ofOids]
  rw [deleteAll, MemoryStore.getElem?_filter_key fun oid => !(OidSet.ofOids oids).contains oid]
  simp only [hmem]
  cases (OidSet.ofOids oids).contains oid <;> rfl

/-- A deletion either is carried out or has no effect. -/
theorem deleteObjects_cases {store after : RelationalStore} {oids : List Oid} {guardTid : Tid}
    {outcome : SweepOutcome}
    (h : ObjectStore.deleteObjects store oids guardTid = .ok (outcome, after)) :
    (∃ last, outcome = .stale last ∧ after = store) ∨
      (outcome, after) = store.deleteAll (.ofOids oids) := by
  simp only [ObjectStore.deleteObjects] at h
  split at h
  · split at h
    · cases h
      exact Or.inl ⟨_, rfl, rfl⟩
    · exact Or.inr (Except.ok.inj h).symm
  · exact Or.inr (Except.ok.inj h).symm

end RelationalStore

instance : LawfulStore RelationalStore where
  Valid := RelationalStore.Readable
  Holds := Tid.FitsColumn
  load_eq h oid := by rw [h.current?_eq, h.load_eq]
  loadMany_eq := by
    intro store h oids
    have hload : ObjectStore.loadMany store oids = oids.mapM store.database.currentVersion? := rfl
    rw [hload]
    apply mapM_eq_pure
    intro oid _
    rw [h.currentVersion?_eq, h.current?_eq]
    rfl
  lastTid_eq _ := rfl
  current_oid := by
    intro store h oid version hcurrent
    obtain ⟨row, _, rfl⟩ := h.current?_eq_some.mp hcurrent
    rfl
  current_passed := by
    intro store h oid version hcurrent
    obtain ⟨row, hrow, rfl⟩ := h.current?_eq_some.mp hcurrent
    exact h.passed hrow
  changesSince_eq := by
    intro store h since hsince
    have hfits : since.FitsColumn := by
      rcases hsince with rfl | hpassed
      · rw [Tid.FitsColumn]
        decide
      · exact h.last_fits hpassed
    refine ⟨_, rfl, ?_⟩
    intro oid
    rw [h.mem_currentWhere]
    apply exists_congr
    intro version
    apply and_congr_right
    intro hcurrent
    obtain ⟨row, hrow, rfl⟩ := h.current?_eq_some.mp hcurrent
    rw [decide_eq_true_eq]
    exact Tid.column_lt_iff hfits (h.last_fits (h.passed hrow))
  commit_eq_ok := by
    intro store after h now note writes tid htid hcommit
    exact h.commits htid hcommit
  deleteObjects_eq_deleted := by
    intro store after h oids guardTid objects history blobs hdelete
    rcases RelationalStore.deleteObjects_cases hdelete with ⟨_, hstale, _⟩ | hdeleted
    · cases hstale
    · obtain rfl : after = (store.deleteAll (.ofOids oids)).2 := congrArg Prod.snd hdeleted
      apply h.loses oids
      · rfl
      · intro oid
        exact RelationalStore.current_deleteAll
  deleteObjects_eq_stale := by
    intro store after h oids guardTid last hdelete
    rcases RelationalStore.deleteObjects_cases hdelete with ⟨_, _, rfl⟩ | hdeleted
    · exact ⟨h, .refl after⟩
    · cases congrArg Prod.fst hdeleted
  pruneHistory_eq_ok := by
    intro store after h boundary counts hprune
    obtain ⟨hcurrent, hlast⟩ := RelationalStore.current_pruneHistory store boundary
    obtain rfl : (store.prune boundary).2 = after := congrArg Prod.snd (Except.ok.inj hprune)
    apply h.loses [] hlast
    intro oid
    rw [hcurrent, if_neg List.not_mem_nil]
  dropHistory_eq_ok := by
    intro store after h counts hdrop
    obtain ⟨hcurrent, hlast⟩ := RelationalStore.current_dropHistory store
    obtain rfl : store.dropAll.2 = after := congrArg Prod.snd (Except.ok.inj hdrop)
    apply h.loses [] hlast
    intro oid
    rw [hcurrent, if_neg List.not_mem_nil]
  newOid_eq_ok := by
    intro store after h oid hnew
    cases hnew
    exact h.loses [] rfl fun _ => rfl

end ObjectVault
