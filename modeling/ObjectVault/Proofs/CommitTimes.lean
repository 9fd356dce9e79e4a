/-
Commit times read back.  A database logs the time of each commit as a text and
reads the text back for each listing.  For commits before the year 10000 the
listing names the times that the tids encode.  From then on the text has a sign
that the reader does not take, and every listing that comes to such a commit
fails, while the store in memory goes on.
-/
import ObjectVault.History
import ObjectVault.Proofs.LawfulStore
import ObjectVault.Proofs.StoreAgreement
import ObjectVault.Proofs.TidOrder

namespace ObjectVault

open ObjectStore (last?)

namespace Tid

variable {tid : Tid} {moment : Instant}

theorem instant?_eq_some (h : tid.instant? = some moment) :
    moment = Instant.ofMicros tid.micros ∧ moment.hasDate := by
  rw [instant?] at h
  split at h
  · rename_i hdate
    cases h
    exact ⟨rfl, hdate⟩
  · cases h

/-- Dates end before the columns do. -/
theorem lt_largest_of_instant? (h : tid.instant? = some moment) :
    (tid.micros : Int) < Column.largest := by
  obtain ⟨rfl, hdate⟩ := instant?_eq_some h
  simp only [Instant.hasDate, Bool.and_eq_true, decide_eq_true_eq] at hdate
  simp only [Instant.ofMicros, Instant.lastSecond, Column.largest] at *
  omega

theorem fitsColumn_of_instant? (h : tid.instant? = some moment) : tid.FitsColumn :=
  le_of_lt (lt_largest_of_instant? h)

/-- From the year 10000 on the time of a commit does not survive its text. -/
theorem readExact?_offsetText_of_not_isDated (h : tid.instant? = some moment)
    (hlate : ¬ tid.IsDated) : Rfc3339.readExact? (Rfc3339.offsetText moment) = none := by
  obtain ⟨rfl, _⟩ := instant?_eq_some h
  apply Rfc3339.readExact?_offsetText_of_late
  simp only [IsDated, Instant.ofMicros] at *
  omega

end Tid

/-- A row that the store looks at has that tid. -/
def Database.Shows (keepsHistory : Bool) (database : Database) (tid : Tid) : Prop :=
  (∃ (oid : Oid) (row : CurrentRow), database.current[oid]? = some row ∧ row.tid = tid) ∨
    keepsHistory ∧ ∃ oid, (oid, tid) ∈ database.history

/-- Where rows only go, no other tid comes. -/
theorem Database.Shows.of_rows {keepsHistory : Bool} {before after : Database} {tid : Tid}
    (hcurrent : ∀ {oid : Oid} {row}, after.current[oid]? = some row →
      before.current[oid]? = some row)
    (hhistory : ∀ {key : VersionKey}, key ∈ after.history → key ∈ before.history)
    (h : after.Shows keepsHistory tid) : before.Shows keepsHistory tid := by
  rcases h with ⟨oid, row, hrow, htid⟩ | ⟨hkeeps, oid, hkey⟩
  · exact Or.inl ⟨oid, row, hcurrent hrow, htid⟩
  · exact Or.inr ⟨hkeeps, oid, hhistory hkey⟩

namespace RelationalStore

variable {store after : RelationalStore} {tid : Tid}

theorem contains_storedTids_iff :
    store.storedTids.contains tid ↔ store.database.Shows store.keepsHistory tid := by
  rw [storedTids, Std.ExtTreeSet.contains_ofList, List.contains_iff_mem, List.mem_append,
    List.mem_map, Database.Shows]
  refine or_congr ?_ ?_
  · simp only [Prod.exists, Std.ExtTreeMap.mem_toList_iff_getElem?_eq_some]
  · cases store.keepsHistory <;> simp

/-- Every tid that the store shows was logged, with the time that it encodes. -/
structure Logged (store : RelationalStore) : Prop where
  time {tid : Tid} {row : LogRow} : store.database.log[tid]? = some row →
    ∃ moment, tid.instant? = some moment ∧ row.time = Rfc3339.offsetText moment
  passed {tid : Tid} : tid ∈ store.database.log → Passed store tid
  shown {tid : Tid} : store.database.Shows store.keepsHistory tid → tid ∈ store.database.log

theorem logged_open {keepsHistory : Bool} {settings : PoolSettings}
    (hopen : RelationalStore.open {} keepsHistory settings = .ok store) : store.Logged := by
  obtain ⟨⟨_, hdatabase⟩, _⟩ := mirrors_open hopen
  have hcurrent : store.database.current = ∅ := hdatabase.current.trans (map_empty _)
  have hhistory : store.database.history = ∅ := hdatabase.history.trans (map_empty _)
  have hlog : store.database.log = ∅ := hdatabase.log.trans (map_empty _)
  constructor
  · simp [hlog]
  · simp [hlog]
  · simp [Database.Shows, hcurrent, hhistory]

/-- Rows may go, if those that stay keep their log rows. -/
theorem Logged.removal (h : store.Logged)
    (hlast : after.database.lastTid = store.database.lastTid)
    (hlog : ∀ {tid : Tid} {row}, after.database.log[tid]? = some row →
      store.database.log[tid]? = some row)
    (hshown : ∀ {tid}, after.database.Shows after.keepsHistory tid → tid ∈ after.database.log) :
    after.Logged where
  time hrow := h.time (hlog hrow)
  passed hmem := by
    obtain ⟨row, hrow⟩ := MemoryStore.mem_table_iff.mp hmem
    obtain ⟨last, hsome, hle⟩ := h.passed (MemoryStore.mem_table_iff.mpr ⟨row, hlog hrow⟩)
    have hsame : last? after = last? store := congrArg (Option.map Tid.ofColumn) hlast
    exact ⟨last, hsame.trans hsome, hle⟩
  shown := hshown

/-- A clean-up keeps the log rows of all tids that are still shown. -/
theorem Logged.cleanUp (h : store.Logged) {pruned : RelationalStore} {count : Nat}
    (hlast : pruned.database.lastTid = store.database.lastTid)
    (hlog : pruned.database.log = store.database.log)
    (hshown : ∀ {tid}, pruned.database.Shows pruned.keepsHistory tid →
      store.database.Shows store.keepsHistory tid) : (pruned.cleanUp count).2.Logged := by
  have hrows : ∀ {tid : Tid}, (pruned.cleanUp count).2.database.log[tid]? =
      if pruned.storedTids.contains tid then store.database.log[tid]? else none := by
    intro tid
    rw [← hlog]
    exact MemoryStore.getElem?_filter_key pruned.storedTids.contains
  refine h.removal hlast ?_ ?_
  · intro tid row hrow
    rw [hrows, Option.ite_none_right_eq_some] at hrow
    exact hrow.2
  · intro tid hafter
    obtain ⟨row, hrow⟩ := MemoryStore.mem_table_iff.mp (h.shown (hshown hafter))
    have hkept : pruned.storedTids.contains tid := contains_storedTids_iff.mpr hafter
    refine MemoryStore.mem_table_iff.mpr ⟨row, ?_⟩
    rw [hrows, if_pos hkept, hrow]

theorem Logged.prune (h : store.Logged) (boundary : Tid) : (store.prune boundary).2.Logged := by
  rw [RelationalStore.prune]
  split
  · exact h.cleanUp rfl rfl (.of_rows id (MemoryStore.mem_of_mem_filter_key _))
  · exact h.cleanUp rfl rfl id

theorem Logged.drop (h : store.Logged) : store.dropAll.2.Logged := by
  rw [RelationalStore.dropAll]
  split
  · exact h.cleanUp rfl rfl (.of_rows id fun hmem => absurd hmem Std.ExtTreeMap.not_mem_empty)
  · exact h.cleanUp rfl rfl id

theorem Logged.delete (h : store.Logged) (oids : OidSet) : (store.deleteAll oids).2.Logged := by
  refine h.removal rfl id ?_
  intro tid hafter
  refine h.shown (.of_rows ?_ ?_ hafter)
  · intro oid row hrow
    rw [deleteAll, MemoryStore.getElem?_filter_key fun oid => !oids.contains oid,
      Option.ite_none_right_eq_some] at hrow
    exact hrow.2
  · intro key hmem
    rw [deleteAll] at hmem
    dsimp only at hmem
    split at hmem
    · exact MemoryStore.mem_of_mem_filter_key (fun key : VersionKey => !oids.contains key.1) hmem
    · exact hmem

/-- A write archives no row but the one that it supersedes. -/
theorem mem_archive {keepsHistory : Bool} {database : Database} {write : Write}
    {history : VersionMap VersionRow} (h : archive keepsHistory database write = .ok history)
    {key : VersionKey} (hmem : key ∈ history) :
    key ∈ database.history ∨ key.1 = write.oid ∧ database.currentTid? key.1 = some key.2 := by
  rw [archive] at h
  split at h
  · rename_i outgoing houtgoing
    split at h
    · obtain ⟨_, rfl⟩ := insertNew_eq_ok.mp h
      rcases Std.ExtTreeMap.mem_insert.mp hmem with hsame | hold
      · cases Std.LawfulEqCmp.eq_of_compare hsame
        refine Or.inr ⟨rfl, ?_⟩
        rw [Database.currentTid?, houtgoing]
        rfl
      · exact Or.inl hold
    · cases h
      exact Or.inl hmem
  · cases h
    exact Or.inl hmem

/-- A batch leaves the log alone and archives rows that were current before. -/
theorem foldlM_apply_archives {keepsHistory : Bool} {writes : List Write}
    (hdistinct : (writes.map Write.oid).Nodup) {database written : Database}
    (h : writes.foldlM (apply keepsHistory tid) database = .ok written) :
    written.log = database.log ∧ ∀ key ∈ written.history, key ∈ database.history ∨
      key.1 ∈ writes.map Write.oid ∧ database.currentTid? key.1 = some key.2 := by
  induction writes generalizing database with
  | nil =>
      cases h
      exact ⟨rfl, fun key hmem => Or.inl hmem⟩
  | cons head rest ih =>
      rw [List.map_cons, List.nodup_cons] at hdistinct
      rw [List.foldlM_cons] at h
      obtain ⟨next, happly, hrest⟩ := bind_eq_ok.mp h
      obtain ⟨history, blobs, harchive, rfl⟩ := apply_eq_ok happly
      obtain ⟨hlog, hkeys⟩ := ih hdistinct.2 hrest
      refine ⟨hlog, fun key hmem => ?_⟩
      rcases hkeys key hmem with harchived | ⟨hlater, hcurrent⟩
      · rcases mem_archive harchive harchived with hold | ⟨hoid, hcurrent⟩
        · exact Or.inl hold
        · exact Or.inr ⟨hoid ▸ List.mem_cons_self, hcurrent⟩
      · have hne : head.oid ≠ key.1 := fun hsame => hdistinct.1 (hsame ▸ hlater)
        rw [Database.currentTid?, Std.ExtTreeMap.getElem?_insert, if_neg] at hcurrent
        · exact Or.inr ⟨List.mem_cons_of_mem _ hlater, hcurrent⟩
        · exact fun hsame => hne (Std.LawfulEqCmp.eq_of_compare hsame)

section Commit

variable {now : Instant} {note : CommitNote} {writes : List Write}

/-- What a commit archives was shown before. -/
theorem shows_of_archived (hcommit : commit store now note writes = .ok (tid, after))
    {key : VersionKey} (hkeeps : after.keepsHistory) (hmem : key ∈ after.database.history) :
    store.database.Shows store.keepsHistory key.2 := by
  obtain ⟨hrepeated, _, log, written, _, hwritten, rfl⟩ := commit_steps hcommit
  have hdistinct := (distinct_of_repeated? hrepeated).1
  rcases (foldlM_apply_archives hdistinct hwritten).2 key hmem with hold | ⟨_, hcurrent⟩
  · exact Or.inr ⟨hkeeps, key.1, hold⟩
  · obtain ⟨row, hrow, htid⟩ := Option.map_eq_some_iff.mp hcurrent
    exact Or.inl ⟨key.1, row, hrow, htid⟩

/-- A commit shows no new tid but its own. -/
theorem shows_of_commit (hcommit : commit store now note writes = .ok (tid, after)) {other : Tid}
    (hshows : after.database.Shows after.keepsHistory other) :
    other = tid ∨ store.database.Shows store.keepsHistory other := by
  rcases hshows with ⟨oid, row, hrow, rfl⟩ | ⟨hkeeps, oid, hkey⟩
  · rcases row_of_commit hcommit hrow with ⟨write, _, rfl⟩ | hold
    · exact Or.inl rfl
    · exact Or.inr (Or.inl ⟨oid, row, hold, rfl⟩)
  · exact Or.inr (shows_of_archived hcommit hkeeps hkey)

theorem log_of_commit (hcommit : commit store now note writes = .ok (tid, after)) :
    after.database.log = store.database.log.insert tid
      ⟨Rfc3339.offsetText (tid.instant?.getD now), note⟩ := by
  obtain ⟨hrepeated, _, log, written, hinsert, hwritten, rfl⟩ := commit_steps hcommit
  obtain ⟨_, rfl⟩ := insertNew_eq_ok.mp hinsert
  exact (foldlM_apply_archives (distinct_of_repeated? hrepeated).1 hwritten).1

theorem Logged.commit (h : store.Logged) {moment : Instant} (hinstant : tid.instant? = some moment)
    (hcommit : commit store now note writes = .ok (tid, after)) : after.Logged := by
  have hlog := log_of_commit hcommit
  have hlast := last?_of_commit hcommit (Tid.fitsColumn_of_instant? hinstant)
  constructor
  · intro other row hrow
    rw [hlog, Std.ExtTreeMap.getElem?_insert] at hrow
    split at hrow
    · rename_i hsame
      cases Std.LawfulEqCmp.eq_of_compare hsame
      cases hrow
      exact ⟨moment, hinstant, by rw [hinstant, Option.getD_some]⟩
    · exact h.time hrow
  · intro other hmem
    rw [hlog, Std.ExtTreeMap.mem_insert] at hmem
    rcases hmem with hsame | hold
    · exact ⟨tid, hlast, le_of_eq (Std.LawfulEqCmp.eq_of_compare hsame).symm⟩
    · exact ⟨tid, hlast, le_of_lt (lt_of_commit hcommit (h.passed hold))⟩
  · intro other hshows
    rw [hlog, Std.ExtTreeMap.mem_insert]
    rcases shows_of_commit hcommit hshows with rfl | hold
    · exact Or.inl (Std.ReflCmp.compare_self)
    · exact Or.inr (h.shown hold)

end Commit

theorem Logged.perform (h : store.Logged) {action : StoreAction}
    (hdates : ∀ tid, assigned? store action = some tid → ∃ moment, tid.instant? = some moment) :
    (perform store action).Logged := by
  cases action with
  | newOid => exact h.removal rfl id h.shown
  | commit now note writes =>
      cases hcommit : ObjectStore.commit store now note writes with
      | error => simpa only [ObjectVault.perform, hcommit, perform.left] using h
      | ok answer =>
          obtain ⟨tid, after⟩ := answer
          obtain ⟨moment, hinstant⟩ := hdates tid (by rw [assigned?, hcommit])
          simpa only [ObjectVault.perform, hcommit, perform.left] using h.commit hinstant hcommit
  | deleteObjects oids guardTid =>
      cases hdelete : ObjectStore.deleteObjects store oids guardTid with
      | error => simpa only [ObjectVault.perform, hdelete, perform.left] using h
      | ok answer =>
          obtain ⟨outcome, after⟩ := answer
          simp only [ObjectVault.perform, hdelete, perform.left]
          rcases deleteObjects_cases hdelete with ⟨_, _, rfl⟩ | hdeleted
          · exact h
          · obtain rfl : after = (store.deleteAll (.ofOids oids)).2 := congrArg Prod.snd hdeleted
            exact h.delete (.ofOids oids)
  | pruneHistory boundary => exact h.prune boundary
  | dropHistory => exact h.drop

end RelationalStore

theorem Committed.subset_enterAll [ObjectStore σ] (record : List Committed) (store : σ)
    (actions : List StoreAction) : record ⊆ enterAll record store actions := by
  induction actions generalizing record store with
  | nil => exact List.Subset.refl record
  | cons action rest ih =>
      refine List.Subset.trans ?_ (ih (enter record store action) (perform store action))
      cases action with
      | commit now note writes =>
          rw [enter]
          split
          · exact List.subset_append_left _ _
          · exact List.Subset.refl record
      | newOid | deleteObjects | pruneHistory | dropHistory => exact List.Subset.refl record

theorem RelationalStore.Logged.performAll {store : RelationalStore} (h : store.Logged)
    {record : List Committed} {actions : List StoreAction}
    (hdates : ∀ commit ∈ Committed.enterAll record store actions,
      ∃ moment, commit.tid.instant? = some moment) : (performAll store actions).Logged := by
  induction actions generalizing store record with
  | nil => exact h
  | cons action rest ih =>
      refine ih (h.perform ?_) hdates
      intro tid hassigned
      have hmem : tid ∈ (Committed.enter record store action).map Committed.tid := by
        simp [Committed.tids_enter, hassigned]
      obtain ⟨commit, hcommit, rfl⟩ := List.mem_map.mp hmem
      exact hdates commit (Committed.subset_enterAll _ _ rest hcommit)

namespace RelationalStore

variable {store after : RelationalStore} {tid : Tid}

/-- The time of a logged commit is that of its tid, if its text can be read. -/
theorem Logged.timeOf_eq (h : store.Logged) (hlogged : tid ∈ store.database.log) :
    ∃ moment, tid.instant? = some moment ∧ (tid.IsDated → store.timeOf tid = .ok moment) ∧
      (¬ tid.IsDated →
        store.timeOf tid = .error (.serialization (.timestamp (Rfc3339.offsetText moment)))) := by
  obtain ⟨row, hrow⟩ := MemoryStore.mem_table_iff.mp hlogged
  obtain ⟨moment, hinstant, htext⟩ := h.time hrow
  refine ⟨moment, hinstant, ?_, ?_⟩
  · intro hdated
    obtain ⟨rfl, _⟩ := Tid.instant?_eq_some hinstant
    simp only [timeOf, hrow, htext, hdated.readExact?_offsetText]
  · intro hlate
    simp only [timeOf, hrow, htext, Tid.readExact?_offsetText_of_not_isDated hinstant hlate]

/-- The rows of a listing. -/
def listedRows (store : RelationalStore) (oid : Oid) (before : Option Tid) (limit : Nat) :
    List (Tid × VersionRow) :=
  (store.rowsBelow oid ((before.map Tid.column).getD Column.largest)).take limit

theorem mem_history_of_archived {oid : Oid} {entry : Tid × VersionRow}
    (hmem : entry ∈ store.archived oid) :
    store.keepsHistory ∧ (oid, entry.1) ∈ store.database.history := by
  rw [archived] at hmem
  split at hmem
  · rename_i hkeeps
    refine ⟨hkeeps, ?_⟩
    obtain ⟨⟨key, row⟩, hrow, hentry⟩ := List.mem_filterMap.mp hmem
    rw [Option.ite_none_right_eq_some, Option.some.injEq] at hentry
    obtain ⟨rfl, rfl⟩ := hentry
    rw [Std.ExtTreeMap.mem_toList_iff_getElem?_eq_some] at hrow
    exact MemoryStore.mem_table_iff.mpr ⟨row, hrow⟩
  · cases hmem

/-- A listing has only rows that the store shows. -/
theorem shows_of_mem_listedRows {oid : Oid} {before : Option Tid} {limit : Nat}
    {entry : Tid × VersionRow} (hmem : entry ∈ store.listedRows oid before limit) :
    store.database.Shows store.keepsHistory entry.1 := by
  have hrows := List.mem_of_mem_take hmem
  rw [rowsBelow, List.mem_mergeSort, List.mem_filter] at hrows
  replace hrows := hrows.1
  have hold : entry ∈ store.archived oid → store.database.Shows store.keepsHistory entry.1 := by
    intro harchived
    obtain ⟨hkeeps, hkey⟩ := mem_history_of_archived harchived
    exact Or.inr ⟨hkeeps, oid, hkey⟩
  split at hrows
  · exact hold hrows
  · rename_i row hrow
    rcases List.mem_cons.mp hrows with rfl | hothers
    · exact Or.inl ⟨oid, row, hrow, rfl⟩
    · exact hold (List.mem_of_mem_filter hothers)

/-- The current row comes first, if it is newer than all archived ones. -/
theorem listedRows_newest {oid : Oid} {row : CurrentRow} {limit : Nat}
    (hrow : store.database.current[oid]? = some row)
    (hnewer : ∀ entry ∈ store.archived oid, entry.1.column < row.tid.column)
    (hupper : row.tid.column < Column.largest) :
    ∃ older, store.listedRows oid none (limit + 1) = (row.tid, row.toVersionRow) :: older := by
  simp only [listedRows, rowsBelow, hrow, Option.map_none, Option.getD_none]
  rw [List.filter_cons_of_pos (by simpa using hupper)]
  generalize hothers : ((store.archived oid).filter _).filter _ = others
  have hlater : ∀ entry ∈ others, listed (row.tid, row.toVersionRow) entry = .lt := by
    intro entry hmem
    rw [← hothers] at hmem
    exact listed_of_lt (hnewer entry (List.mem_of_mem_filter (List.mem_of_mem_filter hmem)))
  obtain ⟨newer, older, hsorted, hrest, hbefore⟩ :=
    List.mergeSort_cons listed_trans listed_total (row.tid, row.toVersionRow) others
  cases newer with
  | nil => exact ⟨older.take limit, by rw [hsorted]; rfl⟩
  | cons entry newer =>
      have hmem : entry ∈ others := by
        rw [← List.mem_mergeSort, hrest]
        exact List.mem_append_left _ List.mem_cons_self
      have hnot := hbefore entry List.mem_cons_self
      rw [hlater entry hmem] at hnot
      cases hnot

/-- A logged row is listed with the time of its tid, or fails the listing. -/
theorem Logged.summary_cases (h : store.Logged) (hlogged : tid ∈ store.database.log)
    (row : VersionRow) : ∃ moment, tid.instant? = some moment ∧
      (tid.IsDated → ∃ entry, store.summary tid row = .ok entry ∧
        entry.tid = tid ∧ entry.time = moment) ∧
      (¬ tid.IsDated → store.summary tid row =
        .error (.serialization (.timestamp (Rfc3339.offsetText moment)))) := by
  obtain ⟨moment, hinstant, hread, hrefused⟩ := h.timeOf_eq hlogged
  refine ⟨moment, hinstant, ?_, ?_⟩
  · intro hdated
    rw [summary, hread hdated]
    exact ⟨_, rfl, rfl, rfl⟩
  · intro hlate
    rw [summary, hrefused hlate]
    rfl

theorem Logged.time_of_summary (h : store.Logged) (hlogged : tid ∈ store.database.log)
    {row : VersionRow} {entry : VersionSummary} (hentry : store.summary tid row = .ok entry) :
    entry.tid = tid ∧ entry.tid.instant? = some entry.time := by
  obtain ⟨moment, hinstant, hread, hrefused⟩ := h.summary_cases hlogged row
  by_cases hdated : tid.IsDated
  · obtain ⟨same, hsame, rfl, rfl⟩ := hread hdated
    cases hsame.symm.trans hentry
    exact ⟨rfl, hinstant⟩
  · cases (hrefused hdated).symm.trans hentry

section Listings

variable {oid : Oid} {before : Option Tid} {limit : Nat}

theorem versions_eq_mapM :
    ObjectStore.versions store oid before limit =
      (store.listedRows oid before limit).mapM fun row => store.summary row.1 row.2 := rfl

theorem Logged.mem_log (h : store.Logged) :
    ∀ row ∈ store.listedRows oid before limit, row.1 ∈ store.database.log := by
  intro row hmem
  exact h.shown (shows_of_mem_listedRows hmem)

/-- Whatever is listed is listed with the time of its tid. -/
theorem Logged.listed (h : store.Logged) {entries : List VersionSummary}
    (hversions : ObjectStore.versions store oid before limit = .ok entries) :
    entries.map (·.tid) = (store.listedRows oid before limit).map Prod.fst ∧
      ∀ entry ∈ entries, entry.tid.instant? = some entry.time := by
  have hlogged := @Logged.mem_log _ oid before limit h
  rw [versions_eq_mapM, mapM_eq_ok_iff] at hversions
  generalize store.listedRows oid before limit = rows at *
  induction hversions with
  | nil => exact ⟨rfl, List.forall_mem_nil _⟩
  | cons hentry _ ih =>
      obtain ⟨hrow, hrest⟩ := List.forall_mem_cons.mp hlogged
      obtain ⟨htid, htime⟩ := h.time_of_summary hrow hentry
      obtain ⟨htids, htimes⟩ := ih hrest
      constructor
      · rw [List.map_cons, List.map_cons, htid, htids]
      · exact List.forall_mem_cons.mpr ⟨htime, htimes⟩

/-- A listing succeeds if no row of it is from the year 10000 or later. -/
theorem Logged.versions_of_dated (h : store.Logged)
    (hdated : ∀ row ∈ store.listedRows oid before limit, row.1.IsDated) :
    ∃ entries, ObjectStore.versions store oid before limit = .ok entries := by
  rw [versions_eq_mapM]
  cases hlisting : (store.listedRows oid before limit).mapM fun row =>
      store.summary row.1 row.2 with
  | ok entries => exact ⟨entries, rfl⟩
  | error error =>
      obtain ⟨earlier, row, later, hrows, hfails, _⟩ := mapM_eq_error_iff.mp hlisting
      have hmem : row ∈ store.listedRows oid before limit := by simp [hrows]
      obtain ⟨_, _, hread, _⟩ := h.summary_cases (h.mem_log row hmem) row.2
      obtain ⟨entry, hentry, _⟩ := hread (hdated row hmem)
      cases hentry.symm.trans hfails

/-- A listing fails at the first row that is. -/
theorem Logged.versions_of_late (h : store.Logged) {earlier later : List (Tid × VersionRow)}
    {row : Tid × VersionRow} (hrows : store.listedRows oid before limit = earlier ++ row :: later)
    (hearlier : ∀ other ∈ earlier, other.1.IsDated) (hlate : ¬ row.1.IsDated) :
    ∃ moment, row.1.instant? = some moment ∧ ObjectStore.versions store oid before limit =
      .error (.serialization (.timestamp (Rfc3339.offsetText moment))) := by
  have hlogged : ∀ other ∈ earlier ++ row :: later, other.1 ∈ store.database.log := by
    rw [← hrows]
    exact h.mem_log
  obtain ⟨moment, hinstant, _, hrefused⟩ := h.summary_cases (hlogged row (by simp)) row.2
  refine ⟨moment, hinstant, ?_⟩
  rw [versions_eq_mapM, mapM_eq_error_iff]
  refine ⟨earlier, row, later, hrows, hrefused hlate, ?_⟩
  intro other hmem
  obtain ⟨_, _, hread, _⟩ :=
    h.summary_cases (hlogged other (List.mem_append_left _ hmem)) other.2
  obtain ⟨entry, hentry, _⟩ := hread (hearlier other hmem)
  exact ⟨entry, hentry⟩

/-- A page of history comes from a listing. -/
theorem Logged.page_times (h : store.Logged) {entries : List VersionSummary}
    (hpage : History.page store oid before limit = .ok entries) :
    ∀ entry ∈ entries, entry.tid.instant? = some entry.time := by
  have hlisting := mapError_eq_ok.mp hpage
  rw [History.listing] at hlisting
  split at hlisting
  · cases hlisting
    exact List.forall_mem_nil _
  · obtain ⟨listing, hversions, hchecked⟩ := bind_eq_ok.mp hlisting
    have hpart : entries = listing.take limit := by
      split at hchecked
      · obtain ⟨packed, _, hpacked⟩ := bind_eq_ok.mp hchecked
        obtain ⟨_, _, hentries⟩ := bind_eq_ok.mp hpacked
        cases hentries
        rfl
      · cases hchecked
        rfl
    rw [hpart]
    intro entry hmem
    exact (h.listed hversions).2 entry (List.mem_of_mem_take hmem)

end Listings

/-- What listings and pages of a store say about times. -/
structure ListsTimes (store : RelationalStore) : Prop where
  /-- Whatever is listed is listed with the time that its tid encodes. -/
  listed {oid : Oid} {before : Option Tid} {limit : Nat} {entries : List VersionSummary} :
    ObjectStore.versions store oid before limit = .ok entries →
      entries.map (·.tid) = (store.listedRows oid before limit).map Prod.fst ∧
        ∀ entry ∈ entries, entry.tid.instant? = some entry.time
  paged {oid : Oid} {before : Option Tid} {limit : Nat} {entries : List VersionSummary} :
    History.page store oid before limit = .ok entries →
      ∀ entry ∈ entries, entry.tid.instant? = some entry.time
  /-- A listing succeeds if all its rows are older than the year 10000. -/
  succeeds {oid : Oid} {before : Option Tid} {limit : Nat} :
    (∀ row ∈ store.listedRows oid before limit, row.1.IsDated) →
      ∃ entries, ObjectStore.versions store oid before limit = .ok entries
  /-- It fails at the first row that is not, for the text of its time. -/
  fails {oid : Oid} {before : Option Tid} {limit : Nat} {earlier later : List (Tid × VersionRow)}
    {row : Tid × VersionRow} : store.listedRows oid before limit = earlier ++ row :: later →
      (∀ other ∈ earlier, other.1.IsDated) → ¬ row.1.IsDated →
      ∃ moment, row.1.instant? = some moment ∧ ObjectStore.versions store oid before limit =
        .error (.serialization (.timestamp (Rfc3339.offsetText moment)))

theorem Logged.listsTimes (h : store.Logged) : store.ListsTimes where
  listed := h.listed
  paged := h.page_times
  succeeds := h.versions_of_dated
  fails := h.versions_of_late

section Newest

variable {now : Instant} {note : CommitNote} {writes : List Write} {moment : Instant}
  {write : Write}

/-- What a commit has written is listed first. -/
theorem Logged.newest_of_commit (h : store.Logged) (hinstant : tid.instant? = some moment)
    (hcommit : ObjectStore.commit store now note writes = .ok (tid, after))
    (hwrite : write ∈ writes) (limit : Nat) :
    ∃ row older, after.listedRows write.oid none (limit + 1) = (tid, row) :: older := by
  have hfits := Tid.fitsColumn_of_instant? hinstant
  have hrow := (current_of_commit hcommit).1 write hwrite
  have hnewer : ∀ entry ∈ after.archived write.oid, entry.1.column < tid.column := by
    intro entry hmem
    obtain ⟨hkeeps, hkey⟩ := mem_history_of_archived hmem
    have hlt : entry.1 < tid :=
      lt_of_commit hcommit (h.passed (h.shown (shows_of_archived hcommit hkeeps hkey)))
    exact (Tid.column_lt_iff (hfits.of_le (le_of_lt hlt)) hfits).mpr hlt
  have hupper : tid.column < Column.largest := by
    rw [Tid.column_eq hfits]
    exact Tid.lt_largest_of_instant? hinstant
  obtain ⟨older, hrows⟩ := listedRows_newest hrow hnewer hupper
  exact ⟨_, older, hrows⟩

/-- Before the year 10000 a commit heads the listings of its objects. -/
theorem Logged.versions_of_commit (h : store.Logged) (hinstant : tid.instant? = some moment)
    (hcommit : ObjectStore.commit store now note writes = .ok (tid, after))
    (hwrite : write ∈ writes) (limit : Nat) (hdated : tid.IsDated) :
    ∃ entry older, ObjectStore.versions after write.oid none (limit + 1) = .ok (entry :: older) ∧
      entry.tid = tid ∧ entry.time = moment := by
  have hafter : after.Logged := h.commit hinstant hcommit
  have hlast := last?_of_commit hcommit (Tid.fitsColumn_of_instant? hinstant)
  have hall : ∀ row ∈ after.listedRows write.oid none (limit + 1), row.1.IsDated := by
    intro row hmem
    obtain ⟨last, hsome, hle⟩ := hafter.passed (hafter.mem_log row hmem)
    cases hlast.symm.trans hsome
    exact lt_of_le_of_lt hle hdated
  obtain ⟨entries, hentries⟩ := hafter.versions_of_dated hall
  obtain ⟨row, rest, hrows⟩ := h.newest_of_commit hinstant hcommit hwrite limit
  obtain ⟨htids, htimes⟩ := hafter.listed hentries
  rw [hrows, List.map_cons, List.map_eq_cons_iff] at htids
  obtain ⟨entry, older, rfl, rfl, _⟩ := htids
  have htime := htimes entry List.mem_cons_self
  exact ⟨entry, older, hentries, rfl, Option.some.inj (htime.symm.trans hinstant)⟩

/-- From then on it fails them. -/
theorem Logged.versions_of_late_commit (h : store.Logged) (hinstant : tid.instant? = some moment)
    (hcommit : ObjectStore.commit store now note writes = .ok (tid, after))
    (hwrite : write ∈ writes) (limit : Nat) (hlate : ¬ tid.IsDated) :
    ObjectStore.versions after write.oid none (limit + 1) =
      .error (.serialization (.timestamp (Rfc3339.offsetText moment))) := by
  have hafter : after.Logged := h.commit hinstant hcommit
  obtain ⟨row, rest, hrows⟩ := h.newest_of_commit hinstant hcommit hwrite limit
  have hsplit : after.listedRows write.oid none (limit + 1) = [] ++ (tid, row) :: rest := hrows
  obtain ⟨same, hsame, hfails⟩ :=
    hafter.versions_of_late hsplit (List.forall_mem_nil _) hlate
  cases hsame.symm.trans hinstant
  exact hfails

end Newest

end RelationalStore

/-- Each listed version has the time of its commit. -/
theorem Documented.time_of_version {store : MemoryStore} {record : List Committed}
    (h : Documented store record)
    (hdates : ∀ commit ∈ record, ∃ moment, commit.tid.instant? = some moment) {oid : Oid}
    {version : Version} (hmem : version ∈ store.storedVersions oid) :
    version.tid.instant? = some (store.summary version).time := by
  obtain ⟨commit, hcommit, ⟨write, _, _, rfl, _⟩, hlog⟩ :=
    h.written ((MemoryStore.stores_iff h.toSound).mpr hmem)
  obtain ⟨moment, hinstant⟩ := hdates commit hcommit
  have htid : (write.version commit.tid).tid = commit.tid := rfl
  rw [htid] at hlog
  simp only [MemoryStore.summary, htid, hlog, Committed.entry, hinstant, Option.getD_some]

theorem Documented.versions_times {store : MemoryStore} {record : List Committed}
    (h : Documented store record)
    (hdates : ∀ commit ∈ record, ∃ moment, commit.tid.instant? = some moment) (oid : Oid)
    (before : Option Tid) (limit : Nat) :
    ∃ entries, ObjectStore.versions store oid before limit = .ok entries ∧
      ∀ entry ∈ entries, entry.tid.instant? = some entry.time := by
  refine ⟨_, h.toSound.online_eq _, ?_⟩
  intro entry hmem
  obtain ⟨version, hversion, rfl⟩ := List.mem_map.mp hmem
  have hstored := List.mem_of_mem_filter (List.mem_of_mem_take hversion)
  exact h.time_of_version hdates (List.mem_reverse.mp hstored)

/-- Commit times read back, up to the end of the year 9999.  In a run where
each tid has a date, the store in memory lists every version with the time that
its tid encodes.  So does a database in whatever it lists, but a listing that
comes to a commit of the year 10000 or later fails.  What was just committed is
listed first, or fails every listing and every page of its objects. -/
theorem commit_times_read_back (keepsHistory : Bool) (actions : List StoreAction) :
    ((∀ commit ∈ Committed.ofRun keepsHistory actions,
        ∃ moment, commit.tid.instant? = some moment) →
      ∀ oid before limit, ∃ entries,
        ObjectStore.versions (performAll (MemoryStore.empty keepsHistory) actions) oid before limit =
          .ok entries ∧ ∀ entry ∈ entries, entry.tid.instant? = some entry.time) ∧
    ∀ settings opened, RelationalStore.open {} keepsHistory settings = .ok opened →
      (∀ commit ∈ Committed.enterAll [] opened actions,
        ∃ moment, commit.tid.instant? = some moment) →
      (performAll opened actions).ListsTimes ∧
      ∀ now note writes tid after moment,
        ObjectStore.commit (performAll opened actions) now note writes = .ok (tid, after) →
        tid.instant? = some moment → ∀ write ∈ writes, ∀ limit,
        (tid.IsDated → ∃ entry older,
          ObjectStore.versions after write.oid none (limit + 1) = .ok (entry :: older) ∧
            entry.tid = tid ∧ entry.time = moment) ∧
        (¬ tid.IsDated →
          ObjectStore.versions after write.oid none (limit + 1) =
            .error (.serialization (.timestamp (Rfc3339.offsetText moment))) ∧
          History.page after write.oid none (limit + 1) =
            .error (.store (.serialization (.timestamp (Rfc3339.offsetText moment))))) := by
  constructor
  · intro hdates oid before limit
    exact (Documented.ofRun keepsHistory actions).versions_times hdates oid before limit
  · intro settings opened hopen hdates
    have hlogged : (performAll opened actions).Logged :=
      (RelationalStore.logged_open hopen).performAll hdates
    refine ⟨hlogged.listsTimes, ?_⟩
    intro now note writes tid after moment hcommit hinstant write hwrite limit
    refine ⟨hlogged.versions_of_commit hinstant hcommit hwrite limit, fun hlate => ?_⟩
    have hfails := hlogged.versions_of_late_commit hinstant hcommit hwrite
    refine ⟨hfails limit hlate, ?_⟩
    simp only [History.page, History.listing, hfails (limit + 1) hlate]
    rfl

namespace CommitTimeWitness

def write (expected : Option Tid) : Write := ⟨⟨7⟩, expected, [1], ∅, none⟩

def store : RelationalStore where
  keepsHistory := true
  connections := 1
  database := { mode := some 1 }

def actions : List StoreAction := [.commit (.ofMicros 10) {} [write none]]

/-- The last microsecond of the year 9999. -/
def lastMoment : Instant := .ofMicros 253402300799999999

/-- A commit in the last microsecond of the year 9999 is listed first. -/
theorem last_dated_commit_listed :
    (∃ entries, ObjectStore.versions (performAll (MemoryStore.empty true) actions) ⟨7⟩ none 1 =
      .ok entries ∧ ∀ entry ∈ entries, entry.tid.instant? = some entry.time) ∧
    (performAll store actions).ListsTimes ∧
    ∃ after entry older,
      ObjectStore.commit (performAll store actions) lastMoment {} [write (some ⟨10⟩)] =
        .ok (⟨253402300799999999⟩, after) ∧
      ObjectStore.versions after ⟨7⟩ none 1 = .ok (entry :: older) ∧ entry.time = lastMoment := by
  have hdates : ∀ record : List Committed, record.map Committed.tid = [⟨10⟩] →
      ∀ commit ∈ record, ∃ moment, commit.tid.instant? = some moment := by
    intro record htids commit hmem
    have htid := List.mem_map_of_mem (f := Committed.tid) hmem
    rw [htids, List.mem_singleton] at htid
    exact ⟨.ofMicros 10, by rw [htid]; rfl⟩
  have hfirst : (ObjectStore.commit (performAll store actions) lastMoment {}
      [write (some ⟨10⟩)]).map Prod.fst = .ok ⟨253402300799999999⟩ := by decide +kernel
  obtain ⟨⟨_, after⟩, hcommit, rfl⟩ := map_eq_ok hfirst
  obtain ⟨hmemory, hdatabase⟩ := commit_times_read_back true actions
  obtain ⟨hlists, hlisted⟩ := hdatabase {} store rfl (hdates _ (by decide +kernel))
  obtain ⟨hdated, _⟩ := hlisted lastMoment {} [write (some ⟨10⟩)] _ after lastMoment hcommit
    (by decide +kernel) (write (some ⟨10⟩)) List.mem_cons_self 0
  obtain ⟨entry, older, hversions, _, htime⟩ := hdated (by rw [Tid.IsDated]; decide)
  refine ⟨hmemory (hdates _ (by decide +kernel)) ⟨7⟩ none 1, hlists, ?_⟩
  exact ⟨after, entry, older, hcommit, hversions, htime⟩

/-- The first moment of the year 10000. -/
def nextMoment : Instant := .ofMicros 253402300800000000

/-- Not every commit is listed: the text of the first moment of the year 10000
is refused. -/
theorem late_commit_not_listed :
    ¬ ∀ (keepsHistory : Bool) (actions : List StoreAction) settings opened,
      RelationalStore.open {} keepsHistory settings = .ok opened →
      ∀ now note writes tid after moment, 0 ≤ now.second → now.hasDate →
        ObjectStore.commit (performAll opened actions) now note writes = .ok (tid, after) →
        tid.instant? = some moment → ∀ write ∈ writes, ∀ limit,
        ∃ entries, ObjectStore.versions after write.oid none (limit + 1) = .ok entries ∧
          ∃ entry ∈ entries, entry.tid = tid ∧ entry.time = moment := by
  intro h
  have hopen : RelationalStore.open {} true {} = .ok store := rfl
  have hfirst : (ObjectStore.commit store nextMoment {} [write none]).map Prod.fst =
      .ok ⟨253402300800000000⟩ := by decide +kernel
  obtain ⟨⟨_, after⟩, hcommit, rfl⟩ := map_eq_ok hfirst
  have hinstant : Tid.instant? ⟨253402300800000000⟩ = some nextMoment := by decide +kernel
  have hlate : ¬ Tid.IsDated ⟨253402300800000000⟩ := by
    rw [Tid.IsDated]
    decide
  obtain ⟨entries, hversions, _⟩ := h true [] {} store hopen nextMoment {} [write none] _ after
    nextMoment (by decide) (by decide) hcommit hinstant (write none) List.mem_cons_self 0
  have hlogged : store.Logged := RelationalStore.logged_open hopen
  have hfails := hlogged.versions_of_late_commit hinstant hcommit List.mem_cons_self 0 hlate
  cases hfails.symm.trans hversions

end CommitTimeWitness

end ObjectVault
