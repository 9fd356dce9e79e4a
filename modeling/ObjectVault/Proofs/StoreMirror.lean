/-
A database that mirrors a memory store: table by table it holds the rows of
the store's versions, blobs and log.  Whatever reads the one then answers as
the other does, as long as the columns of all tids are in the order of the
tids.
-/
import ObjectVault.Proofs.StampedStore
import ObjectVault.Store.Relational
import Mathlib.Data.List.Pairwise

namespace ObjectVault

section Tables

variable {κ α β : Type} {order : κ → κ → Ordering} [Std.TransCmp order] [Std.LawfulEqCmp order]
  {table : Std.ExtTreeMap κ α order}

theorem map_insert (change : α → β) (key : κ) (row : α) :
    ((table.insert key row).map fun _ row => change row) =
      (table.map fun _ row => change row).insert key (change row) := by
  refine Std.ExtTreeMap.ext_getElem? fun other => ?_
  simp only [Std.ExtTreeMap.getElem?_map, Std.ExtTreeMap.getElem?_insert]
  split <;> rfl

theorem map_filter_key (change : α → β) (keep : κ → Bool) :
    ((table.filter fun key _ => keep key).map fun _ row => change row) =
      (table.map fun _ row => change row).filter fun key _ => keep key := by
  refine Std.ExtTreeMap.ext_getElem? fun key => ?_
  simp only [Std.ExtTreeMap.getElem?_map, MemoryStore.getElem?_filter_key]
  split <;> rfl

/-- Filters that agree on the keys of a table leave the same rows. -/
theorem filter_key_congr {keep also : κ → Bool}
    (h : ∀ key row, table[key]? = some row → keep key = also key) :
    (table.filter fun key _ => keep key) = table.filter fun key _ => also key := by
  refine Std.ExtTreeMap.ext_getElem? fun key => ?_
  simp only [MemoryStore.getElem?_filter_key]
  cases hrow : table[key]? with
  | none => simp
  | some row => rw [h key row hrow]

theorem map_empty (change : κ → α → β) : (∅ : Std.ExtTreeMap κ α order).map change = ∅ := by
  refine Std.ExtTreeMap.ext_getElem? fun key => ?_
  simp

theorem filter_empty (keep : κ → α → Bool) : (∅ : Std.ExtTreeMap κ α order).filter keep = ∅ := by
  refine Std.ExtTreeMap.ext_getElem? fun key => ?_
  simp

end Tables

/-- The row of an archived version. -/
def Version.row (version : Version) : VersionRow :=
  ⟨version.prev, version.state, version.size, Column.refs version.refs⟩

/-- The row of a current version. -/
def Version.currentRow (version : Version) : CurrentRow :=
  { version.row with tid := version.tid }

/-- The row of a version in the listing of its object. -/
def Version.listing (version : Version) : Tid × VersionRow := (version.tid, version.row)

/-- A row is read as the version it was made from. -/
theorem Version.version_row (version : Version) :
    version.row.version version.oid version.tid = .ok version := by
  rw [VersionRow.version, Version.row, Column.readRefs?_refs]

/-- A query is led along the references of the versions that the rows hold. -/
theorem RelationalStore.walk?_of_rows {store : RelationalStore} {memory : MemoryStore}
    (hrows : store.database.current = memory.current.map fun _ version => version.currentRow)
    (oid : Oid) : store.walk? oid = some (memory.targets oid) := by
  rw [RelationalStore.walk?, hrows, Std.ExtTreeMap.getElem?_map, MemoryStore.targets]
  cases memory.current[oid]? with
  | none => rfl
  | some version => exact Column.walk?_refs version.refs

theorem RelationalStore.reachable_of_rows {store : RelationalStore} {memory : MemoryStore}
    (hrows : store.database.current = memory.current.map fun _ version => version.currentRow)
    (roots : List Oid) : store.reachable roots = .ok (memory.reachable roots) := by
  have htargets : (fun oid => (store.walk? oid).getD []) = memory.targets := by
    funext oid
    rw [walk?_of_rows hrows, Option.getD_some]
  have hwhole (oids : List Oid) : (oids.all fun oid => (store.walk? oid).isSome) = true := by
    simp [walk?_of_rows hrows]
  simp only [RelationalStore.reachable, htargets, hwhole, ↓reduceIte, MemoryStore.reachable, hrows,
    Std.ExtTreeMap.size_map]

def LogEntry.row (entry : LogEntry) : LogRow := ⟨Rfc3339.offsetText entry.time, entry.note⟩

/-- Table by table, the database holds what the memory store holds.  The oid
counter is left out. -/
structure Database.Mirrors (database : Database) (memory : MemoryStore) : Prop where
  current : database.current = memory.current.map fun _ version => version.currentRow
  history : database.history = memory.history.map fun _ version => version.row
  blobs : database.blobs = memory.blobs
  log : database.log = memory.log.map fun _ entry => entry.row
  lastTid : database.lastTid = memory.lastTid.map Tid.column
  packedBefore : database.packedBefore = memory.packedBefore.map Tid.column

structure RelationalStore.Mirrors (store : RelationalStore) (memory : MemoryStore) : Prop where
  keepsHistory : store.keepsHistory = memory.keepsHistory
  database : store.database.Mirrors memory

namespace Database.Mirrors

variable {database : Database} {memory : MemoryStore} (h : database.Mirrors memory)

include h

theorem getElem?_current (oid : Oid) :
    database.current[oid]? = memory.current[oid]?.map Version.currentRow := by
  rw [h.current, Std.ExtTreeMap.getElem?_map]

theorem getElem?_history (key : VersionKey) :
    database.history[key]? = memory.history[key]?.map Version.row := by
  rw [h.history, Std.ExtTreeMap.getElem?_map]

theorem getElem?_log (tid : Tid) : database.log[tid]? = memory.log[tid]?.map LogEntry.row := by
  rw [h.log, Std.ExtTreeMap.getElem?_map]

theorem currentTid?_eq (oid : Oid) : database.currentTid? oid = memory.currentTid? oid := by
  rw [Database.currentTid?, h.getElem?_current, MemoryStore.currentTid?, Option.map_map]
  rfl

theorem last?_eq (hfits : memory.InColumns) : database.last? = memory.lastTid := by
  rw [Database.last?, h.lastTid]
  cases hlast : memory.lastTid with
  | none => rfl
  | some last =>
      have hlastFits := hfits.passed_fits ⟨last, hlast, le_refl last⟩
      rw [Option.map_some, Option.map_some, Tid.ofColumn_column hlastFits]

theorem packedBefore_eq (hfits : memory.InColumns) :
    database.packedBefore.map Tid.ofColumn = memory.packedBefore := by
  rw [h.packedBefore]
  cases hpacked : memory.packedBefore with
  | none => rfl
  | some boundary =>
      rw [Option.map_some, Option.map_some, Tid.ofColumn_column (hfits.packed_fits hpacked)]

theorem currentVersion?_eq (hsound : memory.Sound) (oid : Oid) :
    database.currentVersion? oid = .ok memory.current[oid]? := by
  rw [Database.currentVersion?, h.getElem?_current]
  cases hcurrent : memory.current[oid]? with
  | none => rfl
  | some version =>
      have hrow := version.version_row
      rw [hsound.current_oid hcurrent] at hrow
      simp only [Option.map_some, Version.currentRow, hrow]
      rfl

theorem archived_eq (hsound : memory.Sound) (oid : Oid) :
    database.archived oid = (memory.archived oid).map Version.listing := by
  rw [Database.archived, h.history, Std.ExtTreeMap.toList_map, List.filterMap_map,
    MemoryStore.archived, List.map_filterMap]
  refine List.filterMap_congr ?_
  rintro ⟨⟨source, tid⟩, version⟩ hmem
  rw [Std.ExtTreeMap.mem_toList_iff_getElem?_eq_some] at hmem
  have htid := (hsound.history_key hmem).2
  by_cases hsource : source = oid <;> simp [hsource, htid, Version.listing]

theorem currentWhere_eq (hfits : memory.InColumns) {store : RelationalStore}
    (hdatabase : store.database = database) (test : Int → Bool) (also : Tid → Bool)
    (htest : ∀ tid : Tid, tid.FitsColumn → test tid.column = also tid) :
    store.currentWhere test = memory.currentWhere also := by
  rw [RelationalStore.currentWhere, hdatabase, h.current, Std.ExtTreeMap.toList_map,
    List.filterMap_map, MemoryStore.currentWhere]
  refine List.filterMap_congr ?_
  rintro ⟨oid, version⟩ hmem
  rw [Std.ExtTreeMap.mem_toList_iff_getElem?_eq_some] at hmem
  simp only [Function.comp_apply, Version.currentRow, htest _ (hfits.current_fits hmem)]

end Database.Mirrors

namespace RelationalStore.Mirrors

variable {store : RelationalStore} {memory : MemoryStore} (h : store.Mirrors memory)

include h

theorem archived_eq (hsound : memory.Sound) (oid : Oid) :
    store.archived oid = (memory.archived oid).map Version.listing := by
  rw [RelationalStore.archived, h.keepsHistory, h.database.archived_eq hsound]
  split
  · rfl
  · rename_i hkeeps
    rw [hsound.archived_eq_nil hkeeps]
    rfl

theorem archivedVersions_eq (hsound : memory.Sound) (oid : Oid) :
    ((store.archived oid).mapM fun (tid, row) => row.version oid tid) =
      .ok (memory.archived oid) := by
  rw [h.archived_eq hsound, List.mapM_map]
  refine (mapM_eq_pure (m := Except StoreError) id fun version hmem => ?_).trans
    (by rw [List.map_id]; rfl)
  have hoid := (hsound.history_key ((MemoryStore.mem_archived hsound.keyed).mp hmem)).1
  have hrow := version.version_row
  rw [hoid] at hrow
  exact hrow

theorem storedVersions_eq (hsound : memory.Sound) (oid : Oid) :
    store.storedVersions oid = .ok (memory.storedVersions oid) := by
  rw [RelationalStore.storedVersions, h.archivedVersions_eq hsound, MemoryStore.storedVersions,
    h.database.currentVersion?_eq hsound]
  cases memory.current[oid]? <;> rfl

theorem load_eq (hsound : memory.Sound) (oid : Oid) :
    ObjectStore.load store oid = ObjectStore.load memory oid :=
  (h.database.currentVersion?_eq hsound oid).trans (hsound.online_eq _).symm

theorem loadMany_eq (hsound : memory.Sound) (oids : List Oid) :
    ObjectStore.loadMany store oids = ObjectStore.loadMany memory oids :=
  (mapM_eq_pure (m := Except StoreError) (memory.current[·]?) fun oid _ =>
    h.database.currentVersion?_eq hsound oid).trans (hsound.online_eq _).symm

theorem currentTids_eq (hsound : memory.Sound) (oids : List Oid) :
    ObjectStore.currentTids store oids = ObjectStore.currentTids memory oids := by
  refine Eq.trans ?_ (hsound.online_eq _).symm
  refine congrArg Except.ok (List.foldl_ext _ _ _ fun tids oid _ => ?_)
  have hsame := h.database.currentTid?_eq oid
  cases htid : memory.currentTid? oid <;> simp only [hsame, htid]

theorem loadBefore_eq (hsound : memory.Sound) (oid : Oid) (before : Tid) :
    ObjectStore.loadBefore store oid before = ObjectStore.loadBefore memory oid before := by
  refine Eq.trans ?_ (hsound.online_eq _).symm
  simp only [ObjectStore.loadBefore, h.storedVersions_eq hsound]
  rfl

theorem archivedVersion?_eq (hsound : memory.Sound) (oid : Oid) (tid : Tid) :
    (if !store.keepsHistory then .ok none else
      match store.database.history[(oid, tid)]? with
      | some row => (row.version oid tid).map some
      | none => .ok none) = (.ok memory.history[(oid, tid)]? : Except StoreError _) := by
  rw [h.keepsHistory, h.database.getElem?_history]
  cases hhistory : memory.history[(oid, tid)]? with
  | none => simp
  | some version =>
      obtain ⟨rfl, rfl⟩ := hsound.history_key hhistory
      simp [hsound.history_kept hhistory, version.version_row, Except.map]

theorem loadVersion_eq (hsound : memory.Sound) (oid : Oid) (tid : Tid) :
    ObjectStore.loadVersion store oid tid = ObjectStore.loadVersion memory oid tid := by
  refine Eq.trans ?_ (hsound.online_eq _).symm
  have harchived := h.archivedVersion?_eq hsound oid tid
  simp only [ObjectStore.loadVersion, h.database.currentVersion?_eq hsound]
  cases hcurrent : memory.current[oid]? with
  | none => exact harchived
  | some current =>
      by_cases htid : current.tid = tid
      · have hfound : (some current).filter (·.tid = tid) = some current := by
          simp [Option.filter, htid]
        simp only [bind, Except.bind, hfound, htid, ↓reduceIte]
        rfl
      · have hfound : (some current).filter (·.tid = tid) = none := by
          simp [Option.filter, htid]
        simp only [bind, Except.bind, hfound, htid, ↓reduceIte]
        exact harchived

theorem loadBlob_eq (hsound : memory.Sound) (oid : Oid) (tid : Tid) :
    ObjectStore.loadBlob store oid tid = ObjectStore.loadBlob memory oid tid := by
  refine Eq.trans ?_ (hsound.online_eq _).symm
  simp only [ObjectStore.loadBlob, h.database.blobs]

theorem currentOids_eq (tid : Tid) :
    (store.database.current.toList.filterMap fun (oid, row) =>
      if row.tid = tid then some oid else none) =
        (memory.currentWhere (· = tid)).map Prod.fst := by
  rw [h.database.current, Std.ExtTreeMap.toList_map, List.filterMap_map,
    MemoryStore.currentWhere, List.map_filterMap]
  refine List.filterMap_congr ?_
  rintro ⟨oid, version⟩ _
  by_cases htid : version.tid = tid <;> simp [Version.currentRow, htid]

theorem oidsInTransaction_eq (hsound : memory.Sound) (tid : Tid) :
    ObjectStore.oidsInTransaction store tid = ObjectStore.oidsInTransaction memory tid := by
  refine Eq.trans ?_ (hsound.online_eq _).symm
  have harchived : (store.database.history.keys.filterMap fun key =>
      if store.keepsHistory ∧ key.2 = tid then some key.1 else none) =
        memory.history.keys.filterMap fun key => if key.2 = tid then some key.1 else none := by
    rw [h.database.history, Std.ExtTreeMap.keys_map, h.keepsHistory]
    refine List.filterMap_congr fun key hmem => ?_
    rw [Std.ExtTreeMap.mem_keys, Std.ExtTreeMap.mem_iff_isSome_getElem?,
      Option.isSome_iff_exists] at hmem
    obtain ⟨version, hhistory⟩ := hmem
    simp [hsound.history_kept hhistory]
  simp only [ObjectStore.oidsInTransaction, h.currentOids_eq, harchived]

theorem reachableFrom_eq (hsound : memory.Sound) (roots : List Oid) :
    ObjectStore.reachableFrom store roots = ObjectStore.reachableFrom memory roots :=
  (RelationalStore.reachable_of_rows h.database.current roots).trans (hsound.online_eq _).symm

variable (hfits : memory.InColumns)

include hfits

theorem lastTid_eq : ObjectStore.lastTid store = ObjectStore.lastTid memory :=
  (congrArg Except.ok (h.database.last?_eq hfits)).trans (hfits.online_eq _).symm

theorem packedBefore_eq : ObjectStore.packedBefore store = ObjectStore.packedBefore memory :=
  (congrArg Except.ok (h.database.packedBefore_eq hfits)).trans (hfits.online_eq _).symm

theorem changesSince_eq {since : Tid} (hsince : since.FitsColumn) :
    ObjectStore.changesSince store since = ObjectStore.changesSince memory since := by
  refine Eq.trans ?_ (hfits.online_eq _).symm
  have hwhere := h.database.currentWhere_eq hfits rfl (since.column < ·) (since < ·)
    fun tid htid => decide_eq_decide.mpr (Tid.column_lt_iff hsince htid)
  simp only [ObjectStore.changesSince, h.database.last?_eq hfits, hwhere]

theorem committedUpto_eq {snapshot : Tid} (hsnapshot : snapshot.FitsColumn) :
    ObjectStore.committedUpto store snapshot = ObjectStore.committedUpto memory snapshot := by
  refine Eq.trans ?_ (hfits.online_eq _).symm
  have hwhere := h.database.currentWhere_eq hfits rfl (· ≤ snapshot.column) (· ≤ snapshot)
    fun tid htid => decide_eq_decide.mpr (Tid.column_le_iff htid hsnapshot)
  simp only [ObjectStore.committedUpto, hwhere]

end RelationalStore.Mirrors

namespace RelationalStore

/-- An order by three keys, where the first descends. -/
theorem transCmp_descending {ρ α β γ : Type} [Ord α] [Std.TransOrd α] [Ord β] [Std.TransOrd β]
    [Ord γ] [Std.TransOrd γ] (first : ρ → α) (second : ρ → β) (third : ρ → γ) :
    Std.TransCmp fun a b => (compare (first b) (first a)).then <|
      (compare (second a) (second b)).then <| compare (third a) (third b) :=
  inferInstanceAs (Std.TransCmp (compareLex (fun a b => compareOn first b a)
    (compareLex (compareOn second) (compareOn third))))

theorem listed_transCmp : Std.TransCmp listed :=
  transCmp_descending (fun row : Tid × VersionRow => row.1.column)
    (fun row => row.2.prev.map Tid.column) (fun row => row.2.size)

theorem listed_trans (a b c : Tid × VersionRow) (hab : (listed a b).isLE)
    (hbc : (listed b c).isLE) : (listed a c).isLE :=
  listed_transCmp.isLE_trans hab hbc

theorem listed_total (a b : Tid × VersionRow) :
    ((listed a b).isLE || (listed b a).isLE) = true := by
  rw [listed_transCmp.eq_swap (a := b)]
  cases listed a b <;> rfl

/-- Newer versions are listed first. -/
theorem listed_of_lt {newer older : Tid × VersionRow} (hlt : older.1.column < newer.1.column) :
    listed newer older = .lt := by
  rw [listed, Int.compare_eq_lt.mpr hlt]
  rfl

/-- Rows whose tids strictly descend are in the order of a listing, and no
other order of them is. -/
theorem mergeSort_listed {rows sorted : List (Tid × VersionRow)} (hperm : rows.Perm sorted)
    (hsorted : sorted.Pairwise fun newer older => older.1.column < newer.1.column) :
    (rows.mergeSort fun a b => (listed a b).isLE) = sorted := by
  have htrans := listed_transCmp
  have hresult : (rows.mergeSort fun a b => (listed a b).isLE).Perm sorted :=
    (List.mergeSort_perm rows _).trans hperm
  refine List.Perm.eq_of_pairwise ?_ (List.pairwise_mergeSort listed_trans listed_total rows) ?_
    hresult
  · intro a b ha hb hle hge
    have happart : sorted.Pairwise fun a b => a.1.column ≠ b.1.column :=
      hsorted.imp fun hlt => (Int.ne_of_lt hlt).symm
    have hsymm : Std.Symm fun a b : Tid × VersionRow => a.1.column ≠ b.1.column :=
      ⟨fun _ _ => Ne.symm⟩
    by_contra hne
    rcases Int.lt_or_gt_of_ne (happart.forall (hresult.mem_iff.mp ha) hb hne) with hlt | hlt
    · rw [htrans.eq_swap, listed_of_lt hlt] at hle
      cases hle
    · rw [htrans.eq_swap, listed_of_lt hlt] at hge
      cases hge
  · exact hsorted.imp fun hlt => by rw [listed_of_lt hlt]; rfl

end RelationalStore

namespace RelationalStore.Mirrors

variable {store : RelationalStore} {memory : MemoryStore} (h : store.Mirrors memory)

include h

/-- The rows of an object are its stored versions in some order. -/
theorem rows_perm (hsound : memory.Sound) (oid : Oid) :
    (match store.database.current[oid]? with
      | none => store.archived oid
      | some row =>
          (row.tid, row.toVersionRow) ::
            (store.archived oid).filter (!sameEntry (row.tid, row.toVersionRow) ·)).Perm
        ((memory.storedVersions oid).reverse.map Version.listing) := by
  have hstored : memory.storedVersions oid = memory.archived oid ++ memory.current[oid]?.toList :=
    MemoryStore.storedVersions_eq hsound
  rw [hstored, h.archived_eq hsound, h.database.getElem?_current]
  cases hcurrent : memory.current[oid]? with
  | none => simp
  | some current =>
      have hothers : ((memory.archived oid).map Version.listing).filter
          (!sameEntry (current.tid, current.row) ·) = (memory.archived oid).map Version.listing := by
        refine List.filter_eq_self.mpr fun row hmem => ?_
        obtain ⟨version, hversion, rfl⟩ := List.mem_map.mp hmem
        obtain ⟨top, htop, hlt⟩ :=
          hsound.history_lt ((MemoryStore.mem_archived hsound.keyed).mp hversion)
        cases hcurrent.symm.trans htop
        simp [sameEntry, Version.listing, ne_of_gt hlt]
      refine (List.Perm.of_eq (congrArg (List.cons current.listing) hothers)).trans ?_
      simp

/-- The rows of a listing are the stored versions, newest first. -/
theorem rowsBelow_eq (hfits : memory.InColumns) (oid : Oid) (upper : Int) :
    store.rowsBelow oid upper =
      ((memory.storedVersions oid).reverse.filter (·.tid.column < upper)).map Version.listing := by
  have hsound := hfits.toSound
  refine mergeSort_listed ?_ ?_
  · have hfilter := (h.rows_perm hsound oid).filter fun row => row.1.column < upper
    rw [List.filter_map] at hfilter
    exact hfilter
  · have hascending : Ascending (memory.storedVersions oid) :=
      MemoryStore.storedVersions_ascending hsound.keyed
    have hdescending := (List.pairwise_reverse.mpr hascending).filter (·.tid.column < upper)
    refine List.pairwise_map.mpr (hdescending.imp_of_mem ?_)
    intro newer older hnewer holder hlt
    have hfit : ∀ version ∈ (memory.storedVersions oid).reverse.filter (·.tid.column < upper),
        version.tid.FitsColumn := fun version hmem =>
      hfits.passed_fits (hsound.stored_passed (List.mem_reverse.mp (List.mem_of_mem_filter hmem)))
    exact (Tid.column_lt_iff (hfit older holder) (hfit newer hnewer)).mpr hlt

theorem timeOf_eq (hdated : memory.Dated) {tid : Tid} (hpassed : memory.HasPassed tid) :
    store.timeOf tid = .ok (match memory.log[tid]? with
      | some entry => entry.time
      | none => tid.instant?.getD default) := by
  have htid := hdated.of_hasPassed hpassed
  rw [RelationalStore.timeOf, h.database.getElem?_log]
  cases hlog : memory.log[tid]? with
  | none => simp only [Option.map_none, htid.instant?_eq, Option.getD_some]
  | some entry =>
      have htext : Rfc3339.readExact? entry.row.time = some entry.time := by
        rw [LogEntry.row, hdated.log_time hlog]
        exact htid.readExact?_offsetText
      simp only [Option.map_some, htext]

theorem summary_eq (hdated : memory.Dated) {version : Version}
    (hpassed : memory.HasPassed version.tid) :
    store.summary version.tid version.row = .ok (memory.summary version) := by
  rw [RelationalStore.summary, h.timeOf_eq hdated hpassed, MemoryStore.summary,
    h.database.getElem?_log]
  cases memory.log[version.tid]? <;> rfl

theorem versions_eq (hdated : memory.Dated) (oid : Oid) {before : Option Tid}
    (hbefore : ∀ tid, before = some tid → tid.FitsColumn) (limit : Nat) :
    ObjectStore.versions store oid before limit = ObjectStore.versions memory oid before limit := by
  have hsound := hdated.toSound
  refine Eq.trans ?_ (hsound.online_eq _).symm
  have hstored : ∀ version ∈ memory.storedVersions oid, memory.HasPassed version.tid :=
    fun version hmem => hsound.stored_passed hmem
  have hbelow : (memory.storedVersions oid).reverse.filter
      (·.tid.column < (before.map Tid.column).getD Column.largest) =
        (memory.storedVersions oid).reverse.filter fun version => before.all (version.tid < ·) := by
    refine List.filter_congr fun version hmem => ?_
    have hfits := hdated.passed_fits (hstored version (List.mem_reverse.mp hmem))
    cases before with
    | some tid =>
        rw [Option.all_some, Option.map_some, Option.getD_some, decide_eq_decide]
        exact Tid.column_lt_iff hfits (hbefore tid rfl)
    | none =>
        have hdate := hdated.of_hasPassed (hstored version (List.mem_reverse.mp hmem))
        rw [Option.all_none, decide_eq_true_eq, Option.map_none, Option.getD_none,
          Tid.column_eq hfits]
        simp only [Tid.IsDated, Column.largest] at *
        omega
  simp only [ObjectStore.versions, h.rowsBelow_eq hdated.toInColumns, hbelow, ← List.map_take,
    List.mapM_map]
  refine mapM_eq_pure (m := Except StoreError) memory.summary fun version hmem => ?_
  exact h.summary_eq hdated (hstored version
    (List.mem_reverse.mp (List.mem_of_mem_filter (List.mem_of_mem_take hmem))))

end RelationalStore.Mirrors

end ObjectVault
