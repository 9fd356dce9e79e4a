/-
Calls on a mirrored store.  A call that changes the memory store changes the
database in the same way and gives the same answer, and a refused one is
refused for the same reason.  What a batch writes is followed write by write:
each leaves the database showing the versions of the store it leaves.
-/
import ObjectVault.Proofs.StoreMirror

namespace ObjectVault

namespace Database

/-- The database with the versions and blobs of a memory store. -/
def withVersions (database : Database) (memory : MemoryStore) : Database :=
  { database with
    current := memory.current.map fun _ version => version.currentRow
    history := memory.history.map fun _ version => version.row
    blobs := memory.blobs }

/-- A log row leaves the versions and blobs of a mirrored database alone. -/
theorem Mirrors.withVersions_logged {database : Database} {memory : MemoryStore}
    (h : database.Mirrors memory) (tid : Tid) (row : LogRow) :
    withVersions { database with log := database.log.insert tid row } memory =
      { database with log := database.log.insert tid row } := by
  rw [withVersions, ← h.current, ← h.history, ← h.blobs]

end Database

/-- A write that can be applied under a tid: it expects the current version,
which is not archived yet, and the tid has no blob yet. -/
structure Write.Applies (write : Write) (tid : Tid) (memory : MemoryStore) : Prop where
  expected : memory.currentTid? write.oid = write.expected
  unarchived {outgoing : Version} :
    memory.current[write.oid]? = some outgoing → memory.history[(write.oid, outgoing.tid)]? = none
  noBlob : memory.blobs[(write.oid, tid)]? = none

namespace RelationalStore

theorem insertNew_eq_ok {κ α : Type} {order : κ → κ → Ordering} [Std.TransCmp order]
    [Std.LawfulEqCmp order] {name : String} {table later : Std.ExtTreeMap κ α order} {key : κ}
    {row : α} : insertNew name table key row = .ok later ↔
      table[key]? = none ∧ table.insert key row = later := by
  rw [insertNew, Std.ExtTreeMap.contains_eq_isSome_getElem?]
  cases table[key]? <;> simp

variable {tid : Tid} {database : Database} {memory : MemoryStore}

theorem archive_withVersions {write : Write} (happlies : write.Applies tid memory) :
    archive memory.keepsHistory (database.withVersions memory) write =
      .ok ((MemoryStore.apply tid memory write).history.map fun _ version => version.row) := by
  have hexpected := happlies.expected
  rw [archive, Database.withVersions, Std.ExtTreeMap.getElem?_map, MemoryStore.apply]
  cases hcurrent : memory.current[write.oid]? with
  | none => rfl
  | some outgoing =>
      have hsome : write.expected.isSome := by
        rw [← hexpected, MemoryStore.currentTid?, hcurrent]
        rfl
      simp only [Option.map_some, hsome, Bool.and_true]
      split
      · rw [map_insert]
        refine insertNew_eq_ok.mpr ⟨?_, rfl⟩
        rw [Std.ExtTreeMap.getElem?_map]
        exact congrArg (Option.map Version.row) (happlies.unarchived hcurrent)
      · rfl

theorem addBlob_withVersions (htid : tid.FitsColumn)
    (hblobs : ∀ {key : VersionKey} {blob}, memory.blobs[key]? = some blob → key.2.FitsColumn)
    {write : Write} (happlies : write.Applies tid memory) :
    addBlob memory.keepsHistory tid (database.withVersions memory) write =
      .ok (MemoryStore.apply tid memory write).blobs := by
  have hkept : (memory.blobs.filter fun key _ =>
      !(key.1 = write.oid && key.2.column < tid.column)) =
        memory.blobs.filter fun key _ => !(key.1 = write.oid && key.2 < tid) :=
    filter_key_congr fun key blob hblob => by
      simp only [Tid.column_lt_iff (hblobs hblob) htid]
  have hnew : (if memory.keepsHistory then memory.blobs
      else memory.blobs.filter fun key _ => !(key.1 = write.oid && key.2 < tid))[(write.oid, tid)]? =
        none := by
    split
    · exact happlies.noBlob
    · simp [happlies.noBlob]
  simp only [addBlob, Database.withVersions, MemoryStore.apply, hkept]
  cases write.blob with
  | none => rfl
  | some blob => exact insertNew_eq_ok.mpr ⟨hnew, rfl⟩

/-- One write does to the database what it does to the store. -/
theorem apply_withVersions (htid : tid.FitsColumn)
    (hblobs : ∀ {key : VersionKey} {blob}, memory.blobs[key]? = some blob → key.2.FitsColumn)
    {write : Write} (happlies : write.Applies tid memory) :
    apply memory.keepsHistory tid (database.withVersions memory) write =
      .ok (database.withVersions (MemoryStore.apply tid memory write)) := by
  rw [apply, archive_withVersions happlies, addBlob_withVersions htid hblobs happlies]
  simp only [bind, Except.bind, Database.withVersions, MemoryStore.apply, map_insert]
  rfl

end RelationalStore

/-- A write applies as well once another object has been written. -/
theorem Write.Applies.apply_of_ne {write head : Write} {tid : Tid} {memory : MemoryStore}
    (h : write.Applies tid memory) (hne : head.oid ≠ write.oid) :
    write.Applies tid (MemoryStore.apply tid memory head) := by
  obtain ⟨hcurrent, hhistory⟩ := MemoryStore.apply_of_ne tid memory hne
  refine ⟨?_, fun houtgoing => ?_, ?_⟩
  · rw [MemoryStore.currentTid?, hcurrent]
    exact h.expected
  · rw [hhistory]
    exact h.unarchived (hcurrent ▸ houtgoing)
  · rw [MemoryStore.blobs_apply, if_neg fun hself => hne (congrArg Prod.fst hself.1).symm,
      if_neg fun hold => hne hold.2.1.symm]
    exact h.noBlob

namespace RelationalStore

variable {tid : Tid} {memory : MemoryStore} {writes : List Write}

/-- A batch does to the database what it does to the store. -/
theorem foldlM_apply_withVersions (database : Database) (htid : tid.FitsColumn)
    (hblobs : ∀ {key : VersionKey} {blob}, memory.blobs[key]? = some blob → key.2.FitsColumn)
    (hnodup : (writes.map Write.oid).Nodup)
    (happlies : ∀ write ∈ writes, write.Applies tid memory) :
    writes.foldlM (apply memory.keepsHistory tid) (database.withVersions memory) =
      .ok (database.withVersions (writes.foldl (MemoryStore.apply tid) memory)) := by
  induction writes generalizing memory with
  | nil => rfl
  | cons head rest ih =>
      obtain ⟨hhead, hrest⟩ := List.forall_mem_cons.mp happlies
      rw [List.map_cons, List.nodup_cons] at hnodup
      rw [List.foldlM_cons, apply_withVersions htid hblobs hhead]
      refine ih ?_ hnodup.2 fun write hmem => (hrest write hmem).apply_of_ne ?_
      · intro key blob hblob
        rw [MemoryStore.blobs_apply] at hblob
        split_ifs at hblob with hself hold
        · rw [hself.1]
          exact htid
        · exact hblobs hblob
      · intro heq
        exact hnodup.1 (List.mem_map.mpr ⟨write, hmem, heq.symm⟩)

/-- Later writes of a batch have new oids once the first one is seen. -/
theorem notMem_insert_seen {seen : OidSet} {head : Write} {rest : List Write}
    (hnodup : ((head :: rest).map Write.oid).Nodup)
    (hseen : ∀ write ∈ head :: rest, write.oid ∉ seen) :
    ∀ write ∈ rest, write.oid ∉ seen.insert head.oid := by
  intro write hmem
  rw [Std.ExtTreeSet.mem_insert, not_or, Std.LawfulEqCmp.compare_eq_iff_eq]
  refine ⟨?_, hseen write (List.mem_cons_of_mem head hmem)⟩
  intro heq
  exact (List.nodup_cons.mp hnodup).1 (List.mem_map.mpr ⟨write, hmem, heq.symm⟩)

theorem repeated?_eq_none {seen : OidSet} (hnodup : (writes.map Write.oid).Nodup)
    (hseen : ∀ write ∈ writes, write.oid ∉ seen) : repeated? seen writes = none := by
  induction writes generalizing seen with
  | nil => rfl
  | cons head rest ih =>
      have hhead := hseen head List.mem_cons_self
      have hrest := ih (List.nodup_cons.mp hnodup).2 (notMem_insert_seen hnodup hseen)
      simp only [repeated?, Std.ExtTreeSet.contains_iff_mem, hhead, ↓reduceIte, hrest]

/-- Batches of distinct objects are refused for their first wrong expectation. -/
theorem conflict?_eq {database : Database}
    (htids : ∀ oid, database.currentTid? oid = memory.currentTid? oid)
    {seen : OidSet} (hnodup : (writes.map Write.oid).Nodup)
    (hseen : ∀ write ∈ writes, write.oid ∉ seen) :
    conflict? database writes = memory.refusal? seen writes := by
  induction writes generalizing seen with
  | nil => rfl
  | cons head rest ih =>
      have hhead := hseen head List.mem_cons_self
      have hrest := ih (List.nodup_cons.mp hnodup).2 (notMem_insert_seen hnodup hseen)
      simp only [conflict?, MemoryStore.refusal?, htids, Std.ExtTreeSet.contains_iff_mem, hhead,
        ↓reduceIte, ne_eq, ite_not, hrest]

end RelationalStore

/-- Two results agree if both calls are refused for one reason, or if they give
one answer and leave a mirrored store. -/
def Agree {α : Type} : Except StoreError (α × RelationalStore) →
    Except StoreError (α × MemoryStore) → Prop
  | .ok (answer, store), .ok (other, memory) => answer = other ∧ store.Mirrors memory
  | .error error, .error other => error = other
  | _, _ => False

theorem MemoryStore.Stamped.applies {memory : MemoryStore} (hstamped : memory.Stamped)
    {writes : List Write} (hvalid : memory.refusal? ∅ writes = none) {now : Instant} {write : Write}
    (hmem : write ∈ writes) : write.Applies (Tid.nextAfter memory.lastTid now) memory where
  expected := (refusal?_eq_none_iff.mp hvalid).2.2 write hmem
  unarchived {outgoing} houtgoing := by
    cases hhistory : memory.history[(write.oid, outgoing.tid)]? with
    | none => rfl
    | some version =>
        obtain ⟨current, hcurrent, hlt⟩ := hstamped.history_lt hhistory
        cases houtgoing.symm.trans hcurrent
        exact absurd hlt (lt_irrefl _)
  noBlob := by
    cases hblob : memory.blobs[(write.oid, Tid.nextAfter memory.lastTid now)]? with
    | none => rfl
    | some blob =>
        exact absurd (lt_nextAfter_of_hasPassed (hstamped.blob_passed hblob)) (lt_irrefl _)

namespace RelationalStore

theorem isOutdated_iff {database : Database} {boundary : Int} {oid : Oid} {tid : Tid} :
    isOutdated database boundary (oid, tid) ↔
      tid.column < boundary ∧
        ((∃ row ∈ database.archived oid, tid.column < row.1.column ∧ row.1.column < boundary) ∨
          ∃ current, database.currentTid? oid = some current ∧ current.column < boundary) := by
  simp only [isOutdated, Bool.and_eq_true, Bool.or_eq_true, decide_eq_true_eq, List.any_eq_true,
    Option.any_eq_true]

end RelationalStore

namespace RelationalStore.Mirrors

variable {store : RelationalStore} {memory : MemoryStore} (h : store.Mirrors memory)

include h

theorem commit_refused {now : Instant} (note : CommitNote) {writes : List Write}
    (hnodup : (writes.map Write.oid).Nodup) {error : StoreError}
    (hrefusal : memory.refusal? ∅ writes = some error) :
    ObjectStore.commit store now note writes = .error error := by
  have hseen : ∀ write ∈ writes, write.oid ∉ (∅ : OidSet) := fun _ _ => Std.ExtTreeSet.not_mem_empty
  simp only [ObjectStore.commit, RelationalStore.commit, repeated?_eq_none hnodup hseen,
    conflict?_eq h.database.currentTid?_eq hnodup hseen, hrefusal]
  rfl

/-- A valid batch does to the database what it does to the store, and moves the
oid counter by a rule of its own. -/
theorem commit_applied (hfits : memory.InColumns) {now : Instant} (note : CommitNote)
    {writes : List Write} (hvalid : memory.refusal? ∅ writes = none)
    (htid : (Tid.nextAfter memory.lastTid now).FitsColumn) :
    ∃ after, ObjectStore.commit store now note writes =
        .ok (Tid.nextAfter memory.lastTid now, after) ∧
      after.Mirrors (memory.applyAll (Tid.nextAfter memory.lastTid now) now note writes) ∧
      after.database.nextOid = nextOidAfter store.database.nextOid writes := by
  obtain ⟨hnodup, hseen, _⟩ := MemoryStore.refusal?_eq_none_iff.mp hvalid
  have hnew : store.database.log[Tid.nextAfter memory.lastTid now]? = none := by
    rw [h.database.getElem?_log]
    cases hlog : memory.log[Tid.nextAfter memory.lastTid now]? with
    | none => rfl
    | some entry =>
        have hpassed := hfits.log_passed hlog
        exact absurd (MemoryStore.lt_nextAfter_of_hasPassed hpassed) (lt_irrefl _)
  have happlies : ∀ write ∈ writes, write.Applies (Tid.nextAfter memory.lastTid now) memory :=
    fun _ hmem => hfits.applies hvalid hmem
  have hblobs : ∀ {key : VersionKey} {blob}, memory.blobs[key]? = some blob →
      key.2.FitsColumn := fun hblob => hfits.passed_fits (hfits.blob_passed hblob)
  simp only [ObjectStore.commit, RelationalStore.commit, repeated?_eq_none hnodup hseen,
    conflict?_eq h.database.currentTid?_eq hnodup hseen, hvalid, h.database.last?_eq hfits,
    insertNew_eq_ok.mpr ⟨hnew, rfl⟩, bind, Except.bind]
  generalize Tid.nextAfter memory.lastTid now = tid at *
  have hlogged := h.database.withVersions_logged tid
    ⟨Rfc3339.offsetText (tid.instant?.getD now), note⟩
  have hwritten := foldlM_apply_withVersions { store.database with
    log := store.database.log.insert tid ⟨Rfc3339.offsetText (tid.instant?.getD now), note⟩ }
    htid hblobs hnodup happlies
  rw [hlogged, ← h.keepsHistory] at hwritten
  rw [hwritten]
  obtain ⟨hkeeps, _, hpacked⟩ := MemoryStore.foldl_apply_frame tid memory writes
  refine ⟨_, rfl, ⟨h.keepsHistory.trans hkeeps.symm, rfl, rfl, rfl, ?_, ?_, ?_⟩, ?_⟩
  · simp only [Database.withVersions, MemoryStore.applyAll, MemoryStore.log_foldl_apply,
      map_insert, h.database.log]
    rfl
  · rfl
  · exact h.database.packedBefore.trans (congrArg (Option.map Tid.column) hpacked.symm)
  · simp only [Database.withVersions]

/-- A batch of distinct objects commits in both stores or in neither. -/
theorem commit_agree (hfits : memory.InColumns) {now : Instant} (note : CommitNote)
    {writes : List Write} (hnodup : (writes.map Write.oid).Nodup)
    (htid : memory.refusal? ∅ writes = none →
      (Tid.nextAfter memory.lastTid now).FitsColumn) :
    Agree (ObjectStore.commit store now note writes) (ObjectStore.commit memory now note writes) := by
  have hcommit : ObjectStore.commit memory now note writes = _ := hfits.online_eq _
  rw [hcommit]
  cases hrefusal : memory.refusal? ∅ writes with
  | some error =>
      rw [h.commit_refused note hnodup hrefusal]
      rfl
  | none =>
      obtain ⟨after, hcommit, hmirrors, _⟩ := h.commit_applied hfits note hrefusal (htid hrefusal)
      rw [hcommit]
      exact ⟨rfl, hmirrors⟩

section CleanUp

variable (hkept : memory.keepsHistory = false → memory.history = ∅)

include hkept

theorem hasVersion_eq : store.hasVersion = memory.hasVersion := by
  funext key
  rw [RelationalStore.hasVersion, MemoryStore.hasVersion, h.database.currentTid?_eq,
    h.database.history, Std.ExtTreeMap.contains_map, h.keepsHistory]
  cases hkeeps : memory.keepsHistory with
  | true => rw [Bool.true_and]
  | false => simp [hkept hkeeps]

omit hkept in
theorem tidsOfCurrent_eq : (store.database.current.toList.map fun (_, row) => row.tid) =
    memory.current.toList.map fun (_, version) => version.tid := by
  rw [h.database.current, Std.ExtTreeMap.toList_map, List.map_map]
  rfl

theorem storedTids_eq : store.storedTids = memory.storedTids := by
  have hhistory : (if store.keepsHistory then store.database.history.keys.map Prod.snd else []) =
      memory.history.keys.map Prod.snd := by
    rw [h.database.history, Std.ExtTreeMap.keys_map, h.keepsHistory]
    cases hkeeps : memory.keepsHistory with
    | true => rfl
    | false => simp [hkept hkeeps]
  rw [RelationalStore.storedTids, MemoryStore.storedTids, h.tidsOfCurrent_eq, hhistory]

/-- Cleaning up removes the same blobs and log rows. -/
theorem cleanUp_agree (count : Nat) :
    (store.cleanUp count).1 = (memory.cleanUp count).1 ∧
      (store.cleanUp count).2.Mirrors (memory.cleanUp count).2 := by
  have hlog : (store.database.log.filter fun tid _ => store.storedTids.contains tid) =
      (memory.log.filter fun tid _ => memory.storedTids.contains tid).map fun _ entry =>
        entry.row := by
    rw [h.storedTids_eq hkept, h.database.log,
      map_filter_key LogEntry.row memory.storedTids.contains]
  have hblobs : (store.database.blobs.filter fun key _ => store.hasVersion key) =
      memory.blobs.filter fun key _ => memory.hasVersion key := by
    rw [h.hasVersion_eq hkept, h.database.blobs]
  refine ⟨?_, h.keepsHistory, h.database.current, h.database.history, hblobs, hlog,
    h.database.lastTid, h.database.packedBefore⟩
  rw [RelationalStore.cleanUp, hlog, hblobs, h.database.blobs, h.database.log]
  simp only [MemoryStore.cleanUp, Std.ExtTreeMap.size_map]

end CleanUp

theorem deleteAll_agree (hsound : memory.Sound) (oids : OidSet) :
    (store.deleteAll oids).1 = (memory.deleteAll oids).1 ∧
      (store.deleteAll oids).2.Mirrors (memory.deleteAll oids).2 := by
  have hcurrent : (store.database.current.filter fun oid _ => !oids.contains oid) =
      (memory.current.filter fun oid _ => !oids.contains oid).map fun _ version =>
        version.currentRow := by
    rw [h.database.current, map_filter_key Version.currentRow (!oids.contains ·)]
  have hhistory : (if store.keepsHistory then
      store.database.history.filter fun key _ => !oids.contains key.1 else store.database.history) =
        (memory.history.filter fun key _ => !oids.contains key.1).map fun _ version =>
          version.row := by
    rw [h.database.history, map_filter_key Version.row
      (fun key : VersionKey => !oids.contains key.1), h.keepsHistory]
    cases hkeeps : memory.keepsHistory with
    | true => rfl
    | false => simp [hsound.history_eq_empty hkeeps, map_empty, filter_empty]
  refine ⟨?_, h.keepsHistory, hcurrent, hhistory, ?_, h.database.log, h.database.lastTid,
    h.database.packedBefore⟩
  · simp only [RelationalStore.deleteAll, hcurrent, hhistory, h.database.blobs]
    simp only [MemoryStore.deleteAll, h.database.current, h.database.history,
      Std.ExtTreeMap.size_map]
  · simp only [RelationalStore.deleteAll, MemoryStore.deleteAll, h.database.blobs]

/-- The rows that a prune takes are those of outdated versions. -/
theorem isOutdated_eq (hfits : memory.InColumns) {boundary : Tid} (hboundary : boundary.FitsColumn)
    {oid : Oid} {tid : Tid} {version : Version}
    (hhistory : memory.history[(oid, tid)]? = some version) :
    isOutdated store.database boundary.column (oid, tid) =
      memory.isOutdated boundary (oid, tid) := by
  have hsound := hfits.toSound
  have htid := hfits.history_fits hhistory
  have hbelow {other : Tid} (hother : other.FitsColumn) :
      other.column < boundary.column ↔ other < boundary := Tid.column_lt_iff hother hboundary
  have habove {other : Tid} (hother : other.FitsColumn) :
      tid.column < other.column ↔ tid < other := Tid.column_lt_iff htid hother
  have harchived {newer : Version} (hmem : newer ∈ memory.archived oid) : newer.tid.FitsColumn :=
    hfits.history_fits ((MemoryStore.mem_archived hsound.keyed).mp hmem)
  obtain ⟨current, hcurrent, hlt⟩ := hsound.history_lt hhistory
  have hcurrentFits := hfits.current_fits hcurrent
  rw [Bool.eq_iff_iff, MemoryStore.isOutdated_iff, isOutdated_iff, h.database.archived_eq hsound,
    h.database.currentTid?_eq, MemoryStore.currentTid?, hcurrent]
  constructor
  · rintro ⟨_, ⟨row, hmem, hgt, hlow⟩ | ⟨_, ⟨⟩, hlow⟩⟩
    · obtain ⟨newer, hnewer, rfl⟩ := List.mem_map.mp hmem
      refine ⟨newer, ?_, (habove (harchived hnewer)).mp hgt, (hbelow (harchived hnewer)).mp hlow⟩
      exact (MemoryStore.mem_storedVersions hsound).mpr
        (Or.inr ((MemoryStore.mem_archived hsound.keyed).mp hnewer))
    · exact ⟨current, (MemoryStore.mem_storedVersions hsound).mpr (Or.inl hcurrent), hlt,
        (hbelow hcurrentFits).mp hlow⟩
  · rintro ⟨newer, hnewer, hgt, hlow⟩
    refine ⟨(hbelow htid).mpr (lt_trans hgt hlow), ?_⟩
    rcases (MemoryStore.mem_storedVersions hsound).mp hnewer with hsame | hrow
    · cases hcurrent.symm.trans hsame
      exact Or.inr ⟨current.tid, rfl, (hbelow hcurrentFits).mpr hlow⟩
    · have hmem := (MemoryStore.mem_archived hsound.keyed).mpr hrow
      exact Or.inl ⟨newer.listing, List.mem_map_of_mem hmem, (habove (harchived hmem)).mpr hgt,
        (hbelow (harchived hmem)).mpr hlow⟩

/-- Another history and another boundary of it, in both stores. -/
theorem withHistory {rows : VersionMap VersionRow} {history : VersionMap Version}
    {packed : Option Int} {packedBefore : Option Tid}
    (hrows : rows = history.map fun _ version => version.row)
    (hpacked : packed = packedBefore.map Tid.column) :
    RelationalStore.Mirrors
      { store with database := { store.database with history := rows, packedBefore := packed } }
      { memory with history, packedBefore } :=
  ⟨h.keepsHistory, h.database.current, hrows, h.database.blobs, h.database.log,
    h.database.lastTid, hpacked⟩

/-- The boundary of pruned history moves up to a boundary above it. -/
theorem packedBefore_max (hfits : memory.InColumns) (boundary : Tid) :
    (if (store.database.packedBefore.map Tid.ofColumn).all (· < boundary) then
        some boundary.column else store.database.packedBefore) =
      (Tid.latest memory.packedBefore (some boundary)).map Tid.column := by
  rw [h.database.packedBefore_eq hfits, h.database.packedBefore]
  cases memory.packedBefore with
  | none => rfl
  | some packed =>
      rw [Option.all_some, Tid.latest, Option.map_some, Option.map_some]
      rcases lt_or_ge packed boundary with hlt | hge
      · rw [if_pos (decide_eq_true hlt), max_eq_right (le_of_lt hlt)]
      · rw [if_neg (by simpa using hge), max_eq_left hge]

theorem prune_agree (hfits : memory.InColumns) {boundary : Tid} (hboundary : boundary.FitsColumn) :
    (store.prune boundary).1 = (memory.prune boundary).1 ∧
      (store.prune boundary).2.Mirrors (memory.prune boundary).2 := by
  by_cases hkeeps : memory.keepsHistory
  · have hhistory : (store.database.history.filter fun key _ =>
        !isOutdated store.database boundary.column key) =
          (memory.history.filter fun key _ => !memory.isOutdated boundary key).map
            fun _ version => version.row := by
      rw [map_filter_key Version.row (!memory.isOutdated boundary ·), ← h.database.history]
      refine filter_key_congr fun key row hrow => ?_
      rw [h.database.getElem?_history, Option.map_eq_some_iff] at hrow
      obtain ⟨version, hversion, _⟩ := hrow
      rw [h.isOutdated_eq hfits hboundary hversion]
    have hcount : store.database.history.size = memory.history.size := by
      rw [h.database.history, Std.ExtTreeMap.size_map]
    rw [RelationalStore.prune, if_pos (h.keepsHistory.trans hkeeps), MemoryStore.prune,
      if_pos hkeeps]
    dsimp only
    rw [hhistory, hcount, Std.ExtTreeMap.size_map]
    refine (h.withHistory rfl (h.packedBefore_max hfits boundary)).cleanUp_agree ?_ _
    exact fun hfree => absurd hkeeps (by simpa using hfree)
  · rw [RelationalStore.prune, if_neg (by rwa [h.keepsHistory]), MemoryStore.prune, if_neg hkeeps]
    exact h.cleanUp_agree (fun hfree => hfits.history_eq_empty hfree) 0

/-- The boundary of pruned history moves above the last tid. -/
theorem packedBefore_drop (hfits : memory.InColumns) :
    (match store.database.last? with
      | none => store.database.packedBefore
      | some last =>
          let boundary := (Tid.mk (min (last.micros + 1) (UInt64.size - 1))).column
          if store.database.packedBefore.all (· < boundary) then some boundary
          else store.database.packedBefore) =
      (Tid.latest memory.packedBefore (memory.lastTid.map Tid.succ)).map Tid.column := by
  rw [h.database.last?_eq hfits, h.database.packedBefore]
  cases hlast : memory.lastTid with
  | none => cases memory.packedBefore <;> rfl
  | some last =>
      have hsucc := hfits.last_fits hlast
      have hboundary : Tid.mk (min (last.micros + 1) (UInt64.size - 1)) = last.succ := by
        refine Tid.ext_micros (Nat.min_eq_left ?_)
        simp only [Tid.FitsColumn, Tid.succ, Column.largest, UInt64.size] at *
        omega
      simp only [hboundary, Option.map_some]
      cases hpacked : memory.packedBefore with
      | none => rfl
      | some packed =>
          have hpackedFits := hfits.packed_fits hpacked
          rw [Option.map_some, Option.all_some, Tid.latest, Option.map_some]
          rcases lt_or_ge packed last.succ with hlt | hge
          · rw [if_pos (decide_eq_true ((Tid.column_lt_iff hpackedFits hsucc).mpr hlt)),
              max_eq_right (le_of_lt hlt)]
          · have hnot := mt (Tid.column_lt_iff hpackedFits hsucc).mp (not_lt_of_ge hge)
            rw [if_neg (mt of_decide_eq_true hnot), max_eq_left hge]

theorem dropAll_agree (hfits : memory.InColumns) :
    store.dropAll.1 = memory.dropAll.1 ∧ store.dropAll.2.Mirrors memory.dropAll.2 := by
  by_cases hkeeps : memory.keepsHistory
  · have hcount : store.database.history.size = memory.history.size := by
      rw [h.database.history, Std.ExtTreeMap.size_map]
    rw [RelationalStore.dropAll, if_pos (h.keepsHistory.trans hkeeps), MemoryStore.dropAll,
      if_pos hkeeps]
    dsimp only
    rw [hcount]
    exact (h.withHistory (map_empty _).symm (h.packedBefore_drop hfits)).cleanUp_agree
      (fun _ => rfl) _
  · have hempty := hfits.history_eq_empty (by simpa using hkeeps)
    have hfree : memory.dropAll = memory.cleanUp 0 := by
      rw [MemoryStore.dropAll, if_neg hkeeps, hempty, Std.ExtTreeMap.size_empty, ← hempty]
    rw [RelationalStore.dropAll, if_neg (by rwa [h.keepsHistory]), hfree]
    exact h.cleanUp_agree (fun _ => hempty) 0

end RelationalStore.Mirrors

theorem Agree.left {α : Type} {store : RelationalStore} {memory : MemoryStore}
    {result : Except StoreError (α × RelationalStore)} {other : Except StoreError (α × MemoryStore)}
    (h : store.Mirrors memory) (hagree : Agree result other) :
    (perform.left store result).Mirrors (perform.left memory other) := by
  match result, other with
  | .ok _, .ok _ => exact hagree.2
  | .error _, .error _ => exact h

theorem Agree.answer {α : Type} {result : Except StoreError (α × RelationalStore)}
    {other : Except StoreError (α × MemoryStore)} (hagree : Agree result other) :
    result.map Prod.fst = other.map Prod.fst := by
  match result, other with
  | .ok _, .ok _ => exact congrArg Except.ok hagree.1
  | .error _, .error _ => exact congrArg Except.error hagree

namespace RelationalStore.Mirrors

variable {store : RelationalStore} {memory : MemoryStore} (h : store.Mirrors memory)
  (hfits : memory.InColumns)

include h hfits

theorem deleteObjects_agree (oids : List Oid) (guardTid : Tid) :
    Agree (ObjectStore.deleteObjects store oids guardTid)
      (ObjectStore.deleteObjects memory oids guardTid) := by
  have hanswer : ObjectStore.deleteObjects memory oids guardTid = _ := hfits.online_eq _
  have hdeleted := h.deleteAll_agree hfits.toSound (.ofOids oids)
  rw [hanswer]
  simp only [ObjectStore.deleteObjects, h.database.last?_eq hfits]
  cases memory.lastTid with
  | none => exact hdeleted
  | some last =>
      by_cases hstale : guardTid < last
      · simp only [hstale, ↓reduceIte]
        exact ⟨rfl, h⟩
      · simp only [hstale, ↓reduceIte]
        exact hdeleted

theorem pruneHistory_agree {boundary : Tid} (hboundary : boundary.FitsColumn) :
    Agree (ObjectStore.pruneHistory store boundary) (ObjectStore.pruneHistory memory boundary) := by
  have hanswer : ObjectStore.pruneHistory memory boundary = .ok (memory.prune boundary) :=
    hfits.online_eq _
  rw [hanswer]
  exact h.prune_agree hfits hboundary

theorem dropHistory_agree :
    Agree (ObjectStore.dropHistory store) (ObjectStore.dropHistory memory) := by
  have hanswer : ObjectStore.dropHistory memory = .ok memory.dropAll := hfits.online_eq _
  rw [hanswer]
  exact h.dropAll_agree hfits

theorem commit_agree_of_fits {now : Instant} {note : CommitNote} {writes : List Write}
    (haction : (StoreAction.commit now note writes).Fits memory) :
    Agree (ObjectStore.commit store now note writes)
      (ObjectStore.commit memory now note writes) := by
  refine h.commit_agree hfits note (haction.distinct rfl) fun hvalid => ?_
  have hassigned : assigned? memory (.commit now note writes) =
      some (Tid.nextAfter memory.lastTid now) := by
    rw [MemoryStore.assigned?_commit hfits.toSound, hvalid]
  exact (haction.assigned hassigned).of_le (le_of_lt (Tid.lt_succ _))

theorem perform {action : StoreAction} (haction : action.Fits memory) :
    (perform store action).Mirrors (perform memory action) := by
  cases action with
  | newOid =>
      rw [MemoryStore.perform_newOid hfits.toSound]
      exact ⟨h.keepsHistory, h.database.current, h.database.history, h.database.blobs,
        h.database.log, h.database.lastTid, h.database.packedBefore⟩
  | commit => exact (h.commit_agree_of_fits hfits haction).left h
  | deleteObjects oids guardTid => exact (h.deleteObjects_agree hfits oids guardTid).left h
  | pruneHistory => exact (h.pruneHistory_agree hfits (haction.boundary rfl)).left h
  | dropHistory => exact (h.dropHistory_agree hfits).left h

end RelationalStore.Mirrors

end ObjectVault
