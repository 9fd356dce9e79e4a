/-
A pack with nothing else going on.  It deletes exactly the objects that the
root does not reach and that the retention policy does not keep, and of the
others the versions that are outdated at its boundary.  Its report adds up with
what is left, and a second pack finds nothing to do.
-/
import ObjectVault.Proofs.CacheEntries
import ObjectVault.Proofs.PackSafety
import ObjectVault.Proofs.PrunedHistory

namespace ObjectVault

section Tables

variable {α β : Type} {order : α → α → Ordering} [Std.TransCmp order] [Std.LawfulEqCmp order]
  {table : Std.ExtTreeMap α β order}

/-- A filter that every key passes keeps the table. -/
theorem filter_key_eq_self {keep : α → Bool}
    (h : ∀ key row, table[key]? = some row → keep key = true) :
    (table.filter fun key _ => keep key) = table := by
  refine Std.ExtTreeMap.ext_getElem? fun key => ?_
  rw [MemoryStore.getElem?_filter_key]
  cases hrow : table[key]? with
  | none => simp
  | some row => rw [if_pos (h key row hrow)]

theorem filter_key_filter_key (keep also : α → Bool) :
    ((table.filter fun key _ => keep key).filter fun key _ => also key) =
      table.filter fun key _ => keep key && also key := by
  refine Std.ExtTreeMap.ext_getElem? fun key => ?_
  simp only [MemoryStore.getElem?_filter_key, Bool.and_eq_true]
  by_cases hkeep : keep key <;> by_cases halso : also key <;> simp [hkeep, halso]

end Tables

namespace MemoryStore

variable {store : MemoryStore} {boundary : Tid}

theorem notContains_ofOids_append (first rest : List Oid) (oid : Oid) :
    (!(OidSet.ofOids (first ++ rest)).contains oid) =
      (!(OidSet.ofOids first).contains oid && !(OidSet.ofOids rest).contains oid) := by
  simp only [OidSet.ofOids, Std.ExtTreeSet.contains_ofList, List.contains_append, Bool.not_or]

theorem deleteAll_nil : (store.deleteAll (.ofOids [])).2 = store := by
  have hkeep : ∀ oid : Oid, (!(OidSet.ofOids []).contains oid) = true := fun oid => rfl
  simp only [deleteAll, filter_key_eq_self fun oid _ _ => hkeep oid,
    filter_key_eq_self fun (key : VersionKey) _ _ => hkeep key.1]

/-- Deleting one batch after another deletes all of them. -/
theorem deleteAll_append (first rest : List Oid) :
    ((store.deleteAll (.ofOids first)).2.deleteAll (.ofOids rest)).2 =
      (store.deleteAll (.ofOids (first ++ rest))).2 := by
  simp only [deleteAll, notContains_ofOids_append, filter_key_filter_key,
    filter_key_filter_key (fun key : VersionKey => !(OidSet.ofOids first).contains key.1)]

/-- Delete objects, and prune. -/
def swept (store : MemoryStore) (doomed : List Oid) (boundary : Tid) : MemoryStore :=
  ((store.deleteAll (.ofOids doomed)).2.prune boundary).2

variable {doomed : List Oid} {oid : Oid} {tid : Tid} {version : Version}

theorem Sound.swept (hsound : store.Sound) : (store.swept doomed boundary).Sound :=
  (hsound.change (.deleted doomed)).change (.pruned boundary)

theorem current_swept : (store.swept doomed boundary).current[oid]? = some version ↔
    store.current[oid]? = some version ∧ oid ∉ doomed := by
  rw [swept, current_prune, current_deleteAll, Option.ite_none_left_eq_some, OidSet.mem_ofOids,
    and_comm]

theorem mem_current_swept :
    oid ∈ (store.swept doomed boundary).current ↔ oid ∈ store.current ∧ oid ∉ doomed := by
  simp only [mem_table_iff, current_swept, exists_and_right]

theorem history_swept (hsound : store.Sound) :
    (store.swept doomed boundary).history[(oid, tid)]? = some version ↔
      store.history[(oid, tid)]? = some version ∧ oid ∉ doomed ∧
        ¬ ∃ newer, store.Stores oid newer ∧ tid < newer.tid ∧ newer.tid < boundary := by
  have houtdated : oid ∉ doomed →
      ((store.deleteAll (.ofOids doomed)).2.isOutdated boundary (oid, tid) ↔
        ∃ newer, store.Stores oid newer ∧ tid < newer.tid ∧ newer.tid < boundary) := by
    intro hout
    simp only [isOutdated_iff, storedVersions_deleteAll hsound, if_neg hout, stores_iff hsound]
  rw [swept, history_prune, history_deleteAll, Option.ite_none_left_eq_some,
    Option.ite_none_left_eq_some, OidSet.mem_ofOids]
  constructor
  · rintro ⟨hcurrent, hout, hhistory⟩
    refine ⟨hhistory, hout, fun hnewer => hcurrent ⟨hsound.history_kept hhistory, ?_⟩⟩
    exact (houtdated hout).mpr hnewer
  · rintro ⟨hhistory, hout, hcurrent⟩
    exact ⟨fun hgone => hcurrent ((houtdated hout).mp hgone.2), hout, hhistory⟩

theorem blobs_swept (hsound : store.Sound) {blob : Bytes} :
    (store.swept doomed boundary).blobs[(oid, tid)]? = some blob ↔
      store.blobs[(oid, tid)]? = some blob ∧
        ∃ version, (store.swept doomed boundary).Stores oid version ∧ version.tid = tid := by
  have hmiddle : Sound (store.deleteAll (.ofOids doomed)).2 := hsound.change (.deleted doomed)
  have hout : ∀ {version}, (store.swept doomed boundary).Stores oid version → oid ∉ doomed := by
    intro version hstored
    have hbefore := ((stores_prune_iff hmiddle boundary).mp hstored).1
    exact ((stores_deleteAll_iff hsound doomed).mp hbefore).1
  rw [← hasVersion_iff hsound.swept, swept, blobs_prune, Option.ite_none_right_eq_some,
    blobs_deleteAll, Option.ite_none_left_eq_some]
  constructor
  · rintro ⟨hversion, _, hblob⟩
    exact ⟨hblob, hversion⟩
  · rintro ⟨hblob, hversion⟩
    obtain ⟨version, hstored, _⟩ := (hasVersion_iff hsound.swept).mp hversion
    exact ⟨hversion, hout hstored, hblob⟩

theorem log_swept (hsound : store.Sound) {entry : LogEntry} :
    (store.swept doomed boundary).log[tid]? = some entry ↔
      store.log[tid]? = some entry ∧ (store.swept doomed boundary).StoresTid tid := by
  rw [← contains_storedTids_iff hsound.swept, swept, log_prune, Option.ite_none_right_eq_some]
  exact and_comm

theorem prune_swept (hsound : store.Sound) :
    ((store.swept doomed boundary).prune boundary).2 = store.swept doomed boundary := by
  rw [swept, prune_again (hsound.change (.deleted doomed))]

end MemoryStore

/-- The rows that are left together with those that were removed, table by
table. -/
structure Accounts where
  objects : Nat
  history : Nat
  blobs : Nat
  transactions : Nat

def PackReport.accounts (report : PackReport) (store : MemoryStore) : Accounts where
  objects := report.objectsRemoved + store.current.size
  history := report.historyRemoved + store.history.size
  blobs := report.blobsRemoved + store.blobs.size
  transactions := report.transactionsRemoved + store.log.size

section

variable {store : MemoryStore} {sweep : Sweep}

/-- Each row that a batch deletes is counted. -/
theorem accounts_batchDeleted {oids : OidSet} {objects history blobs : Nat} {after : MemoryStore}
    (hdelete : store.deleteAll oids = (.deleted objects history blobs, after)) :
    (sweep.batchDeleted objects history blobs).report.accounts after =
      sweep.report.accounts store := by
  cases hdelete
  have hobjects : (store.current.filter fun oid _ => !oids.contains oid).size ≤
      store.current.size := Std.ExtTreeMap.size_filter_le_size
  have hhistory : (store.history.filter fun key _ => !oids.contains key.1).size ≤
      store.history.size := Std.ExtTreeMap.size_filter_le_size
  have hblobs : (store.blobs.filter fun key _ => !oids.contains key.1).size ≤
      store.blobs.size := Std.ExtTreeMap.size_filter_le_size
  simp only [PackReport.accounts, Sweep.batchDeleted, Accounts.mk.injEq, and_true]
  omega

/-- Each row that a prune removes is counted. -/
theorem accounts_pruned (boundary : Tid) :
    (sweep.pruned (store.prune boundary).1).accounts (store.prune boundary).2 =
      sweep.report.accounts store := by
  obtain ⟨hhistory, hblobs, hlog⟩ := store.prune_counts boundary
  simp only [PackReport.accounts, Sweep.pruned, MemoryStore.current_prune, Nat.add_assoc,
    hhistory, hblobs, hlog]

end

section

variable {ν : Type} {settings : PackSettings} {boundary : Tid} {before store : MemoryStore}
  {filled cache : Cache ν} {candidates : List Oid} {sweep : Sweep}

theorem Sweep.step_exhausted (hphase : sweep.phase = .next) (hlater : sweep.later = []) :
    sweep.step settings false store cache = .going { sweep with phase := .prune } store cache := by
  simp [Sweep.step, hphase, Sweep.nextBatch, hlater]

theorem Sweep.step_taken (hphase : sweep.phase = .next) (hlater : sweep.later ≠ []) :
    sweep.step settings false store cache = .going { sweep with
      batch := sweep.later.take (max settings.batchSize 1)
      later := sweep.later.drop (max settings.batchSize 1)
      attempts := 0, phase := .delete } store cache := by
  simp [Sweep.step, hphase, Sweep.nextBatch, hlater]

/-- No commit since the mark is in the way of a batch. -/
theorem Sweep.step_deleted (settings : PackSettings) (cache : Cache ν) (hsound : store.Sound)
    (hguard : store.lastTid = some sweep.guardTid) (hphase : sweep.phase = .delete) :
    ∃ objects history blobs after,
      store.deleteAll (.ofOids sweep.batch) = (.deleted objects history blobs, after) ∧
      sweep.step settings false store cache =
        .going (sweep.batchDeleted objects history blobs) after
          (Invalidator.invalidate cache sweep.batch) := by
  have hanswer : ObjectStore.deleteObjects store sweep.batch sweep.guardTid =
      .ok (store.deleteAll (.ofOids sweep.batch)) := by
    refine (hsound.online_eq _).trans ?_
    rw [hguard]
    exact if_neg (lt_irrefl sweep.guardTid)
  refine ⟨_, _, _, _, rfl, ?_⟩
  simp only [step, hphase, hanswer]
  rfl

theorem Sweep.step_prune (hsound : store.Sound) (hphase : sweep.phase = .prune) :
    sweep.step settings false store cache =
      .done (sweep.pruned (store.prune sweep.boundary).1) (store.prune sweep.boundary).2 := by
  have hanswer : ObjectStore.pruneHistory store sweep.boundary =
      .ok (store.prune sweep.boundary) := hsound.online_eq _
  simp only [Sweep.step, hphase, hanswer]

theorem Sweep.run_eq : sweep.run settings false store cache =
    match sweep.step settings false store cache with
    | .going next after later => next.run settings false after later
    | .done report after => ⟨.ok report, after, cache⟩
    | .failed error => ⟨.error error, store, cache⟩ := by
  rw [Sweep.run]
  split <;> simp only [*]

/-- A sweep without candidates only prunes. -/
theorem Sweep.run_exhausted (hsound : store.Sound) (hphase : sweep.phase = .next)
    (hlater : sweep.later = []) :
    sweep.run settings false store cache = ⟨.ok (sweep.pruned (store.prune sweep.boundary).1),
      (store.prune sweep.boundary).2, cache⟩ := by
  rw [run_eq, step_exhausted hphase hlater]
  dsimp only
  rw [run_eq, step_prune hsound rfl]
  rfl

/-- Where a sweep with nothing else going on is.  Some of the candidates are
deleted and dropped from the cache; no commit is in the way of the others. -/
structure Sweep.Alone (before : MemoryStore) (filled : Cache ν) (candidates : List Oid)
    (boundary : Tid) (sweep : Sweep) (store : MemoryStore) (cache : Cache ν) : Prop where
  sound : store.Sound
  boundary_eq : sweep.boundary = boundary
  guard : store.lastTid = some sweep.guardTid
  phase : sweep.phase = .next ∧ sweep.batch = [] ∨ sweep.phase = .delete ∨
    sweep.phase = .prune ∧ sweep.batch = [] ∧ sweep.later = []
  swept : ∃ done, done ++ sweep.batch ++ sweep.later = candidates ∧
    store = (before.deleteAll (.ofOids done)).2 ∧
    ∀ oid, cache.find? oid = if oid ∈ done then none else filled.find? oid

namespace Sweep.Alone

/-- What a step of a sweep alone comes to.  The report adds up all along. -/
inductive Comes (before : MemoryStore) (filled cache : Cache ν) (candidates : List Oid)
    (boundary : Tid) (accounts : Accounts) : Progress MemoryStore (Cache ν) → Prop where
  | going (next : Sweep) (after : MemoryStore) (later : Cache ν)
      (hnext : next.Alone before filled candidates boundary after later)
      (haccounts : next.report.accounts after = accounts) :
      Comes before filled cache candidates boundary accounts (.going next after later)
  | done (report : PackReport)
      (hcache : ∀ oid, cache.find? oid = if oid ∈ candidates then none else filled.find? oid)
      (haccounts : report.accounts (before.swept candidates boundary) = accounts) :
      Comes before filled cache candidates boundary accounts
        (.done report (before.swept candidates boundary))

/-- A sweep alone goes on to the next batch, deletes the one at hand, or prunes
in the end. -/
theorem step (settings : PackSettings)
    (h : sweep.Alone before filled candidates boundary store cache) :
    Comes before filled cache candidates boundary (sweep.report.accounts store)
      (sweep.step settings false store cache) := by
  obtain ⟨done, hsplit, hstore, hcache⟩ := h.swept
  rcases h.phase with ⟨hphase, hbatch⟩ | hphase | ⟨hphase, hbatch, hlater⟩
  · by_cases hlater : sweep.later = []
    · rw [step_exhausted hphase hlater]
      refine .going _ _ _ ⟨h.sound, h.boundary_eq, h.guard, ?_, done, hsplit, hstore, hcache⟩ rfl
      exact Or.inr (Or.inr ⟨rfl, hbatch, hlater⟩)
    · rw [step_taken hphase hlater]
      refine .going _ _ _ ⟨h.sound, h.boundary_eq, h.guard, Or.inr (Or.inl rfl), done, ?_, hstore,
        hcache⟩ rfl
      rw [hbatch, List.append_nil] at hsplit
      rw [List.append_assoc, List.take_append_drop, hsplit]
  · obtain ⟨objects, history, blobs, after, hdelete, hstep⟩ :=
      step_deleted settings cache h.sound h.guard hphase
    rw [hstep]
    refine .going _ _ _ ?_ (accounts_batchDeleted hdelete)
    -- the batch joins what is done
    obtain rfl : (store.deleteAll (.ofOids sweep.batch)).2 = after := congrArg Prod.snd hdelete
    refine ⟨h.sound.change (.deleted sweep.batch), h.boundary_eq, h.guard, Or.inl ⟨rfl, rfl⟩,
      done ++ sweep.batch, ?_, ?_, fun oid => ?_⟩
    · rw [← hsplit, List.append_assoc]
      simp [Sweep.batchDeleted]
    · rw [hstore, MemoryStore.deleteAll_append]
    · refine (Cache.find?_invalidate cache sweep.batch oid).trans ?_
      rw [hcache oid]
      by_cases hdone : oid ∈ done <;> by_cases hnow : oid ∈ sweep.batch <;> simp [hdone, hnow]
  · rw [hbatch, hlater, List.append_nil, List.append_nil] at hsplit
    subst hsplit
    have hafter : (store.prune sweep.boundary).2 = before.swept done boundary := by
      rw [hstore, h.boundary_eq, MemoryStore.swept]
    rw [step_prune h.sound hphase, hafter]
    exact .done _ hcache (hafter ▸ accounts_pruned sweep.boundary)

/-- A sweep alone succeeds.  It deletes all its candidates and prunes. -/
theorem run (settings : PackSettings)
    (h : sweep.Alone before filled candidates boundary store cache) :
    ∃ report later,
      sweep.run settings false store cache =
        ⟨.ok report, before.swept candidates boundary, later⟩ ∧
      (∀ oid, later.find? oid = if oid ∈ candidates then none else filled.find? oid) ∧
      report.accounts (before.swept candidates boundary) = sweep.report.accounts store := by
  fun_induction Sweep.run settings false sweep store cache with
  | case1 sweep store cache next after later hgoing ih =>
      have hstep := hgoing ▸ h.step settings
      cases hstep with
      | going _ _ _ hnext haccounts => exact haccounts ▸ ih hnext
  | case2 sweep store cache report after hdone =>
      have hstep := hdone ▸ h.step settings
      cases hstep with
      | done _ hcache haccounts => exact ⟨report, cache, rfl, hcache, haccounts⟩
  | case3 sweep store cache error hfailed =>
      have hstep := hfailed ▸ h.step settings
      cases hstep

end Sweep.Alone

end

/-- The object outlives a pack: the root reaches it, or the retention policy
keeps it. -/
def MemoryStore.Survives (store : MemoryStore) (settings : PackSettings) (boundary : Tid)
    (oid : Oid) : Prop :=
  oid = .root ∨ store.Reaches .root oid ∨
    store.keepsHistory ∧ settings.retention = .keepAfterBoundary ∧
      ∃ version, store.current[oid]? = some version ∧ boundary ≤ version.tid

section

variable {settings : PackSettings} {boundary : Tid} {store : MemoryStore}

/-- What a mark finds in a store with a commit. -/
def MemoryStore.marked (store : MemoryStore) (settings : PackSettings) (boundary snapshot : Tid) :
    Marked :=
  .select (Marked.isDeferred store.keepsHistory settings.retention boundary) snapshot
    (store.reachable [.root]) (store.currentWhere (· ≤ snapshot))

theorem mark_eq (hsound : store.Sound) {snapshot : Tid} (hlast : store.lastTid = some snapshot) :
    mark settings store boundary = .ok (some (store.marked settings boundary snapshot)) := by
  have hanswer : ObjectStore.lastTid store = .ok (some snapshot) :=
    (hsound.online_eq _).trans (congrArg Except.ok hlast)
  have hreachable : ObjectStore.reachableFrom store [.root] = .ok (store.reachable [.root]) :=
    hsound.online_eq _
  have hlisted : ObjectStore.committedUpto store snapshot =
      .ok (store.currentWhere (· ≤ snapshot)) := hsound.online_eq _
  simp only [mark, hanswer, hreachable, bind, Except.bind, hlisted, pure, Except.pure]
  rfl

/-- The candidates are the objects that do not survive. -/
theorem mem_candidates_marked (hsound : store.Sound) {snapshot : Tid}
    (hlast : store.lastTid = some snapshot) {oid : Oid} :
    oid ∈ (store.marked settings boundary snapshot).candidates ↔
      oid ∈ store.current ∧ ¬ store.Survives settings boundary oid := by
  have hle : ∀ {version}, store.current[oid]? = some version → version.tid ≤ snapshot := by
    intro version hcurrent
    apply hsound.current_le _ hcurrent
    intro last hsome
    cases hlast.symm.trans hsome
    exact le_refl _
  rw [MemoryStore.marked, Marked.mem_candidates_select]
  constructor
  · rintro ⟨tid, hlisted, hroot, hout, hkept⟩
    obtain ⟨version, hcurrent, rfl, _⟩ := MemoryStore.mem_currentWhere_iff.mp hlisted
    refine ⟨MemoryStore.mem_table_iff.mpr ⟨version, hcurrent⟩, ?_⟩
    rintro (hsame | hreaches | ⟨hkeeps, hretention, other, hother, hbound⟩)
    · exact hroot hsame
    · exact hout (MemoryStore.mem_reachable_iff.mpr ⟨.root, by simp, hreaches⟩)
    · cases hcurrent.symm.trans hother
      simp [Marked.isDeferred, hkeeps, hretention, hbound] at hkept
  · rintro ⟨hmem, hdoomed⟩
    obtain ⟨version, hcurrent⟩ := MemoryStore.mem_table_iff.mp hmem
    refine ⟨version.tid, ?_, fun hroot => hdoomed (Or.inl hroot), ?_, ?_⟩
    · exact MemoryStore.mem_currentWhere_iff.mpr
        ⟨version, hcurrent, rfl, decide_eq_true (hle hcurrent)⟩
    · intro hreachable
      obtain ⟨root, hroot, hreaches⟩ := MemoryStore.mem_reachable_iff.mp hreachable
      rw [List.mem_singleton.mp hroot] at hreaches
      exact hdoomed (Or.inr (Or.inl hreaches))
    · rw [← Bool.not_eq_true, Marked.isDeferred, Bool.and_eq_true, Bool.and_eq_true]
      rintro ⟨⟨hkeeps, hretention⟩, hbound⟩
      apply hdoomed
      exact Or.inr (Or.inr ⟨hkeeps, eq_of_beq hretention, version, hcurrent,
        of_decide_eq_true hbound⟩)

end

section

variable {ν : Type} {settings : PackSettings} {boundary : Tid} {store after : MemoryStore}
  {cache later : Cache ν} {report : PackReport}

/-- What a pack with nothing else going on leaves of a store and of a cache. -/
structure Packed (settings : PackSettings) (boundary : Tid) (store after : MemoryStore)
    (cache later : Cache ν) (report : PackReport) : Prop where
  current (oid : Oid) (version : Version) : after.current[oid]? = some version ↔
    store.current[oid]? = some version ∧ store.Survives settings boundary oid
  /-- A survivor loses the archived versions that have a newer one below the
  boundary. -/
  history (oid : Oid) (tid : Tid) (version : Version) :
    after.history[(oid, tid)]? = some version ↔
      store.history[(oid, tid)]? = some version ∧ store.Survives settings boundary oid ∧
        ¬ ∃ newer, store.Stores oid newer ∧ tid < newer.tid ∧ newer.tid < boundary
  /-- Blobs and log rows are left where a version is. -/
  blobs (oid : Oid) (tid : Tid) (blob : Bytes) : after.blobs[(oid, tid)]? = some blob ↔
    store.blobs[(oid, tid)]? = some blob ∧ ∃ version, after.Stores oid version ∧ version.tid = tid
  log (tid : Tid) (entry : LogEntry) : after.log[tid]? = some entry ↔
    store.log[tid]? = some entry ∧ after.StoresTid tid
  registers : after.keepsHistory = store.keepsHistory ∧ after.lastTid = store.lastTid ∧
    after.nextOid = store.nextOid
  /-- The rows that are left and those that were removed make up the tables. -/
  counts : report.accounts after =
    ⟨store.current.size, store.history.size, store.blobs.size, store.log.size⟩
  cache (oid : Oid) : later.find? oid =
    if oid ∈ store.current ∧ oid ∉ after.current then none else cache.find? oid

theorem accounts_of_nothing (hobjects : report.objectsRemoved = 0)
    (hhistory : report.historyRemoved = 0) (hblobs : report.blobsRemoved = 0)
    (htransactions : report.transactionsRemoved = 0) : report.accounts store =
      ⟨store.current.size, store.history.size, store.blobs.size, store.log.size⟩ := by
  simp [PackReport.accounts, hobjects, hhistory, hblobs, htransactions]

/-- A store without commits has no rows at all. -/
theorem packed_of_lastTid_none (hstamped : store.Stamped) (hnone : store.lastTid = none) :
    Packed settings boundary store store cache cache {} := by
  have hpassed : ∀ {tid}, ¬ store.HasPassed tid := by
    rintro tid ⟨last, hlast, _⟩
    cases hnone.symm.trans hlast
  refine ⟨?_, ?_, ?_, ?_, ⟨rfl, rfl, rfl⟩, accounts_of_nothing rfl rfl rfl rfl, ?_⟩
  · intro oid version
    exact ⟨fun hcurrent => absurd (hstamped.toSound.current_passed hcurrent) hpassed, And.left⟩
  · intro oid tid version
    refine ⟨fun hhistory => ?_, And.left⟩
    obtain ⟨current, hcurrent, _⟩ := hstamped.toSound.history_lt hhistory
    exact absurd (hstamped.toSound.current_passed hcurrent) hpassed
  · intro oid tid blob
    exact ⟨fun hblob => absurd (hstamped.blob_passed hblob) hpassed, And.left⟩
  · intro tid entry
    exact ⟨fun hentry => absurd (hstamped.log_passed hentry) hpassed, And.left⟩
  · intro oid
    rw [if_neg fun hgone => hgone.2 hgone.1]

/-- Deleting exactly the objects that do not survive, and pruning, is all. -/
theorem packed_of_swept (hsound : store.Sound) {doomed : List Oid}
    (hdoomed : ∀ oid, oid ∈ doomed ↔ oid ∈ store.current ∧ ¬ store.Survives settings boundary oid)
    (hcache : ∀ oid, later.find? oid = if oid ∈ doomed then none else cache.find? oid)
    (hcounts : report.accounts (store.swept doomed boundary) =
      ⟨store.current.size, store.history.size, store.blobs.size, store.log.size⟩) :
    Packed settings boundary store (store.swept doomed boundary) cache later report := by
  have hkept : ∀ {oid version}, store.current[oid]? = some version →
      (oid ∉ doomed ↔ store.Survives settings boundary oid) := by
    intro oid version hcurrent
    have hmem : oid ∈ store.current := MemoryStore.mem_table_iff.mpr ⟨version, hcurrent⟩
    rw [hdoomed, not_and_not_right]
    exact ⟨fun h => h hmem, fun h _ => h⟩
  obtain ⟨hkeeps, _, hlast, _⟩ :=
    MemoryStore.prune_frame (store.deleteAll (.ofOids doomed)).2 boundary
  refine ⟨?_, ?_, fun _ _ _ => MemoryStore.blobs_swept hsound,
    fun _ _ => MemoryStore.log_swept hsound,
    ⟨hkeeps, hlast, MemoryStore.nextOid_prune _ boundary⟩, hcounts, ?_⟩
  · intro oid version
    rw [MemoryStore.current_swept]
    exact and_congr_right fun hcurrent => hkept hcurrent
  · intro oid tid version
    rw [MemoryStore.history_swept hsound]
    refine and_congr_right fun hhistory => and_congr_left fun _ => ?_
    obtain ⟨current, hcurrent, _⟩ := hsound.history_lt hhistory
    exact hkept hcurrent
  · intro oid
    rw [hcache]
    by_cases hmem : oid ∈ doomed
    · have hbefore := ((hdoomed oid).mp hmem).1
      rw [if_pos hmem,
        if_pos ⟨hbefore, fun hstays => (MemoryStore.mem_current_swept.mp hstays).2 hmem⟩]
    · rw [if_neg hmem,
        if_neg fun hgone => hgone.2 (MemoryStore.mem_current_swept.mpr ⟨hgone.1, hmem⟩)]

/-- What survives a pack survives another one. -/
theorem Packed.survives (h : Packed settings boundary store after cache later report) {oid : Oid}
    (hmem : oid ∈ after.current) : after.Survives settings boundary oid := by
  have hreaches : ∀ {target}, store.Reaches .root target → after.Reaches .root target := by
    intro target hpath
    induction hpath with
    | refl => exact .refl
    | tail hpath hedge ih =>
        obtain ⟨version, hcurrent, htarget⟩ := hedge
        have hstill := (h.current _ version).mpr ⟨hcurrent, Or.inr (Or.inl hpath)⟩
        exact ih.tail ⟨version, hstill, htarget⟩
  obtain ⟨version, hcurrent⟩ := MemoryStore.mem_table_iff.mp hmem
  obtain ⟨hbefore, hsurvives⟩ := (h.current oid version).mp hcurrent
  rcases hsurvives with hroot | hpath | ⟨hkeeps, hretention, other, hother, hbound⟩
  · exact Or.inl hroot
  · exact Or.inr (Or.inl (hreaches hpath))
  · cases hbefore.symm.trans hother
    exact Or.inr (Or.inr ⟨h.registers.1.trans hkeeps, hretention, version, hcurrent, hbound⟩)

namespace Collector

theorem pack_of_lastTid_none (settings : PackSettings) (boundary : Tid) (hsound : store.Sound)
    (hnone : store.lastTid = none) (cache : Cache ν) :
    ({ settings } : Collector).pack false boundary store cache =
      ⟨⟨.ok {}, store, cache⟩, { settings }⟩ := by
  have hanswer : ObjectStore.lastTid store = .ok none :=
    (hsound.online_eq _).trans (congrArg Except.ok hnone)
  simp [pack, prepare, lock, afterPack_eq, mark, hanswer, bind, Except.bind, pure, Except.pure]

theorem pack_of_lastTid_some (hsound : store.Sound) {snapshot : Tid}
    (hlast : store.lastTid = some snapshot) (cache : Cache ν) :
    ({ settings } : Collector).pack false boundary store cache =
      ⟨(Sweep.ofMarked (store.marked settings boundary snapshot) boundary).run settings false store
        cache, { settings }⟩ := by
  simp [pack, prepare, lock, afterPack_eq, mark_eq hsound hlast]

/-- A pack with nothing else going on deletes and prunes once. -/
theorem pack_alone (settings : PackSettings) (boundary : Tid) (hsound : store.Sound)
    {snapshot : Tid} (hlast : store.lastTid = some snapshot) (cache : Cache ν) :
    ∃ report doomed later, ({ settings } : Collector).pack false boundary store cache =
        ⟨⟨.ok report, store.swept doomed boundary, later⟩, { settings }⟩ ∧
      Packed settings boundary store (store.swept doomed boundary) cache later report := by
  let marked := store.marked settings boundary snapshot
  have hstart : (Sweep.ofMarked marked boundary).Alone store cache marked.candidates.toList boundary
      store cache := by
    refine ⟨hsound, rfl, hlast, Or.inl ⟨rfl, rfl⟩, [], rfl, ?_, fun oid => ?_⟩
    · exact MemoryStore.deleteAll_nil.symm
    · rw [if_neg List.not_mem_nil]
  have hdoomed : ∀ oid, oid ∈ marked.candidates.toList ↔
      oid ∈ store.current ∧ ¬ store.Survives settings boundary oid := fun oid =>
    Std.ExtTreeSet.mem_toList.trans (mem_candidates_marked hsound hlast)
  rw [pack_of_lastTid_some hsound hlast]
  obtain ⟨report, later, hrun, hcache, haccounts⟩ := hstart.run settings
  refine ⟨report, marked.candidates.toList, later, by rw [hrun],
    packed_of_swept hsound hdoomed hcache ?_⟩
  exact haccounts.trans (accounts_of_nothing rfl rfl rfl rfl)

/-- A pack with nothing else going on succeeds, with or without commits to look
at. -/
theorem pack_packed (settings : PackSettings) (boundary : Tid) (hstamped : store.Stamped)
    (cache : Cache ν) :
    ∃ report, (({ settings } : Collector).pack false boundary store cache).result = .ok report ∧
      Packed settings boundary store
        (({ settings } : Collector).pack false boundary store cache).store cache
        (({ settings } : Collector).pack false boundary store cache).cache report := by
  cases hlast : store.lastTid with
  | none =>
      rw [pack_of_lastTid_none settings boundary hstamped.toSound hlast]
      exact ⟨{}, rfl, packed_of_lastTid_none hstamped hlast⟩
  | some snapshot =>
      obtain ⟨report, doomed, later, hpack, hpacked⟩ :=
        pack_alone settings boundary hstamped.toSound hlast cache
      rw [hpack]
      exact ⟨report, rfl, hpacked⟩

/-- A pack of what a pack has left removes nothing. -/
theorem pack_swept (hsound : store.Sound) {doomed : List Oid} {snapshot : Tid}
    (hlast : (store.swept doomed boundary).lastTid = some snapshot)
    (hsurvive : ∀ oid ∈ (store.swept doomed boundary).current,
      (store.swept doomed boundary).Survives settings boundary oid) (cache : Cache ν) :
    ∃ report, ({ settings } : Collector).pack false boundary (store.swept doomed boundary) cache =
        ⟨⟨.ok report, store.swept doomed boundary, cache⟩, { settings }⟩ ∧
      report.accounts (store.swept doomed boundary) =
        ({} : PackReport).accounts (store.swept doomed boundary) := by
  have hagain : ((store.swept doomed boundary).prune boundary).2 = store.swept doomed boundary :=
    MemoryStore.prune_swept hsound
  have hswept : MemoryStore.Sound (store.swept doomed boundary) := hsound.swept
  generalize store.swept doomed boundary = swept at hlast hsurvive hagain hswept ⊢
  let sweep := Sweep.ofMarked (swept.marked settings boundary snapshot) boundary
  have hnothing : sweep.later = [] := by
    apply List.eq_nil_iff_forall_not_mem.mpr
    intro oid hmem
    have hcandidate := (mem_candidates_marked hswept hlast).mp (Std.ExtTreeSet.mem_toList.mp hmem)
    exact hcandidate.2 (hsurvive oid hcandidate.1)
  have haccounts : (sweep.pruned (swept.prune boundary).1).accounts swept =
      sweep.report.accounts swept :=
    (congrArg _ hagain.symm).trans (accounts_pruned boundary)
  refine ⟨sweep.pruned (swept.prune boundary).1, ?_, haccounts⟩
  have hboundary : sweep.boundary = boundary := rfl
  rw [pack_of_lastTid_some hswept hlast, Sweep.run_exhausted hswept rfl hnothing, hboundary,
    hagain]

end Collector

end

/-- A pack with nothing else going on succeeds.  It leaves exactly the objects
that survive, with the versions that are not outdated, and counts what it
removes; exactly the deleted objects leave the cache.  A second one removes
nothing and changes nothing. -/
theorem undisturbed_pack_exact {ν : Type} (keepsHistory : Bool) (actions : List StoreAction)
    (settings : PackSettings) (boundary : Tid) (cache : Cache ν) :
    let store := performAll (MemoryStore.empty keepsHistory) actions
    let collector : Collector := { settings }
    let first := collector.pack false boundary store cache
    let second := collector.pack false boundary first.store first.cache
    (∃ report, first.result = .ok report ∧
      Packed settings boundary store first.store cache first.cache report) ∧
    second.store = first.store ∧ second.cache = first.cache ∧
    ∃ report, second.result = .ok report ∧ report.objectsRemoved = 0 ∧
      report.historyRemoved = 0 ∧ report.blobsRemoved = 0 ∧ report.transactionsRemoved = 0 := by
  have hstamped : MemoryStore.Stamped (performAll (MemoryStore.empty keepsHistory) actions) :=
    (Documented.ofRun keepsHistory actions).toStamped
  generalize performAll (MemoryStore.empty keepsHistory) actions = store at hstamped
  have hsound := hstamped.toSound
  intro _ collector first second
  have hsecond : second = collector.pack false boundary first.store first.cache := rfl
  cases hlast : store.lastTid with
  | none =>
      have hnothing := Collector.pack_of_lastTid_none settings boundary hsound hlast cache
      have hfirst : first = ⟨⟨.ok {}, store, cache⟩, collector⟩ := hnothing
      rw [hfirst, hnothing] at hsecond
      rw [hsecond, hfirst]
      refine ⟨⟨{}, rfl, ?_⟩, rfl, rfl, {}, rfl, rfl, rfl, rfl, rfl⟩
      exact packed_of_lastTid_none hstamped hlast
  | some snapshot =>
      obtain ⟨report, doomed, later, hpack, hpacked⟩ :=
        Collector.pack_alone settings boundary hsound hlast cache
      obtain ⟨again, hrest, haccounts⟩ := Collector.pack_swept hsound
        (hpacked.registers.2.1.trans hlast) (fun _ => hpacked.survives) later
      rw [show first = _ from hpack, hrest] at hsecond
      rw [hsecond, show first = _ from hpack]
      refine ⟨⟨report, rfl, hpacked⟩, rfl, rfl, again, rfl, ?_⟩
      injection haccounts with hobjects hhistory hblobs hlog
      exact ⟨Nat.add_right_cancel hobjects, Nat.add_right_cancel hhistory,
        Nat.add_right_cancel hblobs, Nat.add_right_cancel hlog⟩

end ObjectVault
