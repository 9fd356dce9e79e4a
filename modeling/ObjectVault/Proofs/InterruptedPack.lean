/-
Interrupted packs.  A pack that is cancelled after some of its batches has
deleted the objects of these batches and done nothing else.  What is left of its
candidates are the candidates of the next pack, so it does not matter how often
a pack is interrupted, or how large its batches are.
-/
import ObjectVault.Proofs.UndisturbedPack
import Mathlib.Algebra.Order.Floor.Div

namespace ObjectVault

/-- Whether a pack that is to be cancelled after so many batches is cancelled by
now. -/
def Sweep.isCut (limit : Option Nat) (sweep : Sweep) : Bool := limit.any (· ≤ sweep.report.batches)

/-- Run a sweep that is cancelled as soon as so many batches are deleted, or
never. -/
def Sweep.runUntil [ObjectStore σ] [Invalidator κ] (settings : PackSettings) (limit : Option Nat)
    (sweep : Sweep) (store : σ) (cache : κ) : Swept σ κ :=
  match _going : sweep.step settings (sweep.isCut limit) store cache with
  | .going next store cache => next.runUntil settings limit store cache
  | .done report store => ⟨.ok report, store, cache⟩
  | .failed error => ⟨.error error, store, cache⟩
termination_by sweep.stepsLeft
decreasing_by exact stepsLeft_step_lt _going

/-- A pack that is cancelled after so many batches, or never. -/
def Collector.packUntil [ObjectStore σ] [Invalidator κ] (collector : Collector)
    (limit : Option Nat) (boundary : Tid) (store : σ) (cache : κ) : PackOutcome σ κ where
  toSwept := match collector.prepare (limit = some 0) boundary store with
    | .error error => ⟨.error error, store, cache⟩
    | .ok .nothing => ⟨.ok {}, store, cache⟩
    | .ok (.sweep sweep) => sweep.runUntil collector.settings limit store cache
  collector := collector.afterPack

section

variable {σ κ : Type} [ObjectStore σ] [Invalidator κ] {settings : PackSettings} {sweep : Sweep}
  {store : σ} {cache : κ} {limit : Option Nat}

theorem Sweep.runUntil_eq : sweep.runUntil settings limit store cache =
    match sweep.step settings (sweep.isCut limit) store cache with
    | .going next after later => next.runUntil settings limit after later
    | .done report after => ⟨.ok report, after, cache⟩
    | .failed error => ⟨.error error, store, cache⟩ := by
  rw [Sweep.runUntil]
  split <;> simp only [*]

theorem Sweep.runUntil_none (sweep : Sweep) (store : σ) (cache : κ) :
    sweep.runUntil settings none store cache = sweep.run settings false store cache := by
  fun_induction Sweep.run settings false sweep store cache with
  | case1 sweep store cache next after later hgoing ih =>
      rw [runUntil_eq, isCut, Option.any_none, hgoing]
      exact ih
  | case2 sweep store cache report after hdone =>
      rw [runUntil_eq, isCut, Option.any_none, hdone]
  | case3 sweep store cache error hfailed =>
      rw [runUntil_eq, isCut, Option.any_none, hfailed]

/-- A pack that is never cancelled is a pack. -/
theorem Collector.packUntil_none (collector : Collector) (boundary : Tid) (store : σ) (cache : κ) :
    collector.packUntil none boundary store cache = collector.pack false boundary store cache := by
  rcases hprepared : collector.prepare false boundary store with _ | _ | sweep <;>
    simp [packUntil, pack, hprepared, Sweep.runUntil_none]

/-- One that is cancelled from the start is a pack as well. -/
theorem Collector.packUntil_zero (collector : Collector) (boundary : Tid) (store : σ) (cache : κ) :
    collector.packUntil (some 0) boundary store cache =
      collector.pack true boundary store cache := by
  by_cases hrunning : collector.running <;> simp [packUntil, pack, prepare, lock, hrunning]

/-- Only taking a batch asks whether the pack was cancelled. -/
theorem Sweep.step_uncancelled (hphase : sweep.phase = .next → sweep.later = [])
    (cancelled : Bool) :
    sweep.step settings cancelled store cache = sweep.step settings false store cache := by
  unfold step
  cases hnow : sweep.phase with
  | next => simp [nextBatch, hphase hnow]
  | delete | changes | rescue | prune => rfl

theorem Sweep.step_cancelled (hphase : sweep.phase = .next) (hlater : sweep.later ≠ []) :
    sweep.step settings true store cache =
      .failed (.cancelled sweep.report.objectsRemoved) := by
  simp [step, hphase, nextBatch, hlater]

end

/-- Where a sweep is after so many batches of its start, with nothing else going
on: these batches are deleted and counted, and nothing else has happened. -/
structure Sweep.Between (start : Sweep) (before : MemoryStore) (size count : Nat) (sweep : Sweep)
    (store : MemoryStore) : Prop where
  sound : store.Sound
  guard : store.lastTid = some sweep.guardTid
  phase : sweep.phase = .next
  boundary : sweep.boundary = start.boundary
  later : sweep.later = start.later.drop (count * size)
  deleted : store = (before.deleteAll (.ofOids (start.later.take (count * size)))).2
  accounts : sweep.report.accounts store = start.report.accounts before
  batches : sweep.report.batches = count
  found : sweep.report.reachable = start.report.reachable ∧
    sweep.report.candidatesDeferred = start.report.candidatesDeferred ∧
    sweep.report.remarks = start.report.remarks

namespace Sweep.Between

variable {ν : Type} {settings : PackSettings} {start sweep : Sweep} {before store : MemoryStore}
  {size count : Nat} {limit : Option Nat}

/-- There is a next batch exactly as long as there are fewer than all. -/
theorem later_ne_nil_iff (h : start.Between before size count sweep store) (hsize : 0 < size) :
    sweep.later ≠ [] ↔ count < start.later.length ⌈/⌉ size := by
  rw [h.later, ne_eq, List.drop_eq_nil_iff, ← not_le, ceilDiv_le_iff_le_mul hsize, mul_comm]

/-- The next batch is deleted as a whole. -/
theorem next (h : start.Between before size count sweep store)
    (hsize : size = max settings.batchSize 1) (hmore : count < start.later.length ⌈/⌉ size)
    (hgoing : sweep.isCut limit = false) (cache : Cache ν) :
    ∃ next after later, start.Between before size (count + 1) next after ∧
      sweep.runUntil settings limit store cache = next.runUntil settings limit after later := by
  have hlater : sweep.later ≠ [] := (h.later_ne_nil_iff (by omega)).mpr hmore
  let taken : Sweep := { sweep with
    batch := sweep.later.take size, later := sweep.later.drop size
    attempts := 0, phase := .delete }
  have htaken : sweep.step settings false store cache = .going taken store cache := by
    rw [step_taken h.phase hlater, ← hsize]
  obtain ⟨objects, history, blobs, after, hdelete, hdeleted⟩ :=
    taken.step_deleted settings cache h.sound h.guard rfl
  refine ⟨taken.batchDeleted objects history blobs, after,
    Invalidator.invalidate cache taken.batch, ?_, ?_⟩
  · obtain rfl : (store.deleteAll (.ofOids taken.batch)).2 = after := congrArg Prod.snd hdelete
    have hbatch : taken.batch = (start.later.drop (count * size)).take size :=
      congrArg (List.take size) h.later
    refine ⟨h.sound.change (.deleted taken.batch), h.guard, rfl, h.boundary, ?_, ?_,
      (accounts_batchDeleted hdelete).trans h.accounts, congrArg (· + 1) h.batches, h.found⟩
    · rw [Nat.succ_mul, ← List.drop_drop, ← h.later]
      rfl
    · rw [Nat.succ_mul, List.take_add, ← MemoryStore.deleteAll_append, ← h.deleted, hbatch]
  · rw [runUntil_eq, hgoing, htaken]
    dsimp only
    rw [runUntil_eq, step_uncancelled (fun hphase => by cases hphase), hdeleted]

/-- Batches are deleted as long as the pack is not cancelled. -/
theorem advance (h : start.Between before size count sweep store)
    (hsize : size = max settings.batchSize 1) {stop : Nat} (hle : count ≤ stop)
    (hstop : stop ≤ start.later.length ⌈/⌉ size) (hgoing : ∀ cut, limit = some cut → stop ≤ cut)
    (cache : Cache ν) :
    ∃ next after later, start.Between before size stop next after ∧
      sweep.runUntil settings limit store cache = next.runUntil settings limit after later := by
  induction stop, hle using Nat.le_induction with
  | base => exact ⟨sweep, store, cache, h, rfl⟩
  | succ stop hle ih =>
      obtain ⟨next, after, later, hbetween, hrun⟩ :=
        ih (by omega) fun cut hlimit => (Nat.le_succ stop).trans (hgoing cut hlimit)
      have huncut : next.isCut limit = false := by
        cases limit with
        | none => rfl
        | some cut =>
            have hlt : stop < cut := hgoing cut rfl
            simpa [isCut, hbetween.batches] using hlt
      obtain ⟨last, final, rest, hlast, hfinal⟩ := hbetween.next hsize hstop huncut later
      exact ⟨last, final, rest, hlast, hrun.trans hfinal⟩

/-- After the last batch the history is pruned. -/
theorem finish (h : start.Between before size (start.later.length ⌈/⌉ size) sweep store)
    (hsize : 0 < size) (limit : Option Nat) (cache : Cache ν) :
    ∃ report, sweep.runUntil settings limit store cache =
        ⟨.ok report, before.swept start.later start.boundary, cache⟩ ∧
      report.accounts (before.swept start.later start.boundary) = start.report.accounts before ∧
      report.batches = start.later.length ⌈/⌉ size ∧
      report.reachable = start.report.reachable ∧
      report.candidatesDeferred = start.report.candidatesDeferred ∧
      report.remarks = start.report.remarks := by
  have hnone : sweep.later = [] := by
    by_contra hlater
    exact absurd ((h.later_ne_nil_iff hsize).mp hlater) (lt_irrefl _)
  have hall : start.later.take (start.later.length ⌈/⌉ size * size) = start.later := by
    apply List.take_of_length_le
    rw [mul_comm, ← ceilDiv_le_iff_le_mul hsize]
  have hafter : (store.prune sweep.boundary).2 = before.swept start.later start.boundary := by
    rw [h.deleted, hall, h.boundary, MemoryStore.swept]
  refine ⟨sweep.pruned (store.prune sweep.boundary).1, ?_, ?_, h.batches, h.found⟩
  · rw [runUntil_eq, step_uncancelled fun _ => hnone, step_exhausted h.phase hnone]
    dsimp only
    rw [runUntil_eq, step_uncancelled (fun hphase => by cases hphase), step_prune h.sound rfl]
    simp only [hafter]
    rfl
  · rw [← hafter]
    exact (accounts_pruned sweep.boundary).trans h.accounts

/-- A cancelled sweep stops before its next batch. -/
theorem stop (h : start.Between before size count sweep store) (hsize : 0 < size)
    (hmore : count < start.later.length ⌈/⌉ size) (cache : Cache ν) :
    sweep.runUntil settings (some count) store cache =
      ⟨.error (.cancelled sweep.report.objectsRemoved), store, cache⟩ := by
  have hcut : sweep.isCut (some count) = true := by simp [isCut, h.batches]
  rw [runUntil_eq, hcut, step_cancelled h.phase ((h.later_ne_nil_iff hsize).mpr hmore)]

end Sweep.Between

namespace MemoryStore

variable {store after : MemoryStore} {settings : PackSettings} {boundary snapshot : Tid}
  {gone : List Oid} {oid : Oid}

/-- Exactly these objects are gone, with their history and their blobs. -/
structure Without (store after : MemoryStore) (gone : List Oid) : Prop where
  current (oid : Oid) : after.current[oid]? = if oid ∈ gone then none else store.current[oid]?
  history (oid : Oid) (tid : Tid) :
    after.history[(oid, tid)]? = if oid ∈ gone then none else store.history[(oid, tid)]?
  blobs (oid : Oid) (tid : Tid) :
    after.blobs[(oid, tid)]? = if oid ∈ gone then none else store.blobs[(oid, tid)]?
  /-- The log and all registers are as they were. -/
  rest : { after with current := store.current, history := store.history, blobs := store.blobs } =
    store

theorem without_deleteAll (store : MemoryStore) (gone : List Oid) :
    store.Without (store.deleteAll (.ofOids gone)).2 gone where
  current oid := by simp only [current_deleteAll, OidSet.mem_ofOids]
  history oid tid := by simp only [history_deleteAll, OidSet.mem_ofOids]
  blobs oid tid := blobs_deleteAll gone tid
  rest := rfl

/-- Objects that exist and are listed once are counted one by one. -/
theorem size_deleteAll (hnodup : gone.Nodup) (hmem : ∀ oid ∈ gone, oid ∈ store.current) :
    gone.length + (store.deleteAll (.ofOids gone)).2.current.size = store.current.size := by
  have hgone :
      (store.current.keys.filter fun oid => (OidSet.ofOids gone).contains oid).Perm gone := by
    have hkeys : store.current.keys.Nodup := Std.ExtTreeMap.nodup_keys
    refine (List.perm_ext_iff_of_nodup (hkeys.filter _) hnodup).mpr fun oid => ?_
    rw [List.mem_filter, Std.ExtTreeMap.mem_keys, Std.ExtTreeSet.contains_iff_mem,
      OidSet.mem_ofOids]
    exact and_iff_right_of_imp (hmem oid)
  have hleft : (store.deleteAll (.ofOids gone)).2.current.size =
      (store.current.keys.filter fun oid => !(OidSet.ofOids gone).contains oid).length := by
    rw [deleteAll, ← Std.ExtTreeMap.length_keys, Std.ExtTreeMap.keys_filter_key]
  rw [hleft, ← hgone.length_eq, ← Std.ExtTreeMap.length_keys]
  exact (List.length_eq_length_filter_add _).symm

theorem swept_congr {others : List Oid} (hmem : ∀ oid, oid ∈ gone ↔ oid ∈ others) :
    store.swept gone boundary = store.swept others boundary := by
  have hset : OidSet.ofOids gone = OidSet.ofOids others :=
    Std.ExtTreeSet.ext_mem fun oid => by rw [OidSet.mem_ofOids, OidSet.mem_ofOids, hmem]
  rw [swept, swept, hset]

theorem swept_deleteAll (gone rest : List Oid) :
    (store.deleteAll (.ofOids gone)).2.swept rest boundary =
      store.swept (gone ++ rest) boundary := by
  rw [swept, deleteAll_append, swept]

theorem Without.refersTo (h : store.Without after gone) {source target : Oid}
    (hrefers : after.RefersTo source target) : store.RefersTo source target := by
  obtain ⟨version, hcurrent, hmem⟩ := hrefers
  rw [h.current, Option.ite_none_left_eq_some] at hcurrent
  exact ⟨version, hcurrent.2, hmem⟩

/-- The paths from the root lead through no object that it does not reach. -/
theorem Without.reaches_iff (h : store.Without after gone)
    (hdoomed : ∀ oid ∈ gone, ¬ store.Survives settings boundary oid) :
    after.Reaches .root oid ↔ store.Reaches .root oid := by
  constructor
  · exact Relation.ReflTransGen.mono (fun _ _ => h.refersTo) _ _
  · intro hreaches
    induction hreaches with
    | refl => exact .refl
    | tail hpath hrefers ih =>
        obtain ⟨version, hcurrent, hmem⟩ := hrefers
        refine ih.tail ⟨version, ?_, hmem⟩
        rw [h.current, if_neg fun hgone => hdoomed _ hgone (Or.inr (Or.inl hpath))]
        exact hcurrent

/-- The others survive as before. -/
theorem Without.survives_iff (h : store.Without after gone)
    (hdoomed : ∀ oid ∈ gone, ¬ store.Survives settings boundary oid) (hout : oid ∉ gone) :
    after.Survives settings boundary oid ↔ store.Survives settings boundary oid := by
  have hkeeps : after.keepsHistory = store.keepsHistory := by rw [← h.rest]
  rw [Survives, Survives, h.reaches_iff hdoomed, hkeeps, h.current, if_neg hout]

/-- What is left of the candidates are the candidates of the next mark. -/
theorem swept_candidates (hsound : store.Sound) (hlast : store.lastTid = some snapshot)
    (hgone : ∀ oid ∈ gone, oid ∈ (store.marked settings boundary snapshot).candidates) :
    let after := (store.deleteAll (.ofOids gone)).2
    after.swept (after.marked settings boundary snapshot).candidates.toList boundary =
      store.swept (store.marked settings boundary snapshot).candidates.toList boundary := by
  intro after
  have hwithout : store.Without after gone := store.without_deleteAll gone
  have hdoomed : ∀ oid ∈ gone, ¬ store.Survives settings boundary oid := fun oid hmem =>
    ((mem_candidates_marked hsound hlast).mp (hgone oid hmem)).2
  rw [swept_deleteAll]
  refine swept_congr fun oid => ?_
  have hafter : after.Sound := hsound.change (.deleted gone)
  rw [List.mem_append, Std.ExtTreeSet.mem_toList, Std.ExtTreeSet.mem_toList,
    mem_candidates_marked hafter hlast]
  by_cases hmem : oid ∈ gone
  · exact iff_of_true (Or.inl hmem) (hgone oid hmem)
  · have hheld : oid ∈ after.current ↔ oid ∈ store.current := by
      rw [mem_table_iff, mem_table_iff, hwithout.current, if_neg hmem]
    rw [or_iff_right hmem, mem_candidates_marked hsound hlast, hheld,
      hwithout.survives_iff hdoomed hmem]

end MemoryStore

/-- The report of a pack that leaves such a store. -/
def MemoryStore.reported (store after : MemoryStore) (marked : Marked) (batches : Nat) :
    PackReport where
  objectsRemoved := store.current.size - after.current.size
  historyRemoved := store.history.size - after.history.size
  blobsRemoved := store.blobs.size - after.blobs.size
  transactionsRemoved := store.log.size - after.log.size
  reachable := marked.reachable.size
  candidatesDeferred := marked.deferred
  batches := batches

/-- A report that adds up counts the rows that are gone. -/
theorem PackReport.eq_reported {report : PackReport} {store after : MemoryStore} {marked : Marked}
    {batches : Nat} (hcounts : report.accounts after =
      ⟨store.current.size, store.history.size, store.blobs.size, store.log.size⟩)
    (hbatches : report.batches = batches) (hreachable : report.reachable = marked.reachable.size)
    (hdeferred : report.candidatesDeferred = marked.deferred) (hremarks : report.remarks = 0) :
    report = store.reported after marked batches := by
  injection hcounts with hobjects hhistory hblobs hlog
  cases report
  simp only [MemoryStore.reported, PackReport.mk.injEq]
  exact ⟨Nat.eq_sub_of_add_eq hobjects, Nat.eq_sub_of_add_eq hhistory,
    Nat.eq_sub_of_add_eq hblobs, Nat.eq_sub_of_add_eq hlog, hreachable, hdeferred, hbatches,
    hremarks⟩

namespace Collector

variable {ν : Type} {settings : PackSettings} {boundary snapshot : Tid} {store : MemoryStore}
  {limit : Option Nat}

/-- A pack that is cancelled before it begins has done nothing. -/
theorem pack_cancelled (settings : PackSettings) (boundary : Tid) (store : MemoryStore)
    (cache : Cache ν) : ({ settings } : Collector).pack true boundary store cache =
      ⟨⟨.error (.cancelled 0), store, cache⟩, { settings }⟩ := by
  simp [pack, prepare, lock, afterPack_eq]

theorem packUntil_of_lastTid_none (hsound : store.Sound) (hnone : store.lastTid = none)
    (hlimit : limit ≠ some 0) (cache : Cache ν) :
    ({ settings } : Collector).packUntil limit boundary store cache =
      ⟨⟨.ok {}, store, cache⟩, { settings }⟩ := by
  have hanswer : ObjectStore.lastTid store = .ok none :=
    (hsound.online_eq _).trans (congrArg Except.ok hnone)
  simp [packUntil, prepare, lock, afterPack_eq, hlimit, mark, hanswer, bind, Except.bind, pure,
    Except.pure]

theorem packUntil_of_lastTid_some (hsound : store.Sound) (hlast : store.lastTid = some snapshot)
    (hlimit : limit ≠ some 0) (cache : Cache ν) :
    ({ settings } : Collector).packUntil limit boundary store cache =
      ⟨(Sweep.ofMarked (store.marked settings boundary snapshot) boundary).runUntil settings limit
        store cache, { settings }⟩ := by
  simp [packUntil, prepare, lock, afterPack_eq, hlimit, mark_eq hsound hlast]

/-- A sweep begins with all its batches to come. -/
theorem between_ofMarked (hsound : store.Sound) (hlast : store.lastTid = some snapshot)
    (settings : PackSettings) (boundary : Tid) (size : Nat) :
    let start := Sweep.ofMarked (store.marked settings boundary snapshot) boundary
    start.Between store size 0 start store := by
  refine ⟨hsound, hlast, rfl, rfl, ?_, ?_, rfl, rfl, rfl, rfl, rfl⟩
  · rw [Nat.zero_mul, List.drop_zero]
  · rw [Nat.zero_mul, List.take_zero, MemoryStore.deleteAll_nil]

/-- A pack that is not cancelled before its last batch sweeps all candidates. -/
theorem packUntil_whole (settings : PackSettings) (boundary : Tid) (hsound : store.Sound)
    (hlast : store.lastTid = some snapshot) (hlimit : limit ≠ some 0) (cache : Cache ν)
    (hlate : ∀ cut, limit = some cut →
      (store.marked settings boundary snapshot).candidates.size ⌈/⌉ max settings.batchSize 1 ≤
        cut) :
    let marked := store.marked settings boundary snapshot
    let after := store.swept marked.candidates.toList boundary
    let batches := marked.candidates.size ⌈/⌉ max settings.batchSize 1
    ∃ later, ({ settings } : Collector).packUntil limit boundary store cache =
      ⟨⟨.ok (store.reported after marked batches), after, later⟩, { settings }⟩ := by
  intro marked after batches
  have hlength : marked.candidates.toList.length = marked.candidates.size :=
    Std.ExtTreeSet.length_toList
  have hpos : 0 < max settings.batchSize 1 := by omega
  obtain ⟨next, swept, rest, hbetween, hrun⟩ :=
    (between_ofMarked hsound hlast settings boundary _).advance rfl (Nat.zero_le _)
      (le_refl (marked.candidates.toList.length ⌈/⌉ max settings.batchSize 1))
      (by rwa [hlength]) cache
  obtain ⟨report, hfinish, haccounts, hbatches, hreachable, hdeferred, hremarks⟩ :=
    hbetween.finish hpos limit rest
  rw [packUntil_of_lastTid_some hsound hlast hlimit, hrun, hfinish]
  refine ⟨rest, ?_⟩
  have hreport : report = store.reported after marked batches :=
    PackReport.eq_reported (haccounts.trans (accounts_of_nothing rfl rfl rfl rfl))
      (hbatches.trans (congrArg (· ⌈/⌉ _) hlength)) hreachable hdeferred hremarks
  rw [hreport]
  rfl

/-- A pack that is cancelled between its batches has deleted the first of its
candidates. -/
theorem packUntil_cut (settings : PackSettings) (boundary : Tid) (hsound : store.Sound)
    (hlast : store.lastTid = some snapshot) {cut : Nat} (hcut : 0 < cut)
    (hmore : cut <
      (store.marked settings boundary snapshot).candidates.size ⌈/⌉ max settings.batchSize 1)
    (cache : Cache ν) :
    ∃ gone later, (gone.Nodup ∧
        ∀ oid ∈ gone, oid ∈ (store.marked settings boundary snapshot).candidates) ∧
      ({ settings } : Collector).packUntil (some cut) boundary store cache =
        ⟨⟨.error (.cancelled gone.length), (store.deleteAll (.ofOids gone)).2, later⟩,
          { settings }⟩ := by
  let marked := store.marked settings boundary snapshot
  have hlength : marked.candidates.toList.length = marked.candidates.size :=
    Std.ExtTreeSet.length_toList
  have hpos : 0 < max settings.batchSize 1 := by omega
  have hbefore : cut < marked.candidates.toList.length ⌈/⌉ max settings.batchSize 1 := by
    rwa [hlength]
  obtain ⟨next, after, later, hbetween, hrun⟩ :=
    (between_ofMarked hsound hlast settings boundary _).advance rfl (Nat.zero_le _)
      (le_of_lt hbefore) (fun _ hlimit => (Option.some.inj hlimit).le) cache
  let gone := marked.candidates.toList.take (cut * max settings.batchSize 1)
  have hgone : ∀ oid ∈ gone, oid ∈ marked.candidates := fun oid hmem =>
    Std.ExtTreeSet.mem_toList.mp (List.mem_of_mem_take hmem)
  have hnodup : gone.Nodup := (OidSet.nodup_toList marked.candidates).take
  have hheld : ∀ oid ∈ gone, oid ∈ store.current := fun oid hmem =>
    ((mem_candidates_marked hsound hlast).mp (hgone oid hmem)).1
  refine ⟨gone, later, ⟨hnodup, hgone⟩, ?_⟩
  have hcount : next.report.objectsRemoved = gone.length := by
    have hobjects := congrArg Accounts.objects hbetween.accounts
    have hsize := MemoryStore.size_deleteAll hnodup hheld
    rw [hbetween.deleted] at hobjects
    simp only [PackReport.accounts, Sweep.ofMarked, zero_add] at hobjects
    exact Nat.add_right_cancel (hobjects.trans hsize.symm)
  rw [packUntil_of_lastTid_some hsound hlast (by simpa using hcut.ne'), hrun,
    hbetween.stop hpos hbefore, hcount]
  rw [hbetween.deleted]
  rfl

theorem mark_of_lastTid_none (hsound : store.Sound) (hnone : store.lastTid = none) :
    mark settings store boundary = .ok none := by
  have hanswer : ObjectStore.lastTid store = .ok none :=
    (hsound.online_eq _).trans (congrArg Except.ok hnone)
  simp [mark, hanswer, bind, Except.bind, pure, Except.pure]

/-- What a pack leaves does not depend on whether some of its candidates were
deleted before. -/
theorem pack_deleted (settings : PackSettings) (hsound : store.Sound)
    (hlast : store.lastTid = some snapshot) {gone : List Oid}
    (hgone : ∀ oid ∈ gone, oid ∈ (store.marked settings boundary snapshot).candidates)
    (cache : Cache ν) :
    (({ settings } : Collector).pack false boundary (store.deleteAll (.ofOids gone)).2
      cache).store =
      store.swept (store.marked settings boundary snapshot).candidates.toList boundary := by
  have hafter : MemoryStore.Sound (store.deleteAll (.ofOids gone)).2 :=
    hsound.change (.deleted gone)
  have hnever : (none : Option Nat) ≠ some 0 := by simp
  obtain ⟨later, hpack⟩ := packUntil_whole settings boundary hafter hlast hnever cache (by simp)
  rw [← packUntil_none, hpack]
  exact MemoryStore.swept_candidates hsound hlast hgone

end Collector

/-- The candidates of a mark; an empty store has none. -/
def candidatesOf (marked : Option Marked) : OidSet := marked.elim ∅ Marked.candidates

/-- What packs of one kind come to, whatever the size of their batches: how they
end, where they stop, and how they go on. -/
structure PackPlan (retention : Retention) (boundary : Tid) (store : MemoryStore)
    (marked : Option Marked) (base : PackReport) (after : MemoryStore) : Prop where
  mark_eq (size : Nat) : mark { batchSize := size, retention } store boundary = .ok marked
  ends (ν : Type) (size : Nat) (limit : Option Nat) (cache : Cache ν) : limit ≠ some 0 →
    (∀ cut, limit = some cut → (candidatesOf marked).size ⌈/⌉ max size 1 ≤ cut) →
    ∃ later, ({ settings := { batchSize := size, retention } } : Collector).packUntil limit boundary
        store cache =
      ⟨⟨.ok { base with batches := (candidatesOf marked).size ⌈/⌉ max size 1 }, after, later⟩,
        { settings := { batchSize := size, retention } }⟩
  stops (ν : Type) (size cut : Nat) (cache : Cache ν) : 0 < cut →
    cut < (candidatesOf marked).size ⌈/⌉ max size 1 →
    ∃ gone later, (gone.Nodup ∧ ∀ oid ∈ gone, oid ∈ candidatesOf marked) ∧
      ({ settings := { batchSize := size, retention } } : Collector).packUntil (some cut) boundary
          store cache =
        ⟨⟨.error (.cancelled gone.length), (store.deleteAll (.ofOids gone)).2, later⟩,
          { settings := { batchSize := size, retention } }⟩
  resumes (ν : Type) (size : Nat) (cache : Cache ν) {gone : List Oid} :
    (∀ oid ∈ gone, oid ∈ candidatesOf marked) →
    (({ settings := { batchSize := size, retention } } : Collector).pack false boundary
      (store.deleteAll (.ofOids gone)).2 cache).store = after
  existed (oid : Oid) : oid ∈ candidatesOf marked → oid ∈ store.current

section

variable {store : MemoryStore} {retention : Retention} {boundary : Tid}

/-- A store without commits gives a pack nothing to do. -/
theorem packPlan_of_lastTid_none (hsound : store.Sound) (hnone : store.lastTid = none) :
    PackPlan retention boundary store none {} store where
  mark_eq size := Collector.mark_of_lastTid_none hsound hnone
  ends ν size limit cache hlimit _ := by
    rw [Collector.packUntil_of_lastTid_none hsound hnone hlimit]
    refine ⟨cache, ?_⟩
    simp [candidatesOf]
  stops ν size cut cache _ hmore := by simp [candidatesOf] at hmore
  resumes ν size cache gone hgone := by
    obtain rfl : gone = [] := List.eq_nil_iff_forall_not_mem.mpr fun oid hmem => by
      simpa [candidatesOf] using hgone oid hmem
    rw [MemoryStore.deleteAll_nil, Collector.pack_of_lastTid_none _ boundary hsound hnone]
  existed oid hmem := by simp [candidatesOf] at hmem

theorem packPlan_of_lastTid_some (hsound : store.Sound) {snapshot : Tid}
    (hlast : store.lastTid = some snapshot) :
    let marked := store.marked { retention } boundary snapshot
    let after := store.swept marked.candidates.toList boundary
    PackPlan retention boundary store (some marked) (store.reported after marked 0) after := by
  intro marked after
  exact {
    mark_eq := fun size => mark_eq hsound hlast
    ends := fun ν size limit cache hlimit hlate =>
      Collector.packUntil_whole { batchSize := size, retention } boundary hsound hlast hlimit cache
        hlate
    stops := fun ν size cut cache hcut hmore =>
      Collector.packUntil_cut { batchSize := size, retention } boundary hsound hlast hcut hmore
        cache
    resumes := fun ν size cache gone hgone =>
      Collector.pack_deleted { batchSize := size, retention } hsound hlast hgone cache
    existed := fun oid hmem => ((mem_candidates_marked hsound hlast).mp hmem).1 }

end

/-- What a pack leaves that was cancelled half-way, where a whole one would have
left `whole`: some objects are gone and nothing else has changed.  Any pack can
follow, and one of the same kind completes the work. -/
structure Halfway (retention : Retention) (boundary : Tid) (store after whole : MemoryStore)
    (gone : List Oid) : Prop where
  nodup : gone.Nodup
  existed : ∀ oid ∈ gone, oid ∈ store.current
  without : store.Without after gone
  accepts (ν : Type) (collector : Collector) (later : Tid) (cache : Cache ν) :
    collector.running = false →
      ∃ report, (collector.pack false later after cache).result = .ok report
  resumes (ν : Type) (size : Nat) (cache : Cache ν) :
    (({ settings := { batchSize := size, retention } } : Collector).pack false boundary after
      cache).store = whole

namespace PackPlan

variable {retention : Retention} {boundary : Tid} {store after : MemoryStore} {ν : Type}
  {marked : Option Marked} {base : PackReport}
  (h : PackPlan retention boundary store marked base after)

include h

/-- A pack that is never cancelled ends. -/
theorem pack_eq (size : Nat) (cache : Cache ν) :
    ∃ later, ({ settings := { batchSize := size, retention } } : Collector).pack false boundary
        store cache =
      ⟨⟨.ok { base with batches := (candidatesOf marked).size ⌈/⌉ max size 1 }, after, later⟩,
        { settings := { batchSize := size, retention } }⟩ := by
  rw [← Collector.packUntil_none]
  exact h.ends ν size none cache (by simp) (by simp)

/-- Some candidates may be deleted in advance. -/
theorem halfway (hstamped : store.Stamped) {gone : List Oid} (hnodup : gone.Nodup)
    (hgone : ∀ oid ∈ gone, oid ∈ candidatesOf marked) :
    Halfway retention boundary store (store.deleteAll (.ofOids gone)).2 after gone where
  nodup := hnodup
  existed oid hmem := h.existed oid (hgone oid hmem)
  without := store.without_deleteAll gone
  accepts ν collector later cache hidle := by
    obtain ⟨settings, running⟩ := collector
    subst hidle
    obtain ⟨report, hresult, _⟩ :=
      Collector.pack_packed settings later (hstamped.change (.deleted gone)) cache
    exact ⟨report, hresult⟩
  resumes ν size cache := h.resumes ν size cache hgone

/-- A pack that is cancelled before its last batch is half-way through. -/
theorem cancelled (hstamped : store.Stamped) (size : Nat) (cache : Cache ν) {limit : Nat}
    (hlimit : limit = 0 ∨ limit < (candidatesOf marked).size ⌈/⌉ max size 1) :
    ∃ gone final later,
      ({ settings := { batchSize := size, retention } } : Collector).packUntil (some limit) boundary
          store cache =
        ⟨⟨.error (.cancelled gone.length), final, later⟩,
          { settings := { batchSize := size, retention } }⟩ ∧
      Halfway retention boundary store final after gone := by
  rcases Nat.eq_zero_or_pos limit with rfl | hpos
  · -- Nobody asks after the last batch, but a pack asks before it begins.
    have hhalfway := h.halfway hstamped List.nodup_nil (by simp)
    rw [MemoryStore.deleteAll_nil] at hhalfway
    refine ⟨[], store, cache, ?_, hhalfway⟩
    exact (Collector.packUntil_zero _ boundary store cache).trans
      (Collector.pack_cancelled _ boundary store cache)
  · obtain ⟨gone, later, ⟨hnodup, hgone⟩, hcut⟩ :=
      h.stops ν size limit cache hpos (hlimit.resolve_left hpos.ne')
    exact ⟨gone, _, later, hcut, h.halfway hstamped hnodup hgone⟩

end PackPlan

/-- The size of its batches changes nothing about a pack but how many there are,
and neither does an interruption in the end.  A pack that is cancelled before
its last batch has deleted as many objects as it says and done nothing else.  It
hands its collector back as it found it, and a new pack takes up the work. -/
theorem interrupted_pack_resumes {ν : Type} (keepsHistory : Bool) (actions : List StoreAction)
    (retention : Retention) (boundary : Tid) (size : Nat) (cache : Cache ν) :
    let store := performAll (MemoryStore.empty keepsHistory) actions
    let collector (batchSize : Nat) : Collector := { settings := { batchSize, retention } }
    let whole := (collector size).pack false boundary store cache
    ∃ marked report, mark (collector size).settings store boundary = .ok marked ∧
      whole.result = .ok report ∧
      report.batches = (candidatesOf marked).size ⌈/⌉ max size 1 ∧
      (∀ (other : Nat) (cache : Cache ν),
        let again := (collector other).pack false boundary store cache
        again.store = whole.store ∧ again.result =
          .ok { report with batches := (candidatesOf marked).size ⌈/⌉ max other 1 }) ∧
      ∀ limit : Nat,
        let cut := (collector size).packUntil (some limit) boundary store cache
        cut.collector = collector size ∧
        (limit = 0 ∨ limit < report.batches → ∃ gone,
          cut.result = .error (.cancelled gone.length) ∧
          Halfway retention boundary store cut.store whole.store gone) ∧
        (0 < limit → report.batches ≤ limit →
          cut.result = .ok report ∧ cut.store = whole.store) := by
  intro store collector whole
  have hstamped : store.Stamped := (Documented.ofRun keepsHistory actions).toStamped
  obtain ⟨marked, base, after, hplan⟩ :
      ∃ marked base after, PackPlan retention boundary store marked base after := by
    cases hlast : store.lastTid with
    | none => exact ⟨none, {}, store, packPlan_of_lastTid_none hstamped.toSound hlast⟩
    | some snapshot => exact ⟨_, _, _, packPlan_of_lastTid_some hstamped.toSound hlast⟩
  obtain ⟨rest, hwhole⟩ := hplan.pack_eq size cache
  have hafter : whole.store = after := congrArg (·.store) hwhole
  refine ⟨marked, _, hplan.mark_eq size, congrArg (·.result) hwhole, rfl, ?_, ?_⟩
  · intro other cache
    obtain ⟨later, hagain⟩ := hplan.pack_eq other cache
    exact ⟨(congrArg (·.store) hagain).trans hafter.symm, congrArg (·.result) hagain⟩
  · intro limit cut
    rw [hafter]
    refine ⟨Collector.afterPack_eq (collector size), ?_, ?_⟩
    · intro hlimit
      obtain ⟨gone, final, later, hcut, hhalfway⟩ :=
        hplan.cancelled hstamped size cache hlimit
      rw [show cut = _ from hcut]
      exact ⟨gone, rfl, hhalfway⟩
    · intro hpos hlate
      obtain ⟨later, hcut⟩ := hplan.ends ν size (some limit) cache
        (by simpa using hpos.ne') (fun _ hlimit => Option.some.inj hlimit ▸ hlate)
      exact ⟨congrArg (·.result) hcut, congrArg (·.store) hcut⟩

end ObjectVault
