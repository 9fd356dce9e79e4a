/-
Why a pack spares what is alive.  Each candidate keeps out of reach of the
root through the versions up to the guard.  Work beside the pack cannot change
that, since it only adds versions above all earlier tids; a new guard is taken
only for the candidates that nothing committed up to it leads to.  A batch is
deleted only while no version is above the guard.
-/
import ObjectVault.Proofs.ObjectGraph
import ObjectVault.Proofs.PackRun

namespace ObjectVault

open MemoryStore (Change Evolves)

/-- What holds of an object while a collector may delete it under a guard. -/
structure Candidate (store : MemoryStore) (settings : PackSettings)
    (boundary snapshot guardTid : Tid) (oid : Oid) : Prop where
  not_root : oid ≠ .root
  unreached : ¬ store.ReachesUpto guardTid .root oid
  /-- It is as it was when marked, unless it was written above the guard. -/
  untouched : ∀ version, store.current[oid]? = some version → guardTid < version.tid ∨
    version.tid ≤ snapshot ∧
      Marked.isDeferred store.keepsHistory settings.retention boundary version.tid = false

section

variable {store later : MemoryStore} {settings : PackSettings}
  {boundary snapshot guardTid : Tid} {oid : Oid}

theorem Candidate.evolves (hcandidate : Candidate store settings boundary snapshot guardTid oid)
    (hevolves : Evolves store later) (hpassed : store.HasPassed guardTid) :
    Candidate later settings boundary snapshot guardTid oid where
  not_root := hcandidate.not_root
  unreached hreaches := hcandidate.unreached (hevolves.reachesUpto hpassed hreaches)
  untouched version hcurrent := by
    rw [hevolves.keepsHistory]
    rcases hevolves.current hcurrent with hold | hnew
    · exact hcandidate.untouched version hold
    · exact Or.inl (hnew guardTid hpassed)

/-- All objects written after the guard and up to a later tid are listed. -/
def Covers (store : MemoryStore) (guardTid latest : Tid) (changed : List Oid) : Prop :=
  ∀ (oid : Oid) (version : Version), store.current[oid]? = some version → guardTid < version.tid →
    version.tid ≤ latest → oid ∈ changed

theorem Covers.evolves {latest : Tid} {changed : List Oid}
    (hcovers : Covers store guardTid latest changed) (hevolves : Evolves store later)
    (hpassed : store.HasPassed latest) : Covers later guardTid latest changed := by
  intro oid version hcurrent hlower hupper
  rcases hevolves.current hcurrent with hold | hnew
  · exact hcovers oid version hold hlower hupper
  · exact absurd (hnew latest hpassed) (not_lt_of_ge hupper)

/-- What the changed objects do not reach stays a candidate under the newer
guard: on any path to it, nothing was written since the old one. -/
theorem Candidate.renew {latest : Tid} {changed : List Oid}
    (hcandidate : Candidate store settings boundary snapshot guardTid oid)
    (hcovers : Covers store guardTid latest changed)
    (hunreached : oid ∉ store.reachable changed) :
    Candidate store settings boundary snapshot latest oid where
  not_root := hcandidate.not_root
  unreached hreaches := by
    rcases hreaches.below_or guardTid with
      hbelow | ⟨between, version, hcurrent, hlower, hupper, hon⟩
    · exact hcandidate.unreached hbelow
    · apply hunreached
      have hchanged := hcovers between version hcurrent hlower hupper
      exact MemoryStore.mem_reachable_iff.mpr ⟨between, hchanged, hon⟩
  untouched version hcurrent := by
    rcases hcandidate.untouched version hcurrent with hlower | hold
    · rcases le_or_gt version.tid latest with hupper | hhigh
      · have hchanged := hcovers oid version hcurrent hlower hupper
        exact absurd (MemoryStore.mem_reachable_iff.mpr ⟨oid, hchanged, .refl⟩) hunreached
      · exact Or.inl hhigh
    · exact Or.inr hold

/-- What a mark in progress relies on. -/
def Marking.Guarded (store : MemoryStore) : Marking → Prop
  | .opened => True
  | .dated snapshot => store.HasPassed snapshot
  | .traced snapshot reachable => store.HasPassed snapshot ∧
      ∀ oid, oid ∉ reachable → ¬ store.ReachesUpto snapshot .root oid

/-- What is known of a mark's candidates. -/
def Marked.Guarded (store : MemoryStore) (settings : PackSettings) (boundary : Tid)
    (marked : Marked) : Prop :=
  store.HasPassed marked.snapshot ∧
    ∀ oid ∈ marked.candidates,
      Candidate store settings boundary marked.snapshot marked.snapshot oid

theorem Marking.Guarded.evolves {marking : Marking} (hguarded : marking.Guarded store)
    (hevolves : Evolves store later) : marking.Guarded later := by
  cases marking with
  | opened => trivial
  | dated snapshot => exact hevolves.passed hguarded
  | traced snapshot reachable =>
      obtain ⟨hpassed, hunreached⟩ := hguarded
      refine ⟨hevolves.passed hpassed, fun oid hout hreaches => ?_⟩
      exact hunreached oid hout (hevolves.reachesUpto hpassed hreaches)

theorem Marked.Guarded.evolves {marked : Marked} (hguarded : marked.Guarded store settings boundary)
    (hevolves : Evolves store later) : marked.Guarded later settings boundary :=
  ⟨hevolves.passed hguarded.1, fun oid hmem => (hguarded.2 oid hmem).evolves hevolves hguarded.1⟩

theorem Marked.mem_candidates_select {isDeferred : Tid → Bool} {snapshot : Tid}
    {reachable : OidSet} {listed : List (Oid × Tid)} {oid : Oid} :
    oid ∈ (select isDeferred snapshot reachable listed).candidates ↔
      ∃ tid, (oid, tid) ∈ listed ∧ oid ≠ .root ∧ oid ∉ reachable ∧ isDeferred tid = false := by
  have hcontains : reachable.contains oid = false ↔ oid ∉ reachable := by
    rw [← Std.ExtTreeSet.contains_iff_mem, Bool.not_eq_true]
  simp only [select, Oid.isRoot, List.partition_eq_filter_filter, List.filter_filter,
    Function.comp_apply, OidSet.mem_ofOids, List.mem_map, List.mem_filter, Bool.and_eq_true,
    Bool.not_eq_eq_eq_not, Bool.not_true, beq_eq_false_iff_ne, Prod.exists, exists_and_right,
    exists_eq_right, hcontains]
  constructor
  · rintro ⟨tid, hlisted, hkept, hroot, hout⟩
    exact ⟨tid, hlisted, hroot, hout, hkept⟩
  · rintro ⟨tid, hlisted, hroot, hout, hkept⟩
    exact ⟨tid, hlisted, hkept, hroot, hout⟩

/-- While a mark goes on, it asks for the last tid and then for what the root
reaches. -/
theorem Marking.ask_going {marking next : Marking}
    (h : marking.ask settings boundary store = .ok (.inl next)) :
    (∃ snapshot, store.lastTid = some snapshot ∧ next = .dated snapshot) ∨
      ∃ snapshot, marking = .dated snapshot ∧
        next = .traced snapshot (store.reachable [.root]) := by
  cases marking with
  | opened =>
      obtain ⟨last, hlast, hnext⟩ := bind_eq_ok.mp h
      cases last with
      | none => cases hnext
      | some snapshot =>
          cases hnext
          exact Or.inl ⟨snapshot, Except.ok.inj (MemoryStore.online_eq_ok hlast).2, rfl⟩
  | dated snapshot =>
      obtain ⟨reachable, hreach, hnext⟩ := bind_eq_ok.mp h
      cases hnext
      rw [← Except.ok.inj (MemoryStore.online_eq_ok hreach).2]
      exact Or.inr ⟨snapshot, rfl, rfl⟩
  | traced snapshot reachable =>
      obtain ⟨listed, _, hnext⟩ := bind_eq_ok.mp h
      cases hnext

/-- A mark with candidates is complete once it has listed the objects up to
its snapshot. -/
theorem Marking.ask_complete {marking : Marking} {marked : Marked}
    (h : marking.ask settings boundary store = .ok (.inr (some marked))) :
    ∃ snapshot reachable, marking = .traced snapshot reachable ∧
      marked = .select (Marked.isDeferred store.keepsHistory settings.retention boundary)
        snapshot reachable (store.currentWhere (· ≤ snapshot)) := by
  cases marking with
  | opened =>
      obtain ⟨last, _, hnext⟩ := bind_eq_ok.mp h
      cases last <;> cases hnext
  | dated snapshot =>
      obtain ⟨reachable, _, hnext⟩ := bind_eq_ok.mp h
      cases hnext
  | traced snapshot reachable =>
      obtain ⟨listed, hlisted, hnext⟩ := bind_eq_ok.mp h
      cases hnext
      rw [← Except.ok.inj (MemoryStore.online_eq_ok hlisted).2]
      exact ⟨snapshot, reachable, rfl, rfl⟩

theorem Marking.Guarded.ask {marking next : Marking} (hguarded : marking.Guarded store)
    (h : marking.ask settings boundary store = .ok (.inl next)) : next.Guarded store := by
  rcases ask_going h with ⟨snapshot, hlast, rfl⟩ | ⟨snapshot, rfl, rfl⟩
  · exact ⟨snapshot, hlast, le_refl _⟩
  · refine ⟨hguarded, fun oid hout hreaches => hout ?_⟩
    exact MemoryStore.mem_reachable_iff.mpr ⟨.root, List.mem_singleton.mpr rfl, hreaches.reaches⟩

theorem Marking.Guarded.complete {marking : Marking} {marked : Marked}
    (hguarded : marking.Guarded store)
    (h : marking.ask settings boundary store = .ok (.inr (some marked))) :
    marked.Guarded store settings boundary := by
  obtain ⟨snapshot, reachable, rfl, rfl⟩ := ask_complete h
  refine ⟨hguarded.1, fun oid hmem => ?_⟩
  obtain ⟨tid, hlisted, hroot, hout, hkept⟩ := Marked.mem_candidates_select.mp hmem
  refine ⟨hroot, hguarded.2 oid hout, fun version hcurrent => Or.inr ?_⟩
  obtain ⟨listed, hfound, rfl, hle⟩ := MemoryStore.mem_currentWhere_iff.mp hlisted
  cases hcurrent.symm.trans hfound
  exact ⟨of_decide_eq_true hle, hkept⟩

/-- What a sweep relies on.  In the middle of a re-mark it also relies on the
answers it has so far. -/
structure Sweep.Guarded (store : MemoryStore) (settings : PackSettings) (boundary snapshot : Tid)
    (sweep : Sweep) : Prop where
  passed : store.HasPassed sweep.guardTid
  candidates {oid : Oid} : sweep.Waits oid →
    Candidate store settings boundary snapshot sweep.guardTid oid
  changes {last : Tid} : sweep.phase = .changes last → store.HasPassed last
  rescue {latest : Tid} {changed : List Oid} : sweep.phase = .rescue latest changed →
    store.HasPassed latest ∧ Covers store sweep.guardTid latest changed

variable {sweep next : Sweep}

theorem Sweep.Guarded.evolves (hguarded : sweep.Guarded store settings boundary snapshot)
    (hevolves : Evolves store later) : sweep.Guarded later settings boundary snapshot where
  passed := hevolves.passed hguarded.passed
  candidates hwaits := (hguarded.candidates hwaits).evolves hevolves hguarded.passed
  changes hphase := hevolves.passed (hguarded.changes hphase)
  rescue hphase := by
    obtain ⟨hpassed, hcovers⟩ := hguarded.rescue hphase
    exact ⟨hevolves.passed hpassed, hcovers.evolves hevolves hpassed⟩

/-- A sweep that forgets candidates and keeps its guard stays guarded. -/
theorem Sweep.Guarded.shrink (hguarded : sweep.Guarded store settings boundary snapshot)
    (hguard : next.guardTid = sweep.guardTid) (hwaits : ∀ oid, next.Waits oid → sweep.Waits oid)
    (hphase : next.phase = .next ∨ next.phase = .delete ∨ next.phase = .prune) :
    next.Guarded store settings boundary snapshot := by
  constructor
  · rw [hguard]
    exact hguarded.passed
  · intro oid hstill
    rw [hguard]
    exact hguarded.candidates (hwaits oid hstill)
  · intro last hchanges
    simp [hchanges] at hphase
  · intro latest changed hrescue
    simp [hrescue] at hphase

/-- The objects above the guard are what a re-mark has to start from. -/
theorem covers_currentWhere {latest : Tid} :
    Covers store guardTid latest ((store.currentWhere (guardTid < ·)).map Prod.fst) := by
  intro oid version hcurrent hlower _
  refine List.mem_map.mpr ⟨(oid, version.tid), ?_, rfl⟩
  exact MemoryStore.mem_currentWhere_iff.mpr ⟨version, hcurrent, rfl, decide_eq_true hlower⟩

theorem Sweep.waits_rescued {latest : Tid} {reachable : OidSet} :
    (sweep.rescued latest reachable).Waits oid ↔ sweep.Waits oid ∧ oid ∉ reachable := by
  simp only [Waits, rescued, List.mem_filter, Bool.not_eq_true', Bool.eq_false_iff, ne_eq,
    Std.ExtTreeSet.contains_iff_mem, or_and_right]

theorem Sweep.Guarded.rescued {latest : Tid} {changed : List Oid}
    (hguarded : sweep.Guarded store settings boundary snapshot)
    (hphase : sweep.phase = .rescue latest changed) :
    (sweep.rescued latest (store.reachable changed)).Guarded store settings boundary snapshot := by
  obtain ⟨hpassed, hcovers⟩ := hguarded.rescue hphase
  refine ⟨hpassed, ?_, ?_, ?_⟩
  · intro oid hwaits
    obtain ⟨hbefore, hout⟩ := waits_rescued.mp hwaits
    exact (hguarded.candidates hbefore).renew hcovers hout
  all_goals
    simp only [Sweep.rescued]
    split <;> simp

/-- Every step of a sweep keeps it guarded. -/
theorem Sweep.Guarded.goes (hguarded : sweep.Guarded store settings boundary snapshot)
    (hgoes : sweep.Goes settings store next later) :
    next.Guarded later settings boundary snapshot := by
  cases hgoes with
  | exhausted => exact hguarded.shrink rfl (fun _ => id) (by simp)
  | taken =>
      refine hguarded.shrink rfl ?_ (by simp)
      rintro oid (htaken | hleft)
      · exact Or.inr (List.mem_of_mem_take htaken)
      · exact Or.inr (List.mem_of_mem_drop hleft)
  | deleted =>
      have hchange : Change store (store.deleteAll (.ofOids sweep.batch)).2 := .deleted sweep.batch
      refine (hguarded.evolves hchange.evolves).shrink rfl ?_ (by simp [batchDeleted])
      rintro oid (hmem | hmem)
      · cases hmem
      · exact Or.inr hmem
  | stale last _ hlast =>
      refine ⟨hguarded.passed, hguarded.candidates, ?_, by simp⟩
      rintro _ ⟨⟩
      exact ⟨last, hlast, le_refl _⟩
  | asked last hphase =>
      refine ⟨hguarded.passed, hguarded.candidates, by simp, ?_⟩
      rintro _ _ ⟨⟩
      obtain ⟨top, htop, hle⟩ := hguarded.changes hphase
      refine ⟨⟨top, htop, ?_⟩, covers_currentWhere⟩
      rw [htop]
      exact max_le (le_refl top) hle
  | rescued latest changed hphase => exact hguarded.rescued hphase

theorem Marked.Guarded.ofMarked {marked : Marked}
    (hguarded : marked.Guarded store settings boundary) (pruned : Tid) :
    (Sweep.ofMarked marked pruned).Guarded store settings boundary marked.snapshot := by
  refine ⟨hguarded.1, ?_, by simp [Sweep.ofMarked], by simp [Sweep.ofMarked]⟩
  rintro oid (hmem | hmem)
  · cases hmem
  · exact hguarded.2 oid (Std.ExtTreeSet.mem_toList.mp hmem)

namespace PackScene

variable {scene : PackScene MemoryStore κ}

/-- What a collector relies on in each stage. -/
structure Guarded (settings : PackSettings) (scene : PackScene MemoryStore κ) : Prop where
  marks {boundary : Tid} {found : Marked} : (boundary, found) ∈ scene.marks →
    found.Guarded scene.store settings boundary
  marking {boundary : Tid} {progress : Marking} : scene.stage = .marking boundary progress →
    progress.Guarded scene.store
  sweeping {boundary : Tid} {found : Marked} {sweep : Sweep} :
    scene.stage = .sweeping boundary found sweep →
      sweep.Guarded scene.store settings boundary found.snapshot

theorem Guarded.evolves (hguarded : scene.Guarded settings) (hevolves : Evolves scene.store later) :
    Guarded settings { scene with store := later } where
  marks hmem := (hguarded.marks hmem).evolves hevolves
  marking hstage := (hguarded.marking hstage).evolves hevolves
  sweeping hstage := (hguarded.sweeping hstage).evolves hevolves

theorem guarded_start {cache : κ} : (start store cache).Guarded settings := by
  constructor <;> simp [start]

variable [Invalidator κ]

/-- A mark goes on, or its result is kept, or it ends without one. -/
theorem Guarded.proceed_marking {boundary : Tid} {progress : Marking} {cancelled : Bool}
    (hguarded : scene.Guarded settings) (hstage : scene.stage = .marking boundary progress) :
    (scene.proceed settings cancelled).store = scene.store ∧
      (scene.proceed settings cancelled).Guarded settings := by
  have hprogress := hguarded.marking hstage
  simp only [proceed, hstage]
  split
  · rename_i next hask
    refine ⟨rfl, hguarded.marks, ?_, by simp⟩
    rintro _ _ ⟨⟩
    exact hprogress.ask hask
  · rename_i found hask
    refine ⟨rfl, ?_, by simp, by simp⟩
    intro marksBoundary earlier hmem
    rcases List.mem_cons.mp hmem with hfound | hearlier
    · cases hfound
      exact hprogress.complete hask
    · exact hguarded.marks hearlier
  · exact ⟨rfl, hguarded.marks, by simp, by simp⟩
  · exact ⟨rfl, hguarded.marks, by simp, by simp⟩

theorem Guarded.proceed_sweeping {boundary : Tid} {found : Marked} {sweep : Sweep}
    {cancelled : Bool} (hguarded : scene.Guarded settings)
    (hstage : scene.stage = .sweeping boundary found sweep) :
    Change scene.store (scene.proceed settings cancelled).store ∧
      (scene.proceed settings cancelled).Guarded settings := by
  have hsweep := hguarded.sweeping hstage
  simp only [proceed, hstage]
  split
  · rename_i next store cache hgoing
    have hgoes := Sweep.step_going hgoing
    have hchange := hgoes.change
    refine ⟨hchange, (hguarded.evolves hchange.evolves).marks, by simp, ?_⟩
    rintro _ _ _ ⟨⟩
    exact hsweep.goes hgoes
  · rename_i report store hdone
    obtain ⟨_, rfl⟩ := Sweep.step_done hdone
    have hchange : Change scene.store (scene.store.prune sweep.boundary).2 := .pruned sweep.boundary
    exact ⟨hchange, (hguarded.evolves hchange.evolves).marks, by simp, by simp⟩
  · exact ⟨.none, hguarded.marks, by simp, by simp⟩

/-- Every move is a change of the store and keeps the collector guarded. -/
theorem Guarded.move (hguarded : scene.Guarded settings) (move : PackMove) :
    Change scene.store (scene.move settings move).store ∧
      (scene.move settings move).Guarded settings := by
  cases move with
  | call action =>
      have hchange : Change scene.store (perform scene.store action) := MemoryStore.change_perform
      exact ⟨hchange, hguarded.evolves hchange.evolves⟩
  | mark boundary =>
      refine ⟨.none, hguarded.marks, ?_, by simp [PackScene.move]⟩
      rintro _ _ ⟨⟩
      trivial
  | sweep place pruned =>
      cases hplace : scene.marks[place]? with
      | none =>
          simp only [PackScene.move, hplace]
          exact ⟨.none, hguarded⟩
      | some pair =>
          obtain ⟨boundary, found⟩ := pair
          have hfound := hguarded.marks (List.mem_of_getElem? hplace)
          simp only [PackScene.move, hplace]
          refine ⟨.none, hguarded.marks, by simp, ?_⟩
          rintro _ _ _ ⟨⟩
          exact hfound.ofMarked pruned
  | proceed cancelled =>
      cases hstage : scene.stage with
      | marking boundary progress =>
          obtain ⟨hsame, hstill⟩ := hguarded.proceed_marking hstage
          exact ⟨hsame ▸ .none, hstill⟩
      | sweeping boundary found sweep => exact hguarded.proceed_sweeping hstage
      | idle | ended =>
          simp only [PackScene.move, proceed, hstage]
          exact ⟨.none, hguarded⟩

end PackScene

end

namespace RescueWitness

def write (word : UInt64) (expected : Option Tid) (refs : List Oid) : Write :=
  ⟨⟨word⟩, expected, [], .ofOids refs, none⟩

def settings : PackSettings := { batchSize := 2, retention := .keepAfterBoundary }

/-- After marking, the root comes to refer to the first of three candidates,
and that one refers to the second. -/
def moves : List PackMove :=
  [.call (.commit (.ofMicros 10) {}
      [write 0 none [], write 5 none [⟨6⟩], write 6 none [], write 9 none []]),
    .mark ⟨11⟩, .proceed false, .proceed false, .proceed false,
    .call (.commit (.ofMicros 20) {} [write 0 (some ⟨10⟩) [⟨5⟩]]),
    .sweep 0 ⟨11⟩, .proceed false, .proceed false, .proceed false, .proceed false, .proceed false]

def scene : PackScene MemoryStore (Cache Unit) :=
  (PackScene.start (MemoryStore.empty true) (.ofMegabytes 1)).run settings moves

def marked : Marked where
  snapshot := ⟨10⟩
  reachable := .ofOids [.root]
  candidates := .ofOids [⟨5⟩, ⟨6⟩, ⟨9⟩]
  deferred := 0

/-- The sweep was found stale once and is about to delete the third candidate. -/
def sweep : Sweep where
  boundary := ⟨11⟩
  guardTid := ⟨20⟩
  batch := [⟨9⟩]
  later := []
  phase := .delete
  report := { reachable := 1, remarks := 1 }

end RescueWitness

end ObjectVault
