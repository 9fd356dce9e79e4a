/-
Sweeps under contention.  Every step of a sweep leaves fewer steps to go, so a
sweep ends whatever its store answers.  Beside a memory store a batch is found
stale only if a commit has passed the guard, and the next guard is not below
that commit; so each re-mark has a commit of its own to account for it.
-/
import ObjectVault.Proofs.PackRun
import ObjectVault.Proofs.StampedStore

namespace ObjectVault

/-- What a collector comes upon when it goes on.  The store and the cache need
have nothing to do with those it left, so its call may get any answer. -/
structure PackMoment (σ κ : Type) where
  store : σ
  cache : κ
  cancelled : Bool

/-- The scene once the collector has gone on so many times. -/
def PackScene.course [ObjectStore σ] [Invalidator κ] (settings : PackSettings)
    (scene : PackScene σ κ) (moments : Nat → PackMoment σ κ) : Nat → PackScene σ κ
  | 0 => scene
  | count + 1 =>
      let found := { scene.course settings moments count with
        store := (moments count).store, cache := (moments count).cache }
      found.proceed settings (moments count).cancelled

namespace Sweep

/-- Why a step of a sweep may fail: the pack was cancelled, the batch at hand was
stale once too often, or the store failed. -/
inductive Fails [ObjectStore σ] (sweep : Sweep) (moment : PackMoment σ κ) : PackError → Prop where
  | cancelled (hcancelled : moment.cancelled = true) :
      Fails sweep moment (.cancelled sweep.report.objectsRemoved)
  | contended {last : Tid} {after : σ} (hphase : sweep.phase = .delete)
      (hattempts : maxAttempts < sweep.attempts + 1)
      (hstale : ObjectStore.deleteObjects moment.store sweep.batch sweep.guardTid =
        .ok (.stale last, after)) :
      Fails sweep moment (.contended (sweep.attempts + 1))
  | deleteObjects {error : StoreError}
      (herror : ObjectStore.deleteObjects moment.store sweep.batch sweep.guardTid =
        .error error) : Fails sweep moment (.store error)
  | changesSince {error : StoreError}
      (herror : ObjectStore.changesSince moment.store sweep.guardTid = .error error) :
      Fails sweep moment (.store error)
  | reachableFrom {changed : List Oid} {error : StoreError}
      (herror : ObjectStore.reachableFrom moment.store changed = .error error) :
      Fails sweep moment (.store error)
  | pruneHistory {error : StoreError}
      (herror : ObjectStore.pruneHistory moment.store sweep.boundary = .error error) :
      Fails sweep moment (.store error)

theorem fails_of_step {σ κ : Type} [ObjectStore σ] [Invalidator κ] {settings : PackSettings}
    {sweep : Sweep} {moment : PackMoment σ κ} {error : PackError}
    (h : sweep.step settings moment.cancelled moment.store moment.cache = .failed error) :
    sweep.Fails moment error := by
  unfold step at h
  split at h
  · unfold nextBatch at h
    by_cases hlater : sweep.later.isEmpty
    · simp [hlater] at h
    · by_cases hcancelled : moment.cancelled = true
      · simp only [hlater, hcancelled, Bool.false_eq_true, ↓reduceIte] at h
        cases h
        exact .cancelled hcancelled
      · simp [hlater, hcancelled] at h
  · rename_i hphase
    split at h
    · rename_i herror
      cases h
      exact .deleteObjects herror
    · cases h
    · rename_i hstale
      by_cases hattempts : maxAttempts < sweep.attempts + 1
      · simp only [batchStale, hattempts, ↓reduceIte] at h
        cases h
        exact .contended hphase hattempts hstale
      · simp [batchStale, hattempts] at h
  · split at h
    · rename_i herror
      cases h
      exact .changesSince herror
    · cases h
  · split at h
    · rename_i herror
      cases h
      exact .reachableFrom herror
    · cases h
  · split at h
    · rename_i herror
      cases h
      exact .pruneHistory herror
    · cases h

theorem stepsLeft_pos (sweep : Sweep) : 0 < sweep.stepsLeft := by
  cases hphase : sweep.phase <;> simp only [stepsLeft, stepsInBatch, hphase] <;> omega

theorem stepsLeft_ofMarked (marked : Marked) (boundary : Tid) :
    (ofMarked marked boundary).stepsLeft = stepsPerBatch * marked.candidates.size + 2 := by
  simp [ofMarked, stepsLeft, stepsInBatch]

end Sweep

namespace PackScene

section AnyStore

variable {σ κ : Type} [ObjectStore σ] [Invalidator κ] {settings : PackSettings}
  {scene : PackScene σ κ} {boundary : Tid} {marked : Marked} {sweep : Sweep}

/-- A sweep that goes on has fewer steps to go, or it ends. -/
theorem proceed_sweeping (hstage : scene.stage = .sweeping boundary marked sweep)
    (cancelled : Bool) :
    (∃ next, (scene.proceed settings cancelled).stage = .sweeping boundary marked next ∧
        next.stepsLeft < sweep.stepsLeft) ∨
      ∃ result, (scene.proceed settings cancelled).stage = .ended result ∧
        ∀ error, result = .error error →
          sweep.Fails (⟨scene.store, scene.cache, cancelled⟩ : PackMoment σ κ) error := by
  simp only [proceed, hstage]
  split
  · rename_i next store cache hgoing
    exact Or.inl ⟨next, rfl, Sweep.stepsLeft_step_lt hgoing⟩
  · rename_i report store hdone
    exact Or.inr ⟨.ok report, rfl, by simp⟩
  · rename_i failure hfailed
    refine Or.inr ⟨.error failure, rfl, ?_⟩
    rintro error ⟨⟩
    exact Sweep.fails_of_step hfailed

/-- After so many moments a sweep has ended, or has as many steps fewer to go. -/
theorem course_sweeping (hstage : scene.stage = .sweeping boundary marked sweep)
    (moments : Nat → PackMoment σ κ) (count : Nat) :
    (∃ next, (scene.course settings moments count).stage = .sweeping boundary marked next ∧
        next.stepsLeft + count ≤ sweep.stepsLeft) ∨
      ∃ result, (scene.course settings moments count).stage = .ended result ∧
        ∀ error, result = .error error →
          ∃ place < count, ∃ failing : Sweep, failing.Fails (moments place) error := by
  induction count with
  | zero => exact Or.inl ⟨sweep, hstage, le_refl _⟩
  | succ count ih =>
      rw [course]
      rcases ih with ⟨next, hnext, hleft⟩ | ⟨result, hended, hfails⟩
      · let found : PackScene σ κ := { scene.course settings moments count with
          store := (moments count).store, cache := (moments count).cache }
        have hfound : found.stage = .sweeping boundary marked next := hnext
        rcases proceed_sweeping hfound (moments count).cancelled with
          ⟨later, hlater, hless⟩ | ⟨result, hended, hfails⟩
        · exact Or.inl ⟨later, hlater, by omega⟩
        · exact Or.inr ⟨result, hended, fun error herror =>
            ⟨count, Nat.lt_succ_self count, next, hfails error herror⟩⟩
      · refine Or.inr ⟨result, ?_, fun error herror => ?_⟩
        · simp only [proceed, hended]
        · obtain ⟨place, hplace, hfailed⟩ := hfails error herror
          exact ⟨place, Nat.lt_succ_of_lt hplace, hfailed⟩

/-- A sweep ends within the steps it has to go. -/
theorem course_ends (hstage : scene.stage = .sweeping boundary marked sweep)
    (moments : Nat → PackMoment σ κ) :
    ∃ result, (scene.course settings moments sweep.stepsLeft).stage = .ended result ∧
      ∀ error, result = .error error →
        ∃ place < sweep.stepsLeft, ∃ failing : Sweep, failing.Fails (moments place) error := by
  rcases course_sweeping hstage moments sweep.stepsLeft with ⟨next, _, hleft⟩ | hended
  · have hpos := next.stepsLeft_pos
    omega
  · exact hended

end AnyStore

end PackScene

/-- How many of the tids lie above the one bound and not above the other. -/
def Tid.countBetween (tids : List Tid) (lower upper : Tid) : Nat :=
  tids.countP fun tid => lower < tid && tid ≤ upper

theorem countP_lt_countP {α : Type} {test also : α → Bool} {items : List α} {item : α}
    (hmem : item ∈ items) (htest : test item = false) (halso : also item = true)
    (himp : ∀ item ∈ items, test item = true → also item = true) :
    items.countP test < items.countP also := by
  obtain ⟨front, back, rfl⟩ := List.append_of_mem hmem
  have hfront : front.countP test ≤ front.countP also :=
    List.countP_mono_left fun item hitem => himp item (List.mem_append_left _ hitem)
  have hback : back.countP test ≤ back.countP also :=
    List.countP_mono_left fun item hitem =>
      himp item (List.mem_append_right _ (List.mem_cons_of_mem _ hitem))
  rw [List.countP_append, List.countP_append, List.countP_cons, List.countP_cons, htest, halso]
  simp only [Bool.false_eq_true, ↓reduceIte]
  omega

/-- A tid between two upper bounds is counted below the higher one only. -/
theorem Tid.countBetween_lt {tids : List Tid} {lower middle upper tid : Tid} (hmem : tid ∈ tids)
    (hle : lower ≤ middle) (hlt : middle < tid) (hupper : tid ≤ upper) :
    countBetween tids lower middle < countBetween tids lower upper := by
  refine countP_lt_countP hmem ?_ ?_ fun other _ hother => ?_
  · simp [hlt]
  · simp [lt_of_le_of_lt hle hlt, hupper]
  · simp only [Bool.and_eq_true, decide_eq_true_eq] at hother ⊢
    exact ⟨hother.1, le_of_lt (lt_of_le_of_lt hother.2 (lt_of_lt_of_le hlt hupper))⟩

theorem Tid.countBetween_le (tids : List Tid) (lower upper : Tid) :
    countBetween tids lower upper ≤ tids.countP (lower < ·) := by
  refine List.countP_mono_left fun tid _ hbetween => ?_
  rw [Bool.and_eq_true] at hbetween
  exact hbetween.1

/-- Above all that is counted there is a tid more. -/
theorem Tid.countBetween_lt_countP {tids : List Tid} {lower upper tid : Tid} (hmem : tid ∈ tids)
    (hle : lower ≤ upper) (hlt : upper < tid) :
    countBetween tids lower upper < tids.countP (lower < ·) :=
  lt_of_lt_of_le (countBetween_lt hmem hle hlt (le_refl tid)) (countBetween_le tids lower tid)

/-- The tid that a call beside the collector receives. -/
def PackMove.assigned? [ObjectStore σ] (store : σ) : PackMove → Option Tid
  | .call action => ObjectVault.assigned? store action
  | .mark _ | .sweep .. | .proceed _ => none

/-- The tids of the commits beside the collector in a run, the first one first. -/
def PackScene.committed [ObjectStore σ] [Invalidator κ] (settings : PackSettings)
    (scene : PackScene σ κ) : List PackMove → List Tid
  | [] => []
  | move :: rest =>
      (move.assigned? scene.store).toList ++ (scene.move settings move).committed settings rest

/-- How a sweep stands against the commits so far: those between its snapshot
and its guard pay for its re-marks, and a re-mark under way has one above the
guard. -/
structure Sweep.Charged (tids : List Tid) (snapshot : Tid) (sweep : Sweep) : Prop where
  guard : snapshot ≤ sweep.guardTid
  remarks : sweep.report.remarks ≤ Tid.countBetween tids snapshot sweep.guardTid
  attempts : sweep.attempts ≤ sweep.report.remarks + 1
  delete : sweep.phase = .delete → sweep.attempts ≤ sweep.report.remarks
  changes {last : Tid} : sweep.phase = .changes last → last ∈ tids ∧ sweep.guardTid < last
  rescue {latest : Tid} {changed : List Oid} : sweep.phase = .rescue latest changed →
    ∃ tid ∈ tids, sweep.guardTid < tid ∧ tid ≤ latest

namespace Sweep.Charged

variable {tids : List Tid} {snapshot : Tid} {settings : PackSettings} {sweep next : Sweep}
  {store later : MemoryStore}

theorem ofMarked (tids : List Tid) (marked : Marked) (boundary : Tid) :
    (Sweep.ofMarked marked boundary).Charged tids marked.snapshot := by
  constructor <;> simp [Sweep.ofMarked]

theorem append (h : sweep.Charged tids snapshot) (more : List Tid) :
    sweep.Charged (tids ++ more) snapshot where
  guard := h.guard
  remarks := by
    rw [Tid.countBetween, List.countP_append]
    exact Nat.le_add_right_of_le h.remarks
  attempts := h.attempts
  delete := h.delete
  changes hphase := ⟨List.mem_append_left more (h.changes hphase).1, (h.changes hphase).2⟩
  rescue hphase := by
    obtain ⟨tid, hmem, hbetween⟩ := h.rescue hphase
    exact ⟨tid, List.mem_append_left more hmem, hbetween⟩

/-- A re-mark is paid for by the commit that its new guard covers. -/
theorem rescued (h : sweep.Charged tids snapshot) {latest : Tid} {changed : List Oid}
    (hphase : sweep.phase = .rescue latest changed) (reachable : OidSet) :
    (sweep.rescued latest reachable).Charged tids snapshot := by
  obtain ⟨tid, hmem, hlt, hle⟩ := h.rescue hphase
  have hmore := Tid.countBetween_lt hmem h.guard hlt hle
  have hattempts := h.attempts
  refine ⟨le_of_lt (lt_of_le_of_lt h.guard (lt_of_lt_of_le hlt hle)), ?_, ?_, ?_, ?_, ?_⟩
  · exact Nat.succ_le_of_lt (lt_of_le_of_lt h.remarks hmore)
  · exact Nat.le_succ_of_le hattempts
  · exact fun _ => hattempts
  all_goals
    simp only [Sweep.rescued]
    split <;> simp

/-- Every step of a sweep of a memory store keeps it so, if the last tid is one
of those counted. -/
theorem goes (h : sweep.Charged tids snapshot)
    (hlast : ∀ last, store.lastTid = some last → last ∈ tids)
    (hgoes : sweep.Goes settings store next later) : next.Charged tids snapshot := by
  cases hgoes with
  | exhausted => exact ⟨h.guard, h.remarks, h.attempts, by simp, by simp, by simp⟩
  | taken =>
      exact ⟨h.guard, h.remarks, Nat.zero_le _, fun _ => Nat.zero_le _, by simp, by simp⟩
  | deleted =>
      exact ⟨h.guard, h.remarks, h.attempts, by simp [batchDeleted], by simp [batchDeleted],
        by simp [batchDeleted]⟩
  | stale last hphase hfound hstale =>
      refine ⟨h.guard, h.remarks, Nat.succ_le_succ (h.delete hphase), by simp, ?_, by simp⟩
      rintro _ ⟨⟩
      exact ⟨hlast last hfound, hstale⟩
  | asked last hphase =>
      refine ⟨h.guard, h.remarks, h.attempts, by simp, by simp, ?_⟩
      rintro _ _ ⟨⟩
      obtain ⟨hmem, hlt⟩ := h.changes hphase
      exact ⟨last, hmem, hlt, le_max_right _ _⟩
  | rescued latest changed hphase => exact h.rescued hphase _

end Sweep.Charged

namespace PackScene

variable {κ : Type} {settings : PackSettings} {scene : PackScene MemoryStore κ} {tids : List Tid}

/-- All commits so far are counted, and a sweep stands right against them. -/
structure Charged (tids : List Tid) (scene : PackScene MemoryStore κ) : Prop where
  sound : scene.store.Sound
  last {last : Tid} : scene.store.lastTid = some last → last ∈ tids
  sweeping {boundary : Tid} {marked : Marked} {sweep : Sweep} :
    scene.stage = .sweeping boundary marked sweep → sweep.Charged tids marked.snapshot

theorem charged_start (keepsHistory : Bool) (cache : κ) (marks : List (Tid × Marked)) :
    Charged [] { start (MemoryStore.empty keepsHistory) cache with marks } :=
  ⟨MemoryStore.sound_empty, by simp [start, MemoryStore.empty], by simp [start]⟩

variable [Invalidator κ]

theorem Charged.proceed (h : scene.Charged tids) (cancelled : Bool) :
    (scene.proceed settings cancelled).Charged tids where
  sound := h.sound.change (scene.change_move (.proceed cancelled))
  last hlast := h.last ((scene.lastTid_proceed cancelled).symm.trans hlast)
  sweeping {boundary marked later} hlater := by
    simp only [PackScene.proceed] at hlater
    split at hlater
    · split at hlater <;> cases hlater
    · rename_i hstage
      split at hlater
      · rename_i hgoing
        cases hlater
        exact (h.sweeping hstage).goes (fun _ => h.last) (Sweep.step_going hgoing)
      · cases hlater
      · cases hlater
    · exact h.sweeping hlater
    · exact h.sweeping hlater

/-- Every move keeps account of what it commits. -/
theorem Charged.move (h : scene.Charged tids) (move : PackMove) :
    (scene.move settings move).Charged (tids ++ (move.assigned? scene.store).toList) := by
  cases move with
  | call action =>
      refine ⟨h.sound.change MemoryStore.change_perform, fun {last} hlast => ?_,
        fun hstage => (h.sweeping hstage).append _⟩
      have hnew := (MemoryStore.lastTid_perform h.sound action).symm.trans hlast
      rw [List.mem_append, PackMove.assigned?, Option.mem_toList]
      rcases Option.or_eq_some_iff.mp hnew with hassigned | ⟨_, hold⟩
      · exact Or.inr hassigned
      · exact Or.inl (h.last hold)
  | mark boundary =>
      simp only [PackMove.assigned?, Option.toList, List.append_nil]
      exact ⟨h.sound, h.last, by simp [PackScene.move]⟩
  | sweep place pruned =>
      simp only [PackMove.assigned?, Option.toList, List.append_nil, PackScene.move]
      split
      · refine ⟨h.sound, h.last, ?_⟩
        rintro _ _ _ ⟨⟩
        exact .ofMarked tids _ pruned
      · exact h
  | proceed cancelled =>
      simp only [PackMove.assigned?, Option.toList, List.append_nil]
      exact h.proceed cancelled

theorem Charged.run (h : scene.Charged tids) (moves : List PackMove) :
    (scene.run settings moves).Charged (tids ++ scene.committed settings moves) := by
  induction moves generalizing scene tids with
  | nil => rwa [committed, List.append_nil]
  | cons move rest ih =>
      rw [committed, ← List.append_assoc]
      exact ih (h.move move)

end PackScene

/-- What the next step of a sweep owes to the commits so far. -/
structure Sweep.PaidBy (tids : List Tid) (marked : Marked) (sweep : Sweep) (after : PackStage) :
    Prop where
  /-- A re-mark moves the guard past a commit that was above it. -/
  remark {boundary : Tid} {next : Sweep} : after = .sweeping boundary marked next →
    next.report.remarks = sweep.report.remarks ∨
      next.report.remarks = sweep.report.remarks + 1 ∧
        ∃ tid ∈ tids, sweep.guardTid < tid ∧ tid ≤ next.guardTid
  /-- There are no more re-marks than commits since the snapshot. -/
  remarks {report : PackReport} : after = .ended (.ok report) →
    report.remarks ≤ tids.countP (marked.snapshot < ·)
  /-- The sweep does not give up unless there were more than it has attempts. -/
  uncontended : tids.countP (marked.snapshot < ·) ≤ Sweep.maxAttempts →
    ∀ attempts, after ≠ .ended (.error (.contended attempts))

section

variable {κ : Type} {settings : PackSettings} {scene : PackScene MemoryStore κ}
  {tids : List Tid} {boundary : Tid} {marked : Marked} {sweep : Sweep}

theorem Sweep.Charged.remark {store later : MemoryStore} {snapshot : Tid} {next : Sweep}
    (h : sweep.Charged tids snapshot) (hgoes : sweep.Goes settings store next later) :
    next.report.remarks = sweep.report.remarks ∨
      next.report.remarks = sweep.report.remarks + 1 ∧
        ∃ tid ∈ tids, sweep.guardTid < tid ∧ tid ≤ next.guardTid := by
  cases hgoes with
  | exhausted | taken | deleted | stale | asked => exact Or.inl rfl
  | rescued latest changed hphase => exact Or.inr ⟨rfl, h.rescue hphase⟩

/-- A batch that is stale once too often has had a commit for each time. -/
theorem Sweep.Charged.contended {moment : PackMoment MemoryStore κ} {snapshot : Tid}
    {attempts : Nat} (h : sweep.Charged tids snapshot)
    (hlast : ∀ last, moment.store.lastTid = some last → last ∈ tids)
    (hfails : sweep.Fails moment (.contended attempts)) :
    maxAttempts < tids.countP (snapshot < ·) := by
  cases hfails with
  | contended hphase hattempts hanswer =>
      obtain ⟨hfound, hstale, _⟩ := MemoryStore.deleteObjects_eq_stale hanswer
      have hmore := Tid.countBetween_lt_countP (hlast _ hfound) h.guard hstale
      have hremarks := h.remarks
      have hdelete := h.delete hphase
      omega

theorem PackScene.Charged.paidBy [Invalidator κ] (h : scene.Charged tids)
    (hstage : scene.stage = .sweeping boundary marked sweep) (cancelled : Bool) :
    sweep.PaidBy tids marked (scene.proceed settings cancelled).stage := by
  have hcharged := h.sweeping hstage
  simp only [PackScene.proceed, hstage]
  split
  · rename_i next store cache hgoing
    refine ⟨?_, by simp, by simp⟩
    rintro _ _ ⟨⟩
    exact hcharged.remark (Sweep.step_going hgoing)
  · rename_i report store hdone
    refine ⟨by simp, ?_, by simp⟩
    rintro _ ⟨⟩
    obtain ⟨_, _, _, rfl⟩ := Sweep.prunes_of_step hdone
    exact le_trans hcharged.remarks (Tid.countBetween_le tids marked.snapshot sweep.guardTid)
  · rename_i hfailed
    refine ⟨by simp, by simp, ?_⟩
    rintro hfew attempts ⟨⟩
    have hfails : sweep.Fails (⟨scene.store, scene.cache, cancelled⟩ : PackMoment MemoryStore κ)
        (.contended attempts) := Sweep.fails_of_step hfailed
    exact absurd hfew (not_le_of_gt (hcharged.contended (fun _ => h.last) hfails))

end

/-- A sweep of any mark ends, whatever its calls are answered, and fails only if
it was cancelled, gave up a batch, or its store failed.  Beside a memory store a
re-mark is always due to a commit above the guard, and a sweep gives up only after
more commits since its snapshot than it makes attempts. -/
theorem sweep_ends_accounted (settings : PackSettings) :
    (∀ {σ κ : Type} [ObjectStore σ] [Invalidator κ] (store : σ) (cache : κ) (boundary : Tid)
        (marked : Marked) (pruned : Tid) (moments : Nat → PackMoment σ κ),
      let start : PackScene σ κ :=
        { store, cache, stage := .sweeping boundary marked (.ofMarked marked pruned) }
      let bound := Sweep.stepsPerBatch * marked.candidates.size + 2
      ∃ result, (start.course settings moments bound).stage = .ended result ∧
        ∀ error, result = .error error →
          ∃ place < bound, ∃ failing : Sweep, failing.Fails (moments place) error) ∧
    ∀ {κ : Type} [Invalidator κ] (keepsHistory : Bool) (cache : κ) (marks : List (Tid × Marked))
      (moves : List PackMove),
      let start := { PackScene.start (MemoryStore.empty keepsHistory) cache with marks }
      ∀ boundary marked sweep,
        (start.run settings moves).stage = .sweeping boundary marked sweep →
          ∀ cancelled, sweep.PaidBy (start.committed settings moves) marked
            ((start.run settings moves).proceed settings cancelled).stage := by
  constructor
  · intro σ κ _ _ store cache boundary marked pruned moments start bound
    have hstage : start.stage = .sweeping boundary marked (.ofMarked marked pruned) := rfl
    have hbound : (Sweep.ofMarked marked pruned).stepsLeft = bound :=
      Sweep.stepsLeft_ofMarked marked pruned
    rw [← hbound]
    exact PackScene.course_ends hstage moments
  · intro κ _ keepsHistory cache marks moves start boundary marked sweep hstage cancelled
    have hcharged : start.Charged [] := PackScene.charged_start keepsHistory cache marks
    have hrun : (start.run settings moves).Charged ([] ++ start.committed settings moves) :=
      hcharged.run moves
    rw [List.nil_append] at hrun
    exact hrun.paidBy hstage cancelled

namespace ContentionWitness

def write (word : UInt64) : Write := ⟨⟨word⟩, none, [], ∅, none⟩

/-- A commit lands between a mark and the sweep that follows. -/
def disturbed : List PackMove :=
  [.call (.commit (.ofMicros 10) {} [write 0, write 1]), .mark ⟨0⟩, .proceed false,
    .proceed false, .proceed false, .call (.commit (.ofMicros 20) {} [write 2]), .sweep 0 ⟨0⟩,
    .proceed false, .proceed false, .proceed false]

/-- Nothing else lands before the sweep is about to prune. -/
def settled : List PackMove :=
  disturbed ++ [.proceed false, .proceed false, .proceed false]

def start : PackScene MemoryStore (Cache Unit) :=
  .start (MemoryStore.empty false) (.ofMegabytes 1)

def marked : Marked := ⟨⟨10⟩, .ofOids [.root], .ofOids [⟨1⟩], 0⟩

/-- The batch was found stale, and the re-mark is under way. -/
def stale : Sweep where
  boundary := ⟨0⟩
  guardTid := ⟨10⟩
  batch := [⟨1⟩]
  later := []
  attempts := 1
  phase := .rescue ⟨20⟩ [⟨2⟩]
  report := { reachable := 1 }

def swept : Sweep where
  boundary := ⟨0⟩
  guardTid := ⟨20⟩
  later := []
  attempts := 1
  phase := .prune
  report := { objectsRemoved := 1, reachable := 1, batches := 1, remarks := 1 }

theorem one_remark_for_one_commit :
    (start.run {} disturbed).stage = .sweeping ⟨0⟩ marked stale ∧
      (∃ tid ∈ start.committed {} disturbed, (⟨10⟩ : Tid) < tid ∧ tid ≤ ⟨20⟩) ∧
      (start.run {} settled).stage = .sweeping ⟨0⟩ marked swept ∧
      ((start.run {} settled).proceed {} false).stage = .ended (.ok swept.report) ∧
      swept.report.remarks ≤ (start.committed {} settled).countP (marked.snapshot < ·) := by
  have hstale : (start.run {} disturbed).stage = .sweeping ⟨0⟩ marked stale := by decide +kernel
  have hnext : ((start.run {} disturbed).proceed {} false).stage =
      .sweeping ⟨0⟩ marked (stale.rescued ⟨20⟩ (.ofOids [⟨2⟩])) := by decide +kernel
  have hswept : (start.run {} settled).stage = .sweeping ⟨0⟩ marked swept := by decide +kernel
  have hended : ((start.run {} settled).proceed {} false).stage = .ended (.ok swept.report) := by
    decide +kernel
  have hpaid := (sweep_ends_accounted {}).2 false (.ofMegabytes 1 : Cache Unit) []
  have hremark := ((hpaid disturbed _ _ _ hstale false).remark hnext).resolve_left (by decide)
  exact ⟨hstale, hremark.2, hswept, hended, (hpaid settled _ _ _ hswept false).remarks hended⟩

end ContentionWitness

end ObjectVault
