/-
Packs beside other work.  A mark asks the store three questions, and a sweep
makes at most one store call in each of its steps.  Between any two of these
calls other clients and other collectors may call the same store.  What a step
of a sweep can do to a memory store is stated once.
-/
import ObjectVault.Collector
import ObjectVault.Proofs.StoreRun

namespace ObjectVault

/-- What a mark in progress has learned. -/
inductive Marking where
  | opened
  | dated (snapshot : Tid)
  | traced (snapshot : Tid) (reachable : OidSet)
deriving DecidableEq

namespace Marking

/-- Ask the next question.  The mark then goes on or is complete. -/
def ask [ObjectStore σ] (settings : PackSettings) (boundary : Tid) (store : σ) :
    Marking → Except StoreError (Marking ⊕ Option Marked)
  | .opened => do
      match ← ObjectStore.lastTid store with
      | some snapshot => return .inl (.dated snapshot)
      | none => return .inr none
  | .dated snapshot => do
      return .inl (.traced snapshot (← ObjectStore.reachableFrom store [.root]))
  | .traced snapshot reachable => do
      let isDeferred :=
        Marked.isDeferred (ObjectStore.keepsHistory store) settings.retention boundary
      let listed ← ObjectStore.committedUpto store snapshot
      return .inr (some (.select isDeferred snapshot reachable listed))

/-- Ask at most so many questions with nothing else going on. -/
def askAll [ObjectStore σ] (settings : PackSettings) (boundary : Tid) (store : σ) :
    Nat → Marking → Except StoreError (Option Marked)
  | 0, _ => return none
  | count + 1, marking => do
      match ← marking.ask settings boundary store with
      | .inl next => next.askAll settings boundary store count
      | .inr marked => return marked

/-- Marking is asking the three questions in a row. -/
theorem mark_eq_askAll [ObjectStore σ] {settings : PackSettings} {boundary : Tid} {store : σ} :
    mark settings store boundary = opened.askAll settings boundary store 3 := by
  unfold mark
  cases hlast : ObjectStore.lastTid store with
  | error => simp [askAll, ask, hlast, bind, Except.bind]
  | ok last =>
      cases last with
      | none => simp [askAll, ask, hlast, bind, Except.bind, pure, Except.pure]
      | some snapshot =>
          cases hreach : ObjectStore.reachableFrom store [.root] <;>
            cases hlisted : ObjectStore.committedUpto store snapshot <;>
            simp [askAll, ask, hlast, hreach, hlisted, bind, Except.bind, pure, Except.pure]

end Marking

namespace Sweep

section AnyStore

variable {σ κ : Type} [ObjectStore σ] [Invalidator κ] {settings : PackSettings} {cancelled : Bool}
  {sweep next : Sweep} {store after : σ} {cache later : κ}

/-- What a step that does not end a sweep does to a store and to the cache beside
it. -/
inductive Touches (sweep : Sweep) (store : σ) (cache : κ) : σ → κ → Prop where
  | nothing : Touches sweep store cache store cache
  /-- The objects of the batch are deleted and then invalidated. -/
  | deleted {objects history blobs : Nat} {after : σ}
      (hdelete : ObjectStore.deleteObjects store sweep.batch sweep.guardTid =
        .ok (.deleted objects history blobs, after)) :
      Touches sweep store cache after (Invalidator.invalidate cache sweep.batch)
  | stale {last : Tid} {after : σ}
      (hdelete : ObjectStore.deleteObjects store sweep.batch sweep.guardTid =
        .ok (.stale last, after)) : Touches sweep store cache after cache

theorem touches_of_step (h : sweep.step settings cancelled store cache = .going next after later) :
    Touches sweep store cache after later := by
  unfold step at h
  split at h
  · split at h
    · cases h
      exact .nothing
    · cases h
  · split at h
    · cases h
    · rename_i hdelete
      cases h
      exact .deleted hdelete
    · rename_i hdelete
      split at h
      · cases h
        exact .stale hdelete
      · cases h
  · split at h
    · cases h
    · cases h
      exact .nothing
  · split at h
    · cases h
    · cases h
      exact .nothing
  · split at h <;> cases h

/-- A sweep ends well by pruning. -/
theorem prunes_of_step {report : PackReport}
    (h : sweep.step settings cancelled store cache = .done report after) :
    sweep.phase = .prune ∧
      ∃ counts, ObjectStore.pruneHistory store sweep.boundary = .ok (counts, after) ∧
        report = sweep.pruned counts := by
  unfold step at h
  split at h
  · split at h <;> cases h
  · split at h
    · cases h
    · cases h
    · split at h <;> cases h
  · split at h <;> cases h
  · split at h <;> cases h
  · rename_i hphase
    split at h
    · cases h
    · rename_i hprune
      cases h
      exact ⟨hphase, _, hprune, rfl⟩

end AnyStore

/-- The candidates a sweep still has to deal with. -/
def Waits (sweep : Sweep) (oid : Oid) : Prop := oid ∈ sweep.batch ∨ oid ∈ sweep.later

/-- The steps of a sweep of a memory store that do not end it. -/
inductive Goes (settings : PackSettings) (sweep : Sweep) (store : MemoryStore) :
    Sweep → MemoryStore → Prop where
  | exhausted (hphase : sweep.phase = .next) (hlater : sweep.later = []) :
      Goes settings sweep store { sweep with phase := .prune } store
  | taken (size : Nat) (hphase : sweep.phase = .next) (hsize : size = max settings.batchSize 1) :
      Goes settings sweep store
        { sweep with
          batch := sweep.later.take size, later := sweep.later.drop size
          attempts := 0, phase := .delete } store
  | deleted (objects history blobs : Nat) (hphase : sweep.phase = .delete)
      (hguard : ∀ last, store.lastTid = some last → last ≤ sweep.guardTid) :
      Goes settings sweep store (sweep.batchDeleted objects history blobs)
        (store.deleteAll (.ofOids sweep.batch)).2
  | stale (last : Tid) (hphase : sweep.phase = .delete) (hlast : store.lastTid = some last)
      (hstale : sweep.guardTid < last) :
      Goes settings sweep store
        { sweep with attempts := sweep.attempts + 1, phase := .changes last } store
  | asked (last : Tid) (hphase : sweep.phase = .changes last) :
      Goes settings sweep store
        { sweep with
          phase := .rescue (max (store.lastTid.getD last) last)
            ((store.currentWhere (sweep.guardTid < ·)).map Prod.fst) } store
  | rescued (latest : Tid) (changed : List Oid) (hphase : sweep.phase = .rescue latest changed) :
      Goes settings sweep store (sweep.rescued latest (store.reachable changed)) store

theorem step_going [Invalidator κ] {settings : PackSettings} {cancelled : Bool}
    {sweep next : Sweep} {store later : MemoryStore} {cache cache' : κ}
    (h : sweep.step settings cancelled store cache = .going next later cache') :
    Goes settings sweep store next later := by
  unfold step at h
  split at h
  · rename_i hphase
    unfold nextBatch at h
    by_cases hlater : sweep.later.isEmpty
    · simp only [hlater, ↓reduceIte] at h
      cases h
      exact .exhausted hphase (List.isEmpty_iff.mp hlater)
    · cases cancelled
      · simp only [hlater, Bool.false_eq_true, ↓reduceIte] at h
        cases h
        exact .taken _ hphase rfl
      · simp [hlater] at h
  · rename_i hphase
    split at h
    · cases h
    · rename_i hdeleted
      cases h
      obtain ⟨hguard, rfl⟩ := MemoryStore.deleteObjects_eq_deleted hdeleted
      exact .deleted _ _ _ hphase hguard
    · rename_i last _ hanswer
      obtain ⟨hlast, hstale, rfl⟩ := MemoryStore.deleteObjects_eq_stale hanswer
      by_cases hattempts : maxAttempts < sweep.attempts + 1
      · simp [batchStale, hattempts] at h
      · simp only [batchStale, hattempts, ↓reduceIte] at h
        cases h
        exact .stale last hphase hlast hstale
  · rename_i last hphase
    split at h
    · cases h
    · rename_i hanswer
      cases h
      obtain ⟨rfl, rfl⟩ := Prod.mk.inj (Except.ok.inj (MemoryStore.online_eq_ok hanswer).2)
      exact .asked last hphase
  · rename_i latest changed hphase
    split at h
    · cases h
    · rename_i hanswer
      cases h
      rw [← Except.ok.inj (MemoryStore.online_eq_ok hanswer).2]
      exact .rescued latest changed hphase
  · split at h <;> cases h

/-- A sweep of a memory store ends well by pruning it. -/
theorem step_done [Invalidator κ] {settings : PackSettings} {cancelled : Bool} {sweep : Sweep}
    {store later : MemoryStore} {cache : κ} {report : PackReport}
    (h : sweep.step settings cancelled store cache = .done report later) :
    sweep.phase = .prune ∧ later = (store.prune sweep.boundary).2 := by
  obtain ⟨hphase, _, hpruned, _⟩ := prunes_of_step h
  exact ⟨hphase, (congrArg Prod.snd (Except.ok.inj (MemoryStore.online_eq_ok hpruned).2)).symm⟩

theorem Goes.change {settings : PackSettings} {sweep next : Sweep} {store later : MemoryStore}
    (hgoes : Goes settings sweep store next later) : MemoryStore.Change store later := by
  cases hgoes with
  | deleted => exact .deleted sweep.batch
  | exhausted | taken | stale | asked | rescued => exact .none

theorem Goes.lastTid {settings : PackSettings} {sweep next : Sweep} {store later : MemoryStore}
    (hgoes : Goes settings sweep store next later) : later.lastTid = store.lastTid := by
  cases hgoes <;> rfl

end Sweep

/-- What a collector is doing. -/
inductive PackStage where
  | idle
  | marking (boundary : Tid) (progress : Marking)
  /-- A sweep of what a mark for that boundary found. -/
  | sweeping (boundary : Tid) (marked : Marked) (sweep : Sweep)
  | ended (result : Except PackError PackReport)
deriving DecidableEq

/-- A collector beside the store it works on. -/
structure PackScene (σ κ : Type) where
  store : σ
  cache : κ
  /-- What each mark found, and the boundary it marked for; the last comes
  first. -/
  marks : List (Tid × Marked) := []
  stage : PackStage := .idle

/-- What happens next. -/
inductive PackMove where
  /-- Another client or collector calls the store. -/
  | call (action : StoreAction)
  | mark (boundary : Tid)
  /-- Sweep what one of the marks found. -/
  | sweep (place : Nat) (pruned : Tid)
  /-- The collector goes on, up to and including its next store call. -/
  | proceed (cancelled : Bool)

namespace PackScene

/-- A collector that has not begun. -/
def start (store : σ) (cache : κ) : PackScene σ κ := { store, cache }

variable [ObjectStore σ] [Invalidator κ]

/-- The scene after the collector has gone on. -/
def proceed (settings : PackSettings) (cancelled : Bool) (scene : PackScene σ κ) :
    PackScene σ κ :=
  match scene.stage with
  | .marking boundary progress =>
      match progress.ask settings boundary scene.store with
      | .ok (.inl next) => { scene with stage := .marking boundary next }
      | .ok (.inr (some marked)) =>
          { scene with marks := (boundary, marked) :: scene.marks, stage := .idle }
      | .ok (.inr none) => { scene with stage := .ended (.ok {}) }
      | .error error => { scene with stage := .ended (.error (.store error)) }
  | .sweeping boundary marked sweep =>
      match sweep.step settings cancelled scene.store scene.cache with
      | .going next store cache =>
          { scene with store, cache, stage := .sweeping boundary marked next }
      | .done report store => { scene with store, stage := .ended (.ok report) }
      | .failed error => { scene with stage := .ended (.error error) }
  | .idle | .ended _ => scene

def move (settings : PackSettings) (scene : PackScene σ κ) : PackMove → PackScene σ κ
  | .call action => { scene with store := perform scene.store action }
  | .mark boundary => { scene with stage := .marking boundary .opened }
  | .sweep place pruned =>
      match scene.marks[place]? with
      | some (boundary, marked) =>
          { scene with stage := .sweeping boundary marked (.ofMarked marked pruned) }
      | none => scene
  | .proceed cancelled => scene.proceed settings cancelled

def run (settings : PackSettings) (scene : PackScene σ κ) (moves : List PackMove) :
    PackScene σ κ :=
  moves.foldl (move settings) scene

/-- Every move changes a memory store as calls do. -/
theorem change_move {κ : Type} [Invalidator κ] {settings : PackSettings}
    (scene : PackScene MemoryStore κ) (move : PackMove) :
    MemoryStore.Change scene.store (scene.move settings move).store := by
  cases move with
  | call action => exact MemoryStore.change_perform
  | mark boundary => exact .none
  | sweep place pruned =>
      simp only [PackScene.move]
      split <;> exact .none
  | proceed cancelled =>
      simp only [PackScene.move, proceed]
      split
      · split <;> exact .none
      · split
        · rename_i hgoing
          exact (Sweep.step_going hgoing).change
        · rename_i hdone
          obtain ⟨_, rfl⟩ := Sweep.step_done hdone
          exact .pruned _
        · exact .none
      · exact .none
      · exact .none

/-- The collector itself commits nothing. -/
theorem lastTid_proceed {κ : Type} [Invalidator κ] {settings : PackSettings}
    (scene : PackScene MemoryStore κ) (cancelled : Bool) :
    (scene.proceed settings cancelled).store.lastTid = scene.store.lastTid := by
  simp only [proceed]
  split
  · split <;> rfl
  · split
    · rename_i hgoing
      exact (Sweep.step_going hgoing).lastTid
    · rename_i hdone
      obtain ⟨_, rfl⟩ := Sweep.step_done hdone
      exact (MemoryStore.prune_frame scene.store _).2.2.1
    · rfl
  · rfl
  · rfl

end PackScene

end ObjectVault
