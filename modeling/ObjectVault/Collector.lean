/-
Collection of unreachable objects.

Marking finds the candidates: objects committed at or below a snapshot that
the root does not reach.  Sweeping deletes them in batches, each under a guard:
if a commit landed above the guard nothing is deleted, what the commit made
reachable is rescued, and the batch is tried again under a newer guard.  In the
end history below the boundary is pruned.

A sweep is a sequence of steps with at most one store operation each, so that
commits may land between any two of them.
-/
import ObjectVault.Store
import ObjectVault.Cache

namespace ObjectVault

/-- Which unreachable objects a store that keeps history may lose. -/
inductive Retention where
  /-- All of them, with all of their history. -/
  | keepNone
  /-- Those last written before the boundary. -/
  | keepAfterBoundary
deriving DecidableEq, Inhabited

structure PackSettings where
  /-- Objects deleted at once; zero counts as one. -/
  batchSize : Nat := 500
  retention : Retention := .keepNone
deriving DecidableEq, Inhabited

/-- What a pack has done. -/
structure PackReport where
  objectsRemoved : Nat := 0
  historyRemoved : Nat := 0
  blobsRemoved : Nat := 0
  transactionsRemoved : Nat := 0
  /-- Objects reachable from the root when marking. -/
  reachable : Nat := 0
  /-- Unreachable objects kept by the retention policy. -/
  candidatesDeferred : Nat := 0
  batches : Nat := 0
  /-- How often a commit forced the sweep to mark again. -/
  remarks : Nat := 0
deriving DecidableEq, Inhabited

inductive PackError where
  | alreadyRunning
  | cancelled (objectsRemoved : Nat)
  | contended (attempts : Nat)
  | store (error : StoreError)
deriving DecidableEq

/-- The kind of an error, for callers that only tell kinds apart. -/
def PackError.kind : PackError → String
  | alreadyRunning => "AlreadyRunning"
  | cancelled _ => "Cancelled"
  | contended _ => "Contended"
  | store _ => "Store"

def PackError.message : PackError → String
  | alreadyRunning => "a pack is already running"
  | cancelled objectsRemoved =>
      "pack cancelled after removing " ++ toString objectsRemoved ++ " objects"
  | contended attempts =>
      "sweep gave up after " ++ toString attempts ++ " re-marks under concurrent commits"
  | store error => "store error: " ++ error.message

/-- The outcome of marking. -/
structure Marked where
  /-- The last tid when marking started; only objects committed at or below it
  are candidates. -/
  snapshot : Tid
  reachable : OidSet
  candidates : OidSet
  /-- Unreachable objects the retention policy keeps. -/
  deferred : Nat
deriving DecidableEq

namespace Marked

/-- Whether the retention policy keeps an unreachable object with the given
current tid. -/
def isDeferred (keepsHistory : Bool) (retention : Retention) (boundary tid : Tid) : Bool :=
  keepsHistory && retention == .keepAfterBoundary && boundary ≤ tid

/-- Divide the unreachable objects among those listed into candidates and
deferred ones. -/
def select (isDeferred : Tid → Bool) (snapshot : Tid) (reachable : OidSet)
    (listed : List (Oid × Tid)) : Marked :=
  let unreachable := listed.filter fun (oid, _) => !oid.isRoot && !reachable.contains oid
  let (deferred, candidates) := unreachable.partition fun (_, tid) => isDeferred tid
  { snapshot, reachable
    candidates := OidSet.ofOids (candidates.map Prod.fst)
    deferred := deferred.length }

end Marked

/-- Find the objects a pack may delete; none in an empty store. -/
def mark [ObjectStore σ] (settings : PackSettings) (store : σ) (boundary : Tid) :
    Except StoreError (Option Marked) := do
  let some snapshot ← ObjectStore.lastTid store | return none
  let reachable ← ObjectStore.reachableFrom store [.root]
  let isDeferred :=
    Marked.isDeferred (ObjectStore.keepsHistory store) settings.retention boundary
  let listed ← ObjectStore.committedUpto store snapshot
  return some (.select isDeferred snapshot reachable listed)

/-- What a sweep does next. -/
inductive SweepPhase where
  /-- Take the next batch, or prune if there is none. -/
  | next
  | delete
  /-- Ask what was committed since the guard; a commit at `last` is in the way. -/
  | changes (last : Tid)
  /-- Rescue what those objects reach, then guard against commits above
  `latest`. -/
  | rescue (latest : Tid) (changed : List Oid)
  | prune
deriving DecidableEq

structure Sweep where
  boundary : Tid
  /-- A batch is deleted only if nothing was committed above this tid. -/
  guardTid : Tid
  /-- The candidates of the batch at hand, ascending. -/
  batch : List Oid := []
  /-- The candidates after it, ascending. -/
  later : List Oid
  /-- How often the batch at hand was found stale. -/
  attempts : Nat := 0
  phase : SweepPhase := .next
  report : PackReport
deriving DecidableEq

namespace Sweep

/-- How often one batch may be found stale before the sweep gives up. -/
def maxAttempts : Nat := 64

/-- The sweep that follows a mark. -/
def ofMarked (marked : Marked) (boundary : Tid) : Sweep :=
  { boundary
    guardTid := marked.snapshot
    later := marked.candidates.toList
    report := { reachable := marked.reachable.size, candidatesDeferred := marked.deferred } }

/-- The outcome of a step. -/
inductive Progress (σ κ : Type) where
  | going (sweep : Sweep) (store : σ) (cache : κ)
  | done (report : PackReport) (store : σ)
  | failed (error : PackError)

/-- Take the next batch, unless the pack was cancelled. -/
def nextBatch (sweep : Sweep) (settings : PackSettings) (cancelled : Bool) :
    Except PackError Sweep :=
  if sweep.later.isEmpty then .ok { sweep with phase := .prune }
  else if cancelled then .error (.cancelled sweep.report.objectsRemoved)
  else
    let size := max settings.batchSize 1
    .ok { sweep with
      batch := sweep.later.take size
      later := sweep.later.drop size
      attempts := 0
      phase := .delete }

/-- The sweep after its batch was deleted. -/
def batchDeleted (sweep : Sweep) (objects history blobs : Nat) : Sweep :=
  { sweep with
    batch := []
    phase := .next
    report := { sweep.report with
      objectsRemoved := sweep.report.objectsRemoved + objects
      historyRemoved := sweep.report.historyRemoved + history
      blobsRemoved := sweep.report.blobsRemoved + blobs
      batches := sweep.report.batches + 1 } }

/-- The sweep after its batch was found stale. -/
def batchStale (sweep : Sweep) (last : Tid) : Except PackError Sweep :=
  let attempts := sweep.attempts + 1
  if maxAttempts < attempts then .error (.contended attempts)
  else .ok { sweep with attempts, phase := .changes last }

/-- The sweep after some candidates were found reachable again. -/
def rescued (sweep : Sweep) (latest : Tid) (reachable : OidSet) : Sweep :=
  let batch := sweep.batch.filter fun oid => !reachable.contains oid
  { sweep with
    guardTid := latest
    batch
    later := sweep.later.filter fun oid => !reachable.contains oid
    phase := if batch.isEmpty then .next else .delete
    report := { sweep.report with remarks := sweep.report.remarks + 1 } }

/-- The report once history was pruned. -/
def pruned (sweep : Sweep) (counts : PruneCounts) : PackReport :=
  { sweep.report with
    historyRemoved := sweep.report.historyRemoved + counts.history
    blobsRemoved := sweep.report.blobsRemoved + counts.blobs
    transactionsRemoved := sweep.report.transactionsRemoved + counts.transactions }

/-- One step.  Deleted objects are invalidated in the step that deletes them. -/
def step [ObjectStore σ] [Invalidator κ] (settings : PackSettings) (cancelled : Bool)
    (sweep : Sweep) (store : σ) (cache : κ) : Progress σ κ :=
  match sweep.phase with
  | .next =>
      match sweep.nextBatch settings cancelled with
      | .ok sweep => .going sweep store cache
      | .error error => .failed error
  | .delete =>
      match ObjectStore.deleteObjects store sweep.batch sweep.guardTid with
      | .error error => .failed (.store error)
      | .ok (.deleted objects history blobs, store) =>
          .going (sweep.batchDeleted objects history blobs) store
            (Invalidator.invalidate cache sweep.batch)
      | .ok (.stale last, store) =>
          match sweep.batchStale last with
          | .ok sweep => .going sweep store cache
          | .error error => .failed error
  | .changes last =>
      match ObjectStore.changesSince store sweep.guardTid with
      | .error error => .failed (.store error)
      | .ok (latest, changed) =>
          .going { sweep with phase := .rescue (max (latest.getD last) last) changed } store cache
  | .rescue latest changed =>
      match ObjectStore.reachableFrom store changed with
      | .error error => .failed (.store error)
      | .ok reachable => .going (sweep.rescued latest reachable) store cache
  | .prune =>
      match ObjectStore.pruneHistory store sweep.boundary with
      | .error error => .failed (.store error)
      | .ok (counts, store) => .done (sweep.pruned counts) store

/-- A bound on the steps until the batch at hand is dealt with. -/
def stepsInBatch (sweep : Sweep) : Nat :=
  let retries := 3 * (maxAttempts - sweep.attempts)
  match sweep.phase with
  | .prune => 1
  | .next => 2
  | .delete => retries + 3
  | .rescue .. => retries + 4
  | .changes _ => retries + 5

/-- A bound on the steps that one batch takes. -/
def stepsPerBatch : Nat := 3 * maxAttempts + 3

/-- A bound on the steps that are left. -/
def stepsLeft (sweep : Sweep) : Nat :=
  stepsPerBatch * sweep.later.length + sweep.stepsInBatch

theorem stepsLeft_nextBatch_lt {sweep next : Sweep} {settings : PackSettings}
    {cancelled : Bool} (hphase : sweep.phase = .next)
    (h : sweep.nextBatch settings cancelled = .ok next) : next.stepsLeft < sweep.stepsLeft := by
  unfold nextBatch at h
  split at h
  · cases h
    simp [stepsLeft, stepsInBatch, hphase]
  · rename_i hlater
    split at h
    · cases h
    · cases h
      have hpos : 0 < sweep.later.length := by
        cases hl : sweep.later with
        | nil => simp [hl] at hlater
        | cons => simp
      simp only [stepsLeft, stepsInBatch, hphase, stepsPerBatch, maxAttempts, List.length_drop]
      omega

theorem stepsLeft_batchStale_lt {sweep next : Sweep} {last : Tid}
    (hphase : sweep.phase = .delete) (h : sweep.batchStale last = .ok next) :
    next.stepsLeft < sweep.stepsLeft := by
  simp only [batchStale] at h
  split at h
  · cases h
  · cases h
    simp only [stepsLeft, stepsInBatch, hphase, maxAttempts] at *
    omega

theorem stepsLeft_rescued_lt {sweep : Sweep} {latest found : Tid} {changed : List Oid}
    {reachable : OidSet} (hphase : sweep.phase = .rescue found changed) :
    (sweep.rescued latest reachable).stepsLeft < sweep.stepsLeft := by
  have hlater := List.length_filter_le (fun oid => !reachable.contains oid) sweep.later
  have hmul := Nat.mul_le_mul_left stepsPerBatch hlater
  by_cases hempty : (sweep.batch.filter fun oid => !reachable.contains oid).isEmpty <;>
    simp only [stepsLeft, stepsInBatch, rescued, hphase, hempty, ↓reduceIte,
      Bool.false_eq_true] <;>
    omega

/-- Every step that does not end the sweep leaves fewer steps to go. -/
theorem stepsLeft_step_lt [ObjectStore σ] [Invalidator κ] {settings : PackSettings}
    {cancelled : Bool} {sweep next : Sweep} {store store' : σ} {cache cache' : κ}
    (h : sweep.step settings cancelled store cache = .going next store' cache') :
    next.stepsLeft < sweep.stepsLeft := by
  unfold step at h
  split at h
  · rename_i hphase
    split at h
    · rename_i hnext
      cases h
      exact stepsLeft_nextBatch_lt hphase hnext
    · cases h
  · rename_i hphase
    split at h
    · cases h
    · cases h
      simp only [stepsLeft, stepsInBatch, batchDeleted, hphase]
      omega
    · split at h
      · rename_i hstale
        cases h
        exact stepsLeft_batchStale_lt hphase hstale
      · cases h
  · rename_i hphase
    split at h
    · cases h
    · cases h
      simp only [stepsLeft, stepsInBatch, hphase]
      omega
  · rename_i hphase
    split at h
    · cases h
    · cases h
      exact stepsLeft_rescued_lt hphase
  · split at h <;> cases h

/-- What a sweep answers and leaves behind. -/
structure Swept (σ κ : Type) where
  result : Except PackError PackReport
  store : σ
  cache : κ

/-- Run a sweep to its end with nothing else going on. -/
def run [ObjectStore σ] [Invalidator κ] (settings : PackSettings) (cancelled : Bool)
    (sweep : Sweep) (store : σ) (cache : κ) : Swept σ κ :=
  match _going : sweep.step settings cancelled store cache with
  | .going next store cache => next.run settings cancelled store cache
  | .done report store => ⟨.ok report, store, cache⟩
  | .failed error => ⟨.error error, store, cache⟩
termination_by sweep.stepsLeft
decreasing_by exact stepsLeft_step_lt _going

end Sweep

/-- A collector runs beside transactions but never beside itself. -/
structure Collector where
  settings : PackSettings := {}
  /-- Whether a pack holds the lock. -/
  running : Bool := false

namespace Collector

/-- Take the lock. -/
def lock (collector : Collector) : Except PackError Collector :=
  if collector.running then .error .alreadyRunning else .ok { collector with running := true }

/-- Give the lock back. -/
def unlock (collector : Collector) : Collector := { collector with running := false }

/-- The collector after a pack.  One that got the lock gives it back, however it
ends. -/
def afterPack (collector : Collector) : Collector :=
  match collector.lock with
  | .error _ => collector
  | .ok locked => locked.unlock

theorem afterPack_eq (collector : Collector) : collector.afterPack = collector := by
  obtain ⟨settings, running⟩ := collector
  cases running <;> rfl

/-- What a pack has to do once it has marked. -/
inductive Prepared where
  /-- Nothing: the store is empty. -/
  | nothing
  | sweep (sweep : Sweep)

/-- The part of a pack before its first deletion.  It begins with the lock. -/
def prepare [ObjectStore σ] (collector : Collector) (cancelled : Bool) (boundary : Tid)
    (store : σ) : Except PackError Prepared :=
  match collector.lock with
  | .error error => .error error
  | .ok locked =>
      if cancelled then .error (.cancelled 0)
      else match mark locked.settings store boundary with
        | .error error => .error (.store error)
        | .ok none => .ok .nothing
        | .ok (some marked) => .ok (.sweep (.ofMarked marked boundary))

/-- While a pack holds the lock, another one is refused. -/
theorem prepare_locked [ObjectStore σ] {collector locked : Collector}
    (h : collector.lock = .ok locked) (cancelled : Bool) (boundary : Tid) (store : σ) :
    locked.prepare cancelled boundary store = .error .alreadyRunning := by
  rw [lock] at h
  split at h
  · cases h
  · cases h
    rfl

/-- What a pack answers and leaves behind, with the collector it hands back. -/
structure PackOutcome (σ κ : Type) extends Sweep.Swept σ κ where
  collector : Collector

/-- Delete unreachable objects and prune history below the boundary, with
nothing else going on. -/
def pack [ObjectStore σ] [Invalidator κ] (collector : Collector) (cancelled : Bool)
    (boundary : Tid) (store : σ) (cache : κ) : PackOutcome σ κ where
  toSwept := match collector.prepare cancelled boundary store with
    | .error error => ⟨.error error, store, cache⟩
    | .ok .nothing => ⟨.ok {}, store, cache⟩
    | .ok (.sweep sweep) => sweep.run collector.settings cancelled store cache
  collector := collector.afterPack

def describe (collector : Collector) : String :=
  let settings := collector.settings
  let retention := match settings.retention with
    | .keepNone => "None"
    | .keepAfterBoundary => "KeepAfterBoundary"
  Describe.record "PackCollector"
    [("config", Describe.record "PackConfig"
        [("batch_size", toString settings.batchSize), ("retention", retention)]),
      ("running", Describe.truth collector.running)]

end Collector

end ObjectVault
