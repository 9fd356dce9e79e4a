/-
Transactions.  Writes are staged, validated by a vote and then applied in one
store commit.  Nothing is visible to readers before that commit succeeds.

A state moves from open to voting to committed, and from open or voting to
aborted; committed and aborted are final.
-/
import ObjectVault.Store
import ObjectVault.Cache
import ObjectVault.Clock

namespace ObjectVault

/-- Why a transaction ended without committing. -/
inductive AbortReason where
  | requested
  /-- A staged write's expected tid no longer matched. -/
  | conflict
  | cancelled
  | timedOut
  | storeFailure
deriving DecidableEq, Inhabited

def AbortReason.name : AbortReason → String
  | requested => "Requested"
  | conflict => "Conflict"
  | cancelled => "Cancelled"
  | timedOut => "TimedOut"
  | storeFailure => "StoreFailure"

inductive TxnState where
  | opened
  | voting
  | committed (tid : Tid)
  | aborted (reason : AbortReason)
deriving DecidableEq, Inhabited

namespace TxnState

def isTerminal : TxnState → Bool
  | opened | voting => false
  | committed _ | aborted _ => true

def name : TxnState → String
  | opened => "open"
  | voting => "voting"
  | committed _ => "committed"
  | aborted _ => "aborted"

def text : TxnState → String
  | committed tid => "committed at " ++ tid.text
  | aborted reason => "aborted (" ++ reason.name ++ ")"
  | opened => "open"
  | voting => "voting"

def describe : TxnState → String
  | opened => "Open"
  | voting => "Voting"
  | committed tid => "Committed(" ++ tid.describe ++ ")"
  | aborted reason => "Aborted(" ++ reason.name ++ ")"

end TxnState

/-- What keeps a version from being undone. -/
inductive UndoObstacle where
  | notStored
  | createdHere
  | packedAway (preceding : Tid)
  | reported (detail : String)
deriving DecidableEq

def UndoObstacle.message : UndoObstacle → String
  | notStored => "version is no longer stored"
  | createdHere => "the transaction created the object"
  | packedAway preceding => "preceding version " ++ preceding.text ++ " was packed away"
  | reported detail => detail

/-- A request that makes no sense for the store at hand. -/
inductive Misuse where
  | undoWithoutHistory
  | nothingRetained (tid : Tid)
  | reported (detail : String)
deriving DecidableEq

def Misuse.message : Misuse → String
  | undoWithoutHistory => "undo requires a history-preserving store"
  | nothingRetained tid => "transaction " ++ tid.text ++ " has no retained versions"
  | reported detail => detail

inductive TxnError where
  | conflict (oid : Oid) (expected actual : Option Tid)
  | undoConflict (oid : Oid) (tid : Tid) (obstacle : UndoObstacle)
  | cancelled
  | timedOut (timeoutMs : Nat)
  | wrongState (state operation : String)
  | invalidOperation (misuse : Misuse)
  | store (error : StoreError)
deriving DecidableEq

namespace TxnError

/-- The kind of an error, for callers that only tell kinds apart. -/
def kind : TxnError → String
  | conflict .. => "Conflict"
  | undoConflict .. => "UndoConflict"
  | cancelled => "Cancelled"
  | timedOut _ => "TimedOut"
  | wrongState .. => "InvalidState"
  | invalidOperation _ => "InvalidOperation"
  | store _ => "Store"

def message : TxnError → String
  | conflict oid expected actual => StoreError.conflictMessage oid expected actual
  | undoConflict oid tid obstacle =>
      "cannot undo " ++ tid.text ++ " for " ++ oid.text ++ ": " ++ obstacle.message
  | cancelled => "transaction cancelled"
  | timedOut timeoutMs =>
      "transaction exceeded its timeout of " ++ toString timeoutMs ++ " ms"
  | wrongState state operation =>
      "cannot " ++ operation ++ " a transaction in state " ++ state
  | invalidOperation misuse => "invalid operation: " ++ misuse.message
  | store error => "store error: " ++ error.message

/-- Whether another writer got there first, whichever layer noticed it. -/
def isConflict : TxnError → Bool
  | conflict .. | undoConflict .. | store (.conflict ..) => true
  | _ => false

/-- The transaction error for a store failure during a vote or a commit. -/
def ofFailure : StoreError → TxnError
  | .conflict oid expected actual => .conflict oid expected actual
  | error => .store error

end TxnError

def AbortReason.ofFailure : StoreError → AbortReason
  | .conflict .. => .conflict
  | _ => .storeFailure

structure Transaction where
  note : CommitNote
  /-- One write per object, in the order the objects were first staged. -/
  writes : List Write := []
  state : TxnState := .opened
  /-- When the transaction runs out of time, on the steady clock. -/
  deadline : Option Nat := none
  timeoutMs : Option Nat := none
  cancelled : Bool := false

namespace Transaction

/-- A new transaction, which may have some time to finish. -/
def start (clock : Clock) (timeoutMs : Option Nat) (note : CommitNote := {})
    (cancelled : Bool := false) : Transaction :=
  { note, timeoutMs, cancelled, deadline := timeoutMs.map (clock.steady + ·) }

def isEmpty (txn : Transaction) : Bool := txn.writes.isEmpty

/-- The objects written, in the order they were first staged. -/
def touched (txn : Transaction) : List Oid := txn.writes.map Write.oid

/-- Give the transaction so much time from now on. -/
def setTimeout (txn : Transaction) (clock : Clock) (timeoutMs : Nat) : Transaction :=
  { txn with timeoutMs := some timeoutMs, deadline := some (clock.steady + timeoutMs) }

/-- Replace the write of the same object, or add one at the end. -/
def stageInto (write : Write) : List Write → List Write
  | [] => [write]
  | other :: rest =>
      if other.oid = write.oid then write :: rest else other :: stageInto write rest

/-- The error of an operation that needs another state. -/
def wrongState (txn : Transaction) (operation : String) : TxnError :=
  .wrongState txn.state.name operation

/-- Stage a write.  Staging an object again replaces its earlier write. -/
def stage (txn : Transaction) (write : Write) : Except TxnError Transaction :=
  if txn.state = .opened then .ok { txn with writes := stageInto write txn.writes }
  else .error (txn.wrongState "stage")

/-- Why the transaction may not go on: it was cancelled, or its deadline has
been reached. -/
def lapse? (txn : Transaction) (clock : Clock) : Option (AbortReason × TxnError) :=
  if txn.cancelled then some (.cancelled, .cancelled)
  else match txn.deadline, txn.timeoutMs with
    | some deadline, some timeoutMs =>
        if deadline ≤ clock.steady then some (.timedOut, .timedOut timeoutMs) else none
    | _, _ => none

def abortWith (txn : Transaction) (reason : AbortReason) : Transaction :=
  { txn with state := .aborted reason }

/-- The first write whose expected tid is not the current one. -/
def conflict? (current : OidMap Tid) : List Write → Option TxnError
  | [] => none
  | write :: rest =>
      if current[write.oid]? = write.expected then conflict? current rest
      else some (.conflict write.oid write.expected current[write.oid]?)

/-- Validate every staged write against the store.  Any mismatch aborts the
whole transaction. -/
def vote [ObjectStore σ] (txn : Transaction) (clock : Clock) (store : σ) :
    Except TxnError Unit × Transaction :=
  if txn.state ≠ .opened then (.error (txn.wrongState "vote on"), txn)
  else match txn.lapse? clock with
    | some (reason, error) => (.error error, txn.abortWith reason)
    | none =>
        match ObjectStore.currentTids store txn.touched with
        | .error error => (.error (.ofFailure error), txn.abortWith (.ofFailure error))
        | .ok current =>
            match conflict? current txn.writes with
            | some error => (.error error, txn.abortWith .conflict)
            | none => (.ok (), { txn with state := .voting })

/-- What the second phase answers and leaves behind. -/
structure Finished (σ κ : Type) where
  result : Except TxnError Tid
  txn : Transaction
  store : σ
  cache : κ

/-- Apply a validated batch in one store commit and invalidate what it
touched.  An empty batch writes nothing; its tid is the last committed one, or
zero in an empty store. -/
def finish [ObjectStore σ] [Invalidator κ] (txn : Transaction) (clock : Clock) (store : σ)
    (cache : κ) : Finished σ κ :=
  if txn.state ≠ .voting then ⟨.error (txn.wrongState "commit"), txn, store, cache⟩
  else match txn.lapse? clock with
    | some (reason, error) => ⟨.error error, txn.abortWith reason, store, cache⟩
    | none =>
        if txn.isEmpty then
          match ObjectStore.lastTid store with
          | .error error =>
              ⟨.error (.ofFailure error), txn.abortWith (.ofFailure error), store, cache⟩
          | .ok last =>
              let tid := last.getD .zero
              ⟨.ok tid, { txn with state := .committed tid }, store, cache⟩
        else
          match ObjectStore.commit store clock.wall txn.note txn.writes with
          | .error error =>
              ⟨.error (.ofFailure error), txn.abortWith (.ofFailure error), store, cache⟩
          | .ok (tid, store) =>
              ⟨.ok tid, { txn with state := .committed tid }, store,
                Invalidator.invalidate cache txn.touched⟩

/-- Both phases. -/
def commit [ObjectStore σ] [Invalidator κ] (txn : Transaction) (clock : Clock) (store : σ)
    (cache : κ) : Finished σ κ :=
  match txn.vote clock store with
  | (.error error, txn) => ⟨.error error, txn, store, cache⟩
  | (.ok (), txn) => txn.finish clock store cache

/-- Give up.  Nothing was written. -/
def abort (txn : Transaction) : Except TxnError Transaction :=
  if txn.state.isTerminal then .error (txn.wrongState "abort")
  else .ok (txn.abortWith .requested)

def describe (txn : Transaction) : String := Describe.record "Transaction"
  [("state", txn.state.describe), ("writes", toString txn.writes.length),
    ("user", Describe.quoted txn.note.user)]

end Transaction

end ObjectVault
