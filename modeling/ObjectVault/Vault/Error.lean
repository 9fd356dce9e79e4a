/-
Errors of a vault.  They say what the caller can do about it: whether to try
again, to mend the request, or to stop.
-/
import ObjectVault.Codec
import ObjectVault.Collector
import ObjectVault.Settings
import ObjectVault.Transaction

namespace ObjectVault

/-- How a write or an undo came into conflict. -/
inductive ConflictCause where
  | mismatch (expected actual : Option Tid)
  | undo (tid : Tid) (obstacle : UndoObstacle)
deriving DecidableEq

def ConflictCause.message : ConflictCause → String
  | mismatch expected actual =>
      "expected " ++ Tid.describe? expected ++ ", found " ++ Tid.describe? actual
  | undo tid obstacle => "cannot undo " ++ tid.text ++ ": " ++ obstacle.message

/-- Why the storage is unavailable for now. -/
inductive UnavailableCause where
  | outage (outage : Outage)
  | backend (fault : BackendFault)
  | io (detail : String)
  | packRunning
  | packContended (attempts : Nat)
deriving DecidableEq

def UnavailableCause.message : UnavailableCause → String
  | outage cause => cause.message
  | backend fault => fault.message
  | io detail => detail
  | packRunning => PackError.alreadyRunning.message
  | packContended attempts => (PackError.contended attempts).message

/-- What was given up on the way. -/
inductive CancelledCause where
  | transaction
  | transactionTimedOut (timeoutMs : Nat)
  | pack (objectsRemoved : Nat)
deriving DecidableEq

def CancelledCause.message : CancelledCause → String
  | transaction => TxnError.cancelled.message
  | transactionTimedOut timeoutMs => (TxnError.timedOut timeoutMs).message
  | pack objectsRemoved => (PackError.cancelled objectsRemoved).message

/-- Stored data that contradicts itself or cannot be read. -/
inductive CorruptionCause where
  | damage (damage : Damage)
  | unreadable (what : Unreadable)
deriving DecidableEq

def CorruptionCause.message : CorruptionCause → String
  | damage cause => cause.message
  | unreadable what => what.message

/-- A request that cannot be carried out as it stands. -/
inductive InvalidCause where
  | writtenTwice (oid : Oid)
  | wrongState (state operation : String)
  | misuse (misuse : Misuse)
deriving DecidableEq

def InvalidCause.message : InvalidCause → String
  | writtenTwice oid => oid.text ++ " written twice in one transaction"
  | wrongState state operation => (TxnError.wrongState state operation).message
  | misuse cause => cause.message

/-- Settings that are refused, or that do not match the backend. -/
inductive ConfigCause where
  | settings (fault : SettingsFault)
  | historyMismatch (backend requested : Bool)
  | modeMismatch (stored requested : Bool)
deriving DecidableEq

def ConfigCause.message : ConfigCause → String
  | settings fault => fault.message
  | historyMismatch backend requested =>
      "backend history_preserving=" ++ Describe.truth backend ++
        " but configuration requests " ++ Describe.truth requested
  | modeMismatch stored requested => (StoreError.modeMismatch stored requested).message

inductive VaultError where
  | conflict (oid : Oid) (cause : ConflictCause)
  | notFound (oid : Oid)
  | unavailable (cause : UnavailableCause)
  | codec (error : CodecError)
  | cancelled (cause : CancelledCause)
  | corruption (cause : CorruptionCause)
  | invalidOperation (cause : InvalidCause)
  | config (cause : ConfigCause)
deriving DecidableEq

namespace VaultError

/-- The kind of an error, for callers that only tell kinds apart. -/
def kind : VaultError → String
  | conflict .. => "Conflict"
  | notFound _ => "NotFound"
  | unavailable _ => "StorageUnavailable"
  | codec _ => "Codec"
  | cancelled _ => "Cancelled"
  | corruption _ => "Corruption"
  | invalidOperation _ => "InvalidOperation"
  | config _ => "Config"

def message : VaultError → String
  | conflict oid cause => "conflict on " ++ oid.text ++ ": " ++ cause.message
  | notFound oid => "object not found: " ++ oid.text
  | unavailable cause => "storage unavailable: " ++ cause.message
  | codec error => "codec error: " ++ error.message
  | cancelled cause => "cancelled: " ++ cause.message
  | corruption cause => "corruption: " ++ cause.message
  | invalidOperation cause => "invalid operation: " ++ cause.message
  | config cause => "configuration error: " ++ cause.message

/-- Whether the same request may succeed later. -/
def isRetryable : VaultError → Bool
  | conflict .. | unavailable _ => true
  | _ => false

def ofStore : StoreError → VaultError
  | .conflict oid expected actual => .conflict oid (.mismatch expected actual)
  | .notFound oid => .notFound oid
  | .unavailable outage => .unavailable (.outage outage)
  | .corruption damage => .corruption (.damage damage)
  | .duplicateWrite oid => .invalidOperation (.writtenTwice oid)
  | .serialization what => .corruption (.unreadable what)
  | .modeMismatch stored requested => .config (.modeMismatch stored requested)
  | .backend fault => .unavailable (.backend fault)
  | .io detail => .unavailable (.io detail)

def ofTxn : TxnError → VaultError
  | .conflict oid expected actual => .conflict oid (.mismatch expected actual)
  | .undoConflict oid tid obstacle => .conflict oid (.undo tid obstacle)
  | .cancelled => .cancelled .transaction
  | .timedOut timeoutMs => .cancelled (.transactionTimedOut timeoutMs)
  | .wrongState state operation => .invalidOperation (.wrongState state operation)
  | .invalidOperation misuse => .invalidOperation (.misuse misuse)
  | .store error => ofStore error

def ofPack : PackError → VaultError
  | .alreadyRunning => .unavailable .packRunning
  | .cancelled objectsRemoved => .cancelled (.pack objectsRemoved)
  | .contended attempts => .unavailable (.packContended attempts)
  | .store error => ofStore error

end VaultError

end ObjectVault
