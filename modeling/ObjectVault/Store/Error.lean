/-
Errors of object stores.  Each one is a cause; its wording is given once, in
`message`.
-/
import ObjectVault.Chain
import ObjectVault.Text.Describe

namespace ObjectVault

/-- Why a backend cannot be reached. -/
inductive Outage where
  | offline
  | poolExhausted (inUse : Nat)
  | reported (detail : String)
deriving DecidableEq

def Outage.message : Outage → String
  | offline => "in-memory store is offline"
  | poolExhausted inUse =>
      "connection pool exhausted (" ++ toString inUse ++ " connections in use)"
  | reported detail => detail

/-- How stored data contradicts itself. -/
inductive Damage where
  | chain (oid : Oid) (fault : ChainFault)
  | reported (detail : String)
deriving DecidableEq

def Damage.message : Damage → String
  | chain oid fault => oid.text ++ ": " ++ fault.message
  | reported detail => detail

/-- A stored column that cannot be read. -/
inductive Unreadable where
  | timestamp (text : String)
  /-- A tid without a log row whose instant has no date. -/
  | instant (tid : Tid)
  | refs
  | reported (detail : String)
deriving DecidableEq

def Unreadable.message : Unreadable → String
  | timestamp text =>
      "bad timestamp " ++ Describe.quoted text ++ ": not a date and time with an offset"
  | instant tid => tid.outOfRangeMessage
  | refs => "references are not a list of signed 64-bit integers"
  | reported detail => detail

/-- Any other failure of a backend. -/
inductive BackendFault where
  | emptyPool
  | duplicateKey (table : String)
  | malformedRefs
  | reported (detail : String)
deriving DecidableEq

def BackendFault.message : BackendFault → String
  | emptyPool => "pool max_size must be at least 1"
  | duplicateKey table => "duplicate key in " ++ table
  | malformedRefs => "references are malformed"
  | reported detail => detail

/-- Why a store operation failed. -/
inductive StoreError where
  /-- The object's current tid is not the one the writer expected. -/
  | conflict (oid : Oid) (expected actual : Option Tid)
  | notFound (oid : Oid)
  | unavailable (outage : Outage)
  | corruption (damage : Damage)
  | duplicateWrite (oid : Oid)
  | serialization (what : Unreadable)
  /-- The database was created in the other mode. -/
  | modeMismatch (stored requested : Bool)
  | backend (fault : BackendFault)
  | io (detail : String)
deriving DecidableEq

namespace StoreError

def modeName (keepsHistory : Bool) : String :=
  if keepsHistory then "history-preserving" else "history-free"

def conflictMessage (oid : Oid) (expected actual : Option Tid) : String :=
  "conflict on " ++ oid.text ++ ": expected " ++ Tid.describe? expected ++ ", found " ++
    Tid.describe? actual

/-- The kind of an error, for callers that only tell kinds apart. -/
def kind : StoreError → String
  | conflict .. => "Conflict"
  | notFound _ => "NotFound"
  | unavailable _ => "Unavailable"
  | corruption _ => "Corruption"
  | duplicateWrite _ => "DuplicateWrite"
  | serialization _ => "Serialization"
  | modeMismatch .. => "ModeMismatch"
  | backend _ => "Backend"
  | io _ => "Io"

def message : StoreError → String
  | conflict oid expected actual => conflictMessage oid expected actual
  | notFound oid => "object not found: " ++ oid.text
  | unavailable outage => "storage unavailable: " ++ outage.message
  | corruption damage => "corruption detected: " ++ damage.message
  | duplicateWrite oid => "duplicate write for " ++ oid.text ++ " in one transaction"
  | serialization what => "serialization error: " ++ what.message
  | modeMismatch stored requested =>
      "database is " ++ modeName stored ++ ", opened as " ++ modeName requested
  | backend fault => "backend error: " ++ fault.message
  | io detail => "I/O error: " ++ detail

/-- The error for a failure that a database engine reports with a result
code.  The low byte is the primary code: busy, locked, I/O failure and cannot
open leave the backend unavailable, and a malformed image is corruption. -/
def ofResultCode (code : Int) (detail : String) : StoreError :=
  let primary := code % 256
  if primary = 5 ∨ primary = 6 ∨ primary = 10 ∨ primary = 14 then
    .unavailable (.reported detail)
  else if primary = 11 then .corruption (.reported detail)
  else .backend (.reported detail)

end StoreError

end ObjectVault
