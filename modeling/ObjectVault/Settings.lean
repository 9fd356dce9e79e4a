/-
Settings of a vault.  Each has a default, and a text in TOML may give any of
them.
-/
import ObjectVault.Document.Json.Range
import ObjectVault.Document.Toml
import ObjectVault.Exchange
import ObjectVault.Pool

namespace ObjectVault

/-- Where objects live. -/
inductive Place where
  | memory
  | database (path : String)
deriving DecidableEq, Inhabited

structure Settings where
  name : String := "tidal"
  keepsHistory : Bool := false
  /-- The budget of the cache; zero disables it. -/
  cacheMegabytes : Nat := 16
  /-- Connections opened at the start. -/
  poolSize : Nat := 1
  poolMaxSize : Nat := 10
  /-- How long a borrower waits for a connection. -/
  poolTimeoutMs : Nat := 30000
  /-- How much time a transaction has, if that is limited. -/
  transactionTimeoutMs : Option Nat := none
  place : Place := .memory
  pack : PackSettings := {}
deriving DecidableEq, Inhabited

/-- Why settings are refused. -/
inductive SettingsFault where
  | emptyPool
  | smallPool (size maxSize : Nat)
  | emptyBatch
  | unreadable (detail : String)
deriving DecidableEq

def SettingsFault.message : SettingsFault → String
  | emptyPool => "pool_max_size must be at least 1"
  | smallPool size maxSize =>
      "pool_size " ++ toString size ++ " exceeds pool_max_size " ++ toString maxSize
  | emptyBatch => "pack.batch_size must be at least 1"
  | unreadable detail => detail

namespace Document

/-- Whether all texts are Unicode and all numbers are in range. -/
def isSound : Document → Bool
  | .text content => (Bytes.text? content).isSome
  | .real literal => Json.isInRange literal
  | .list items => areSound items
  | .record fields => fieldsAreSound fields
  | _ => true
where
  areSound : List Document → Bool
    | [] => true
    | item :: items => isSound item && areSound items
  fieldsAreSound : List (Bytes × Document) → Bool
    | [] => true
    | (key, value) :: fields =>
        (Bytes.text? key).isSome && isSound value && fieldsAreSound fields

end Document

namespace Place

open Document

/-- How deep the record of a place may be nested. -/
def maxDepth : Nat := 126

/-- The place of a kind whose other fields are given, if it needs one. -/
def ofKind? (kind : String) (path : Unit → Option String) : Option Place :=
  match kind with
  | "memory" => some .memory
  | "sqlite" => (path ()).map .database
  | _ => none

/-- A place is a record whose field `kind` names the kind, or a list with the
kind first. -/
def read? (format : Format) (document : Document) : Option Place :=
  if format.checksUnasked && !(document.isSound && document.depth ≤ maxDepth) then none
  else match document with
    | .record fields => do
        let kind ← (← field? "kind" fields).bind text?
        ofKind? kind fun _ => do (← field? "path" fields).bind text?
    | .list [kind] => do ofKind? (← kind.text?) fun _ => none
    | .list [kind, path] => do
        let kind ← kind.text?
        if kind = "memory" then none else ofKind? kind fun _ => path.text?
    | _ => none

instance : Exchange Place where
  write
    | memory => .ofFields [("kind", .ofText "memory")]
    | database path => .ofFields [("kind", .ofText "sqlite"), ("path", .ofText path)]
  read? := read? .json

end Place

namespace Settings

open Document

def poolSettings (settings : Settings) : PoolSettings :=
  ⟨settings.poolSize, settings.poolMaxSize, settings.poolTimeoutMs⟩

/-- The budget of the cache in bytes. -/
def cacheBudget (settings : Settings) : Nat :=
  (Cache.ofMegabytes settings.cacheMegabytes : Cache Unit).budget

/-- What is wrong with the settings. -/
def fault? (settings : Settings) : Option SettingsFault :=
  if settings.poolMaxSize = 0 then some .emptyPool
  else if settings.poolMaxSize < settings.poolSize then
    some (.smallPool settings.poolSize settings.poolMaxSize)
  else if settings.pack.batchSize = 0 then some .emptyBatch
  else none

def fieldNames : List String :=
  ["name", "history_preserving", "cache_local_mb", "pool_size", "pool_max_size",
    "pool_timeout_ms", "transaction_timeout_ms", "backend", "pack"]

def read? (format : Format) (document : Document) : Option Settings := do
  let [name, keepsHistory, cache, poolSize, poolMaxSize, poolTimeout, timeout, place, pack] ←
    document.slots? fieldNames ⟨true, format.ignoresSurplus⟩ | none
  return {
    name := ← defaulted? "tidal" text? name
    keepsHistory := ← defaulted? false truth? keepsHistory
    cacheMegabytes := ← defaulted? 16 word? cache
    poolSize := ← defaulted? 1 word? poolSize
    poolMaxSize := ← defaulted? 10 word? poolMaxSize
    poolTimeoutMs := ← defaulted? 30000 word? poolTimeout
    transactionTimeoutMs := ← optional? word? timeout
    place := ← defaulted? .memory (Place.read? format) place
    pack := ← defaulted? {} (PackSettings.read? format) pack }

instance : Exchange Settings where
  write settings := .ofFields
    [("name", .ofText settings.name), ("history_preserving", .truth settings.keepsHistory),
      ("cache_local_mb", .ofNat settings.cacheMegabytes),
      ("pool_size", .ofNat settings.poolSize), ("pool_max_size", .ofNat settings.poolMaxSize),
      ("pool_timeout_ms", .ofNat settings.poolTimeoutMs),
      ("transaction_timeout_ms", .ofOption .ofNat settings.transactionTimeoutMs),
      ("backend", Exchange.write settings.place), ("pack", Exchange.write settings.pack)]
  read? := read? .json

/-- Settings that can be used, or their fault. -/
def checked (settings : Settings) : Except SettingsFault Settings :=
  match settings.fault? with
  | some fault => .error fault
  | none => .ok settings

/-- The settings that a TOML text gives. -/
def ofToml (toml : String) : Except SettingsFault Settings :=
  match (Toml.read? toml).bind (read? .toml) with
  | some settings => settings.checked
  | none => .error (.unreadable "settings cannot be read")

/-- The settings that a file gives, by its content if it exists. -/
def ofFile (content : Option String) : Except SettingsFault Settings :=
  match content with
  | some toml => ofToml toml
  | none => .error (.unreadable "cannot read the settings file")

end Settings

end ObjectVault
