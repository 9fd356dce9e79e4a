/-
Vaults: transactional storage of objects over a store.

Reads go through a cache that every commit and pack made through the same
vault keeps up to date.  Commits made by others become visible to cached reads
with a synchronisation.
-/
import ObjectVault.Backend
import ObjectVault.History
import ObjectVault.Vault.Error

namespace ObjectVault

/-- A vault of objects `α`.  The store belongs to no vault in particular. -/
structure Vault (α : Type) where
  settings : Settings
  cache : Cache α
  /-- The last tid that the cache is known to account for. -/
  synced : Option Tid

/-- An object to write, with the tid its current version should have. -/
structure StoreRequest (α : Type) where
  oid : Oid
  expected : Option Tid
  object : α
  blob : Option Bytes := none

/-- A decoded read of the past. -/
structure Revision (α : Type) where
  object : α
  tid : Tid
  ended : Option Tid

namespace Vault

/-- A result with the vault and the store it leaves. -/
structure Outcome (α σ β : Type) where
  result : Except VaultError β
  vault : Vault α
  store : σ

/-- The store that the settings name.  A database is taken by its path. -/
def openBackend (settings : Settings) (database : String → Database) :
    Except VaultError Backend :=
  match settings.place with
  | .memory => .ok (.memory (.empty settings.keepsHistory))
  | .database path =>
      match RelationalStore.open (database path) settings.keepsHistory settings.poolSettings with
      | .ok store => .ok (.relational store)
      | .error error => .error (.ofStore error)

/-- A vault over a store, which has to be in the mode of the settings. -/
def ofStore [ObjectStore σ] (settings : Settings) (store : σ) : Except VaultError (Vault α) := do
  let settings ← settings.checked.mapError fun fault => .config (.settings fault)
  let keepsHistory := ObjectStore.keepsHistory store
  if keepsHistory ≠ settings.keepsHistory then
    throw (.config (.historyMismatch keepsHistory settings.keepsHistory))
  let synced ← (ObjectStore.lastTid store).mapError .ofStore
  return { settings, cache := .ofMegabytes settings.cacheMegabytes, synced }

/-- A vault over the store that its settings name. -/
def «open» (settings : Settings) (database : String → Database) :
    Except VaultError (Vault α × Backend) := do
  let settings ← settings.checked.mapError fun fault => .config (.settings fault)
  let backend ← openBackend settings database
  return (← ofStore settings backend, backend)

/-- A fresh oid. -/
def newOid [ObjectStore σ] (store : σ) : Except VaultError (Oid × σ) :=
  (ObjectStore.newOid store).mapError .ofStore

/-- The tid of the latest commit. -/
def lastTid [ObjectStore σ] (store : σ) : Except VaultError (Option Tid) :=
  (ObjectStore.lastTid store).mapError .ofStore

/-- Decode a version that was read under a ticket and offer it to the cache. -/
def fill (codec : Codec α) (vault : Vault α) (ticket : FillTicket) (version : Version) :
    Except VaultError (α × Vault α) :=
  match codec.decode version.state with
  | .error error => .error (.codec error)
  | .ok object =>
      let (_, cache) :=
        vault.cache.putIfFresh version.oid version.tid object version.size ticket
      .ok (object, { vault with cache })

/-- The current version of an object, and its tid. -/
def load [ObjectStore σ] (codec : Codec α) (vault : Vault α) (store : σ) (oid : Oid) :
    Except VaultError (α × Tid) × Vault α :=
  let (found, cache) := vault.cache.get oid
  let vault := { vault with cache }
  match found with
  | some (tid, object) => (.ok (object, tid), vault)
  | none =>
      match ObjectStore.load store oid with
      | .error error => (.error (.ofStore error), vault)
      | .ok none => (.error (.notFound oid), vault)
      | .ok (some version) =>
          match vault.fill codec vault.cache.ticket version with
          | .error error => (.error error, vault)
          | .ok (object, vault) => (.ok (object, version.tid), vault)

/-- Look several objects up in the cache. -/
def lookUp (cache : Cache α) : List Oid → List (Oid × Option (Tid × α)) × Cache α
  | [] => ([], cache)
  | oid :: oids =>
      let (found, cache) := cache.get oid
      let (rest, cache) := lookUp cache oids
      ((oid, found) :: rest, cache)

/-- Put the versions that were read in the places of those that the cache did
not have. -/
def fillGaps (codec : Codec α) (ticket : FillTicket) (vault : Vault α) :
    List (Oid × Option (Tid × α)) → List (Option Version) →
      Except VaultError (List (Option (α × Tid))) × Vault α
  | [], _ => (.ok [], vault)
  | (_, some (tid, object)) :: rest, versions =>
      let (filled, vault) := fillGaps codec ticket vault rest versions
      (filled.map (some (object, tid) :: ·), vault)
  | (_, none) :: rest, some version :: versions =>
      match vault.fill codec ticket version with
      | .error error => (.error error, vault)
      | .ok (object, vault) =>
          let (filled, vault) := fillGaps codec ticket vault rest versions
          (filled.map (some (object, version.tid) :: ·), vault)
  | (_, none) :: rest, versions =>
      let (filled, vault) := fillGaps codec ticket vault rest versions.tail
      (filled.map (none :: ·), vault)

/-- The current versions of several objects; those that the cache lacks are
read from the store together. -/
def loadMany [ObjectStore σ] (codec : Codec α) (vault : Vault α) (store : σ)
    (oids : List Oid) : Except VaultError (List (Option (α × Tid))) × Vault α :=
  let (found, cache) := lookUp vault.cache oids
  let vault := { vault with cache }
  let missing := found.filterMap fun (oid, entry) => if entry.isNone then some oid else none
  if missing.isEmpty then
    (.ok (found.map fun (_, entry) => entry.map fun (tid, object) => (object, tid)), vault)
  else match ObjectStore.loadMany store missing with
    | .error error => (.error (.ofStore error), vault)
    | .ok versions => fillGaps codec vault.cache.ticket vault found versions

/-- The version of an object that was current strictly before a tid. -/
def loadBefore [ObjectStore σ] (codec : Codec α) (store : σ) (oid : Oid) (before : Tid) :
    Except VaultError (Revision α) := do
  let some past ← (ObjectStore.loadBefore store oid before).mapError .ofStore
    | throw (.notFound oid)
  let object ← (codec.decode past.version.state).mapError .codec
  return ⟨object, past.version.tid, past.ended⟩

/-- The blob stored with a version. -/
def loadBlob [ObjectStore σ] (store : σ) (oid : Oid) (tid : Tid) : Except VaultError Bytes := do
  let some blob ← (ObjectStore.loadBlob store oid tid).mapError .ofStore
    | throw (.notFound oid)
  return blob

/-- At most `limit` versions of an object strictly before a tid, newest
first. -/
def history [ObjectStore σ] (store : σ) (oid : Oid) (before : Option Tid) (limit : Nat) :
    Except VaultError (List VersionSummary) :=
  (History.page store oid before limit).mapError .ofTxn

/-- A transaction with the time that the settings give it. -/
def start (vault : Vault α) (clock : Clock) (note : CommitNote) : Transaction :=
  .start clock vault.settings.transactionTimeoutMs note

/-- Stage an encoded write. -/
def stageWrite (txn : Transaction) (write : Write) : Except VaultError Transaction :=
  (txn.stage write).mapError .ofTxn

/-- Encode an object and stage it. -/
def stage (codec : Codec α) (txn : Transaction) (request : StoreRequest α) :
    Except VaultError Transaction :=
  match codec.encode request.object with
  | .error error => .error (.codec error)
  | .ok encoded =>
      stageWrite txn
        ⟨request.oid, request.expected, encoded.state, encoded.refs, request.blob⟩

/-- Commit a transaction. -/
def commit [ObjectStore σ] (vault : Vault α) (clock : Clock) (store : σ) (txn : Transaction) :
    Outcome α σ Tid :=
  let finished := txn.commit clock store vault.cache
  ⟨finished.result.mapError .ofTxn, { vault with cache := finished.cache }, finished.store⟩

/-- Commit what was staged, unless staging failed. -/
def commitStaged [ObjectStore σ] (vault : Vault α) (clock : Clock) (store : σ) :
    Except VaultError Transaction → Outcome α σ Tid
  | .error error => ⟨.error error, vault, store⟩
  | .ok txn => vault.commit clock store txn

/-- Encode and commit a batch. -/
def store [ObjectStore σ] (codec : Codec α) (vault : Vault α) (clock : Clock) (backend : σ)
    (note : CommitNote) (requests : List (StoreRequest α)) : Outcome α σ Tid :=
  vault.commitStaged clock backend (requests.foldlM (stage codec) (vault.start clock note))

/-- Commit a batch of encoded writes. -/
def commitWrites [ObjectStore σ] (vault : Vault α) (clock : Clock) (store : σ)
    (note : CommitNote) (writes : List Write) : Outcome α σ Tid :=
  vault.commitStaged clock store (writes.foldlM stageWrite (vault.start clock note))

/-- Revert what a transaction wrote, as a new commit. -/
def undo [ObjectStore σ] (vault : Vault α) (clock : Clock) (store : σ) (note : CommitNote)
    (tid : Tid) : Outcome α σ Tid :=
  let undone :=
    History.undo clock vault.settings.transactionTimeoutMs note false tid store vault.cache
  ⟨undone.result.mapError .ofTxn, { vault with cache := undone.cache }, undone.store⟩

/-- Remove unreachable objects, and history older than an instant. -/
def pack [ObjectStore σ] (vault : Vault α) (store : σ) (before : Instant) (cancelled : Bool) :
    Outcome α σ PackReport :=
  let collector : Collector := { settings := vault.settings.pack }
  let swept := collector.pack cancelled (.ofInstant before) store vault.cache
  ⟨swept.result.mapError .ofPack, { vault with cache := swept.cache }, swept.store⟩

/-- Above so many changed objects a synchronisation empties the cache. -/
def clearThreshold : Nat := 10000

/-- The cache without the objects that others have changed. -/
def withoutChanged (cache : Cache α) (changed : List Oid) : Cache α :=
  if clearThreshold < changed.length then cache.clear
  else if changed.isEmpty then cache
  else cache.invalidate changed

/-- Drop from the cache what was changed since the last synchronisation, and
count it.  Deletions by packs of others go unnoticed. -/
def sync [ObjectStore σ] (vault : Vault α) (store : σ) : Except VaultError (Nat × Vault α) :=
  match ObjectStore.changesSince store (vault.synced.getD .zero) with
  | .error error => .error (.ofStore error)
  | .ok (last, changed) =>
      .ok (changed.length,
        { vault with
          cache := withoutChanged vault.cache changed
          synced := Tid.latest vault.synced last })

/-- Discard all archived versions, and count them. -/
def dropHistory [ObjectStore σ] (vault : Vault α) (store : σ) : Outcome α σ Nat :=
  match History.drop store with
  | .error error => ⟨.error (.ofTxn error), vault, store⟩
  | .ok (counts, store) =>
      ⟨.ok counts.history, { vault with cache := vault.cache.clear }, store⟩

/-- The description of the part that commits. -/
def describeCoordinator (keepsHistory : Bool) (timeoutMs : Option Nat) : String :=
  Describe.record "Coordinator"
    [("history_preserving", Describe.truth keepsHistory),
      ("timeout", Describe.option Describe.duration timeoutMs)]

def describe [ObjectStore σ] (vault : Vault α) (store : σ) : String :=
  Describe.record "Storage"
    [("name", Describe.quoted vault.settings.name),
      ("coordinator", describeCoordinator (ObjectStore.keepsHistory store)
        vault.settings.transactionTimeoutMs),
      ("cache", vault.cache.describe)]
    true

end Vault

end ObjectVault
