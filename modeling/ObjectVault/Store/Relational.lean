/-
The store over a relational database.  The database outlives the store and may
be shared by several of them, so all that a store knows beyond its tables is
its mode and its connections.

The database compares columns as signed integers and the store compares tids
as unsigned ones, so each comparison says which it is.
-/
import ObjectVault.Instant.Rfc3339
import ObjectVault.Pool
import ObjectVault.Reach
import ObjectVault.Store
import ObjectVault.Store.Column

namespace ObjectVault

/-- The columns of a version that are not its keys. -/
structure VersionRow where
  prev : Option Tid
  state : Bytes
  size : Int
  /-- The references, as text. -/
  refs : Bytes
deriving DecidableEq

structure CurrentRow extends VersionRow where
  tid : Tid
deriving DecidableEq

/-- A row of the transaction log. -/
structure LogRow where
  /-- The commit time, as text. -/
  time : String
  note : CommitNote
deriving DecidableEq

/-- The tables of a database. -/
structure Database where
  current : OidMap CurrentRow := ∅
  history : VersionMap VersionRow := ∅
  blobs : VersionMap Bytes := ∅
  log : Std.ExtTreeMap Tid LogRow := ∅
  lastTid : Option Int := none
  /-- The counter of oids.  It wraps around with its column. -/
  nextOid : Option Int := none
  packedBefore : Option Int := none
  /-- One for a database that keeps history, zero for one that does not. -/
  mode : Option Int := none

structure RelationalStore where
  keepsHistory : Bool
  connections : Nat
  database : Database

namespace VersionRow

/-- The version that a row holds, if its references can be read. -/
def version (row : VersionRow) (oid : Oid) (tid : Tid) : Except StoreError Version :=
  match Column.readRefs? row.refs with
  | some refs => .ok ⟨oid, tid, row.prev, row.state, refs⟩
  | none => .error (.serialization .refs)

end VersionRow

namespace Database

/-- The mode column of a store. -/
def modeColumn (keepsHistory : Bool) : Int := if keepsHistory then 1 else 0

/-- Take the database into use in a mode.  One that was created in the other
mode is refused. -/
def adopt (database : Database) (keepsHistory : Bool) : Except StoreError Database :=
  match database.mode with
  | none => .ok { database with mode := some (modeColumn keepsHistory) }
  | some mode =>
      if mode = modeColumn keepsHistory then .ok database
      else .error (.modeMismatch (mode ≠ 0) keepsHistory)

def currentTid? (database : Database) (oid : Oid) : Option Tid :=
  database.current[oid]?.map (·.tid)

def last? (database : Database) : Option Tid := database.lastTid.map Tid.ofColumn

def currentVersion? (database : Database) (oid : Oid) : Except StoreError (Option Version) :=
  match database.current[oid]? with
  | some row => (row.version oid row.tid).map some
  | none => .ok none

/-- The archived rows of an object. -/
def archived (database : Database) (oid : Oid) : List (Tid × VersionRow) :=
  database.history.toList.filterMap fun (key, row) =>
    if key.1 = oid then some (key.2, row) else none

end Database

namespace RelationalStore

/-- A store over a database, with its first connections opened. -/
def «open» (database : Database) (keepsHistory : Bool) (settings : PoolSettings) :
    Except StoreError RelationalStore := do
  let connect : Connector Unit Unit := fun _ => (.ok (), ())
  let pool ← (Pool.create settings connect ()).1
  let (borrowed, pool, _) := pool.get connect ()
  let _ ← borrowed
  let database ← database.adopt keepsHistory
  return { keepsHistory, connections := pool.opened, database }

/-- The archived rows that the store looks at. -/
def archived (store : RelationalStore) (oid : Oid) : List (Tid × VersionRow) :=
  if store.keepsHistory then store.database.archived oid else []

/-- The stored versions of an object, ascending.  The current version wins
over an archived one of the same tid. -/
def storedVersions (store : RelationalStore) (oid : Oid) :
    Except StoreError (List Version) := do
  let archived ← (store.archived oid).mapM fun (tid, row) => row.version oid tid
  match ← store.database.currentVersion? oid with
  | none => return archived
  | some current =>
      let others := archived.filter (·.tid ≠ current.tid)
      return others.filter (·.tid < current.tid) ++ current ::
        others.filter (current.tid < ·.tid)

/-- The time of a version, from the log or else from its tid. -/
def timeOf (store : RelationalStore) (tid : Tid) : Except StoreError Instant :=
  match store.database.log[tid]? with
  | some row =>
      match Rfc3339.readExact? row.time with
      | some time => .ok time
      | none => .error (.serialization (.timestamp row.time))
  | none =>
      match tid.instant? with
      | some time => .ok time
      | none => .error (.serialization (.instant tid))

/-- The history entry of a row. -/
def summary (store : RelationalStore) (tid : Tid) (row : VersionRow) :
    Except StoreError VersionSummary := do
  let time ← store.timeOf tid
  let note := (store.database.log[tid]?.map (·.note)).getD {}
  return ⟨⟨tid, row.prev⟩, row.size.toNat, time, note.user, note.description⟩

/-- Whether two rows are the same to a listing. -/
def sameEntry (a b : Tid × VersionRow) : Bool :=
  a.1 = b.1 && a.2.prev = b.2.prev && a.2.size = b.2.size

/-- The order of a listing: the largest tid column first.  Rows of one tid come
by their predecessors, none first, and then by size. -/
def listed (a b : Tid × VersionRow) : Ordering :=
  (compare b.1.column a.1.column).then <|
    (compare (a.2.prev.map Tid.column) (b.2.prev.map Tid.column)).then <|
      compare a.2.size b.2.size

/-- The rows of an object whose tid column is below `upper`, in the order of a
listing. -/
def rowsBelow (store : RelationalStore) (oid : Oid) (upper : Int) : List (Tid × VersionRow) :=
  let archived := store.archived oid
  let rows := match store.database.current[oid]? with
    | none => archived
    | some row =>
        let current := (row.tid, row.toVersionRow)
        current :: archived.filter (!sameEntry current ·)
  (rows.filter fun (tid, _) => tid.column < upper).mergeSort fun a b => (listed a b).isLE

/-- The first object written twice. -/
def repeated? : OidSet → List Write → Option Oid
  | _, [] => none
  | seen, write :: rest =>
      if seen.contains write.oid then some write.oid
      else repeated? (seen.insert write.oid) rest

/-- The first write whose expected tid is not the current one. -/
def conflict? (database : Database) : List Write → Option StoreError
  | [] => none
  | write :: rest =>
      let actual := database.currentTid? write.oid
      if actual = write.expected then conflict? database rest
      else some (.conflict write.oid write.expected actual)

/-- Insert a row whose key must be new. -/
def insertNew {order : κ → κ → Ordering} [Std.TransCmp order] (name : String)
    (table : Std.ExtTreeMap κ α order) (key : κ) (row : α) :
    Except StoreError (Std.ExtTreeMap κ α order) :=
  if table.contains key then .error (.backend (.duplicateKey name))
  else .ok (table.insert key row)

/-- The history once a write has been made, with the version it supersedes if
the store keeps history. -/
def archive (keepsHistory : Bool) (database : Database) (write : Write) :
    Except StoreError (VersionMap VersionRow) :=
  match database.current[write.oid]? with
  | some outgoing =>
      if keepsHistory && write.expected.isSome then
        insertNew "object_history" database.history (write.oid, outgoing.tid)
          outgoing.toVersionRow
      else .ok database.history
  | none => .ok database.history

/-- The blobs once a write has been made.  A store that keeps no history drops
those of older versions. -/
def addBlob (keepsHistory : Bool) (tid : Tid) (database : Database) (write : Write) :
    Except StoreError (VersionMap Bytes) :=
  let kept :=
    if keepsHistory then database.blobs
    else database.blobs.filter fun key _ =>
      !(key.1 = write.oid && key.2.column < tid.column)
  match write.blob with
  | some blob => insertNew "blob_state" kept (write.oid, tid) blob
  | none => .ok kept

/-- Make one write current under `tid`. -/
def apply (keepsHistory : Bool) (tid : Tid) (database : Database) (write : Write) :
    Except StoreError Database := do
  let history ← archive keepsHistory database write
  let blobs ← addBlob keepsHistory tid database write
  return { database with
    current := database.current.insert write.oid
      { tid, prev := write.expected, state := write.state, size := write.state.length
        refs := Column.refs write.refs }
    history, blobs }

/-- The counter of oids after a commit.  It moves above the largest oid
written, unless that lies in the upper half of the words. -/
def nextOidAfter (next : Option Int) (writes : List Write) : Option Int :=
  let largest := (writes.map fun write => write.oid.toNat).foldl max 0
  let floor := (Oid.ofNat (min (largest + 1) Oid.maxWord)).column
  if next.getD 1 < floor then some floor else next

def commit (store : RelationalStore) (now : Instant) (note : CommitNote)
    (writes : List Write) : Except StoreError (Tid × RelationalStore) := do
  if let some oid := repeated? ∅ writes then throw (.duplicateWrite oid)
  let database := store.database
  if let some error := conflict? database writes then throw error
  let tid := Tid.nextAfter database.last? now
  let time := Rfc3339.offsetText (tid.instant?.getD now)
  let log ← insertNew "transaction_log" database.log tid ⟨time, note⟩
  let written ← writes.foldlM (apply store.keepsHistory tid) { database with log }
  return (tid, { store with database := { written with
    lastTid := some tid.column
    nextOid := nextOidAfter written.nextOid writes } })

def hasVersion (store : RelationalStore) (key : VersionKey) : Bool :=
  store.database.currentTid? key.1 == some key.2 ||
    (store.keepsHistory && store.database.history.contains key)

/-- The tids of the versions that the store looks at. -/
def storedTids (store : RelationalStore) : Std.ExtTreeSet Tid :=
  .ofList ((store.database.current.toList.map fun (_, row) => row.tid) ++
    if store.keepsHistory then store.database.history.keys.map Prod.snd else [])

/-- Remove blobs and log rows that no version refers to.  The counts name the
history rows removed before. -/
def cleanUp (store : RelationalStore) (historyRemoved : Nat) : PruneCounts × RelationalStore :=
  let database := store.database
  let tids := store.storedTids
  let blobs := database.blobs.filter fun key _ => store.hasVersion key
  let log := database.log.filter fun tid _ => tids.contains tid
  (⟨historyRemoved, database.blobs.size - blobs.size, database.log.size - log.size⟩,
    { store with database := { database with blobs, log } })

/-- Whether an archived row has a newer one below the boundary, or its object
a current one. -/
def isOutdated (database : Database) (boundary : Int) (key : VersionKey) : Bool :=
  key.2.column < boundary &&
    ((database.archived key.1).any (fun (tid, _) =>
        key.2.column < tid.column && tid.column < boundary) ||
      (database.currentTid? key.1).any (·.column < boundary))

def prune (store : RelationalStore) (boundary : Tid) : PruneCounts × RelationalStore :=
  if store.keepsHistory then
    let database := store.database
    let history := database.history.filter fun key _ =>
      !isOutdated database boundary.column key
    let packedBefore :=
      if (database.packedBefore.map Tid.ofColumn).all (· < boundary) then
        some boundary.column
      else database.packedBefore
    { store with database := { database with history, packedBefore }
    }.cleanUp (database.history.size - history.size)
  else store.cleanUp 0

/-- Every archived version goes, and the boundary of pruned history moves
above the last tid. -/
def dropAll (store : RelationalStore) : PruneCounts × RelationalStore :=
  if store.keepsHistory then
    let database := store.database
    let packedBefore := match database.last? with
      | none => database.packedBefore
      | some last =>
          let boundary := (Tid.mk (min (last.micros + 1) (UInt64.size - 1))).column
          if database.packedBefore.all (· < boundary) then some boundary
          else database.packedBefore
    { store with database := { database with history := ∅, packedBefore }
    }.cleanUp database.history.size
  else store.cleanUp 0

/-- Remove objects with their versions and blobs. -/
def deleteAll (store : RelationalStore) (oids : OidSet) : SweepOutcome × RelationalStore :=
  let database := store.database
  let current := database.current.filter fun oid _ => !oids.contains oid
  let history :=
    if store.keepsHistory then database.history.filter fun key _ => !oids.contains key.1
    else database.history
  let blobs := database.blobs.filter fun key _ => !oids.contains key.1
  (.deleted (database.current.size - current.size) (database.history.size - history.size)
      (database.blobs.size - blobs.size),
    { store with database := { database with current, history, blobs } })

/-- Current objects whose tid column passes a test, ascending. -/
def currentWhere (store : RelationalStore) (test : Int → Bool) : List (Oid × Tid) :=
  store.database.current.toList.filterMap fun (oid, row) =>
    if test row.tid.column then some (oid, row.tid) else none

/-- The objects that a query is led to from an object; none if its references
are malformed. -/
def walk? (store : RelationalStore) (oid : Oid) : Option (List Oid) :=
  match store.database.current[oid]? with
  | some row => Column.walk? row.refs
  | none => some []

/-- What the roots reach.  Malformed references of a reached object fail the
query. -/
def reachable (store : RelationalStore) (roots : List Oid) : Except StoreError OidSet :=
  let targets (oid : Oid) : List Oid := (store.walk? oid).getD []
  let reached := Reach.closure targets store.database.current.size roots
  if reached.toList.all fun oid => (store.walk? oid).isSome then .ok reached
  else .error (.backend .malformedRefs)

instance : ObjectStore RelationalStore where
  keepsHistory store := store.keepsHistory
  newOid store :=
    let next := store.database.nextOid.getD 1
    .ok (Oid.ofColumn next,
      { store with database := { store.database with
        nextOid := some (Column.ofInt (next + 1)) } })
  lastTid store := .ok store.database.last?
  load store oid := store.database.currentVersion? oid
  loadMany store oids := oids.mapM store.database.currentVersion?
  currentTids store oids := .ok <|
    oids.foldl (fun tids oid => match store.database.currentTid? oid with
      | some tid => tids.insert oid tid
      | none => tids) ∅
  loadBefore store oid before := do
    let versions ← store.storedVersions oid
    return do
      let (place, ended) ← Tid.newestBefore (versions.map Version.tid) before
      let version ← versions[place]?
      return ⟨version, ended⟩
  loadVersion store oid tid := do
    let current ← store.database.currentVersion? oid
    match current.filter (·.tid = tid) with
    | some version => return some version
    | none =>
        if !store.keepsHistory then return none
        match store.database.history[(oid, tid)]? with
        | some row => (row.version oid tid).map some
        | none => return none
  loadBlob store oid tid := .ok store.database.blobs[(oid, tid)]?
  versions store oid before limit :=
    let upper := (before.map Tid.column).getD Column.largest
    ((store.rowsBelow oid upper).take limit).mapM fun (tid, row) => store.summary tid row
  oidsInTransaction store tid :=
    let current := store.database.current.toList.filterMap fun (oid, row) =>
      if row.tid = tid then some oid else none
    let archived := store.database.history.keys.filterMap fun key =>
      if store.keepsHistory ∧ key.2 = tid then some key.1 else none
    .ok (OidSet.ofOids (current ++ archived)).toList
  packedBefore store := .ok (store.database.packedBefore.map Tid.ofColumn)
  commit := commit
  changesSince store since := .ok
    (store.database.last?, (store.currentWhere (since.column < ·)).map Prod.fst)
  reachableFrom store roots := store.reachable roots
  committedUpto store snapshot := .ok (store.currentWhere (· ≤ snapshot.column))
  deleteObjects store oids guardTid :=
    match store.database.last? with
    | some last =>
        if guardTid < last then .ok (.stale last, store)
        else .ok (store.deleteAll (OidSet.ofOids oids))
    | none => .ok (store.deleteAll (OidSet.ofOids oids))
  pruneHistory store boundary := .ok (store.prune boundary)
  dropHistory store := .ok store.dropAll
  describe store := Describe.record "SqliteObjectStore"
    [("history_preserving", Describe.truth store.keepsHistory),
      ("open_connections", toString store.connections)]

end RelationalStore

end ObjectVault
