/-
The store that lives in memory.  Current versions, archived versions, blobs
and the transaction log are four tables.
-/
import ObjectVault.Store
import ObjectVault.Reach

namespace ObjectVault

/-- The log row of a commit. -/
structure LogEntry where
  time : Instant
  note : CommitNote
deriving DecidableEq, Inhabited

structure MemoryStore where
  keepsHistory : Bool
  /-- While offline every operation fails. -/
  offline : Bool := false
  current : OidMap Version := ∅
  history : VersionMap Version := ∅
  blobs : VersionMap Bytes := ∅
  log : Std.ExtTreeMap Tid LogEntry := ∅
  lastTid : Option Tid := none
  /-- The counter of oids, a word that wraps around. -/
  nextOid : Nat := 1
  packedBefore : Option Tid := none

namespace MemoryStore

/-- A new store without objects. -/
def empty (keepsHistory : Bool) : MemoryStore := { keepsHistory }

/-- The answer of an operation, if the store is online. -/
def online (store : MemoryStore) (answer : Except StoreError α) : Except StoreError α :=
  if store.offline then .error (.unavailable .offline) else answer

def currentTid? (store : MemoryStore) (oid : Oid) : Option Tid :=
  store.current[oid]?.map Version.tid

/-- The archived versions of an object, oldest first. -/
def archived (store : MemoryStore) (oid : Oid) : List Version :=
  store.history.toList.filterMap fun (key, version) =>
    if key.1 = oid then some version else none

/-- The stored versions of an object, oldest first.  The current version wins
over an archived one of the same tid. -/
def storedVersions (store : MemoryStore) (oid : Oid) : List Version :=
  match store.current[oid]? with
  | none => store.archived oid
  | some current =>
      let others := store.archived oid |>.filter (·.tid ≠ current.tid)
      others.filter (·.tid < current.tid) ++ current ::
        others.filter (current.tid < ·.tid)

/-- The history entry of a version.  Without a log row it is dated by its tid,
or by the start of 1970 if that has no date. -/
def summary (store : MemoryStore) (version : Version) : VersionSummary :=
  let entry := store.log[version.tid]?
  { tid := version.tid
    prev := version.prev
    size := version.size
    time := match entry with
      | some entry => entry.time
      | none => version.tid.instant?.getD default
    user := (entry.map (·.note.user)).getD ""
    description := (entry.map (·.note.description)).getD "" }

/-- Why a batch cannot be applied: its first write that repeats an object or
misjudges a current tid. -/
def refusal? (store : MemoryStore) : OidSet → List Write → Option StoreError
  | _, [] => none
  | seen, write :: rest =>
      let actual := store.currentTid? write.oid
      if seen.contains write.oid then some (.duplicateWrite write.oid)
      else if actual ≠ write.expected then
        some (.conflict write.oid write.expected actual)
      else refusal? store (seen.insert write.oid) rest

/-- Make one write current under `tid`.  The version it supersedes is
archived, or dropped with its blobs if the store keeps no history. -/
def apply (tid : Tid) (store : MemoryStore) (write : Write) : MemoryStore :=
  let kept :=
    if store.keepsHistory then store.blobs
    else store.blobs.filter fun key _ => !(key.1 = write.oid && key.2 < tid)
  { store with
    current := store.current.insert write.oid (write.version tid)
    history := match store.current[write.oid]? with
      | some outgoing =>
          if store.keepsHistory then store.history.insert (write.oid, outgoing.tid) outgoing
          else store.history
      | none => store.history
    blobs := match write.blob with
      | some blob => kept.insert (write.oid, tid) blob
      | none => kept
    nextOid := max store.nextOid (min (write.oid.toNat + 1) Oid.maxWord) }

/-- Apply a batch that was found valid, and log it. -/
def applyAll (store : MemoryStore) (tid : Tid) (now : Instant) (note : CommitNote)
    (writes : List Write) : MemoryStore :=
  let written := writes.foldl (apply tid) store
  { written with
    log := written.log.insert tid ⟨tid.instant?.getD now, note⟩
    lastTid := some tid }

/-- Whether the version is stored. -/
def hasVersion (store : MemoryStore) (key : VersionKey) : Bool :=
  store.currentTid? key.1 == some key.2 || store.history.contains key

/-- The tids of all stored versions. -/
def storedTids (store : MemoryStore) : Std.ExtTreeSet Tid :=
  .ofList ((store.current.toList.map fun (_, version) => version.tid) ++
    store.history.keys.map Prod.snd)

/-- Remove blobs and log rows that no stored version refers to.  The counts
name the history rows removed before. -/
def cleanUp (store : MemoryStore) (historyRemoved : Nat) : PruneCounts × MemoryStore :=
  let tids := store.storedTids
  let blobs := store.blobs.filter fun key _ => store.hasVersion key
  let log := store.log.filter fun tid _ => tids.contains tid
  (⟨historyRemoved, store.blobs.size - blobs.size, store.log.size - log.size⟩,
    { store with blobs, log })

/-- Whether an archived version has a newer one still below the boundary. -/
def isOutdated (store : MemoryStore) (boundary : Tid) (key : VersionKey) : Bool :=
  (store.storedVersions key.1).any fun newer =>
    key.2 < newer.tid && newer.tid < boundary

def prune (store : MemoryStore) (boundary : Tid) : PruneCounts × MemoryStore :=
  if store.keepsHistory then
    let history := store.history.filter fun key _ => !store.isOutdated boundary key
    { store with
      history
      packedBefore := Tid.latest store.packedBefore (some boundary)
    }.cleanUp (store.history.size - history.size)
  else store.cleanUp 0

/-- Every archived version goes.  The surviving ones link to versions that are
gone, so the boundary of pruned history moves above the last tid. -/
def dropAll (store : MemoryStore) : PruneCounts × MemoryStore :=
  { store with
    history := ∅
    packedBefore :=
      if store.keepsHistory then
        Tid.latest store.packedBefore (store.lastTid.map Tid.succ)
      else store.packedBefore
  }.cleanUp store.history.size

/-- Remove objects with all their versions and blobs. -/
def deleteAll (store : MemoryStore) (oids : OidSet) : SweepOutcome × MemoryStore :=
  let current := store.current.filter fun oid _ => !oids.contains oid
  let history := store.history.filter fun key _ => !oids.contains key.1
  let blobs := store.blobs.filter fun key _ => !oids.contains key.1
  (.deleted (store.current.size - current.size) (store.history.size - history.size)
    (store.blobs.size - blobs.size), { store with current, history, blobs })

/-- Current objects whose tid passes a test, ascending. -/
def currentWhere (store : MemoryStore) (test : Tid → Bool) : List (Oid × Tid) :=
  store.current.toList.filterMap fun (oid, version) =>
    if test version.tid then some (oid, version.tid) else none

/-- The references of an object's current version. -/
def targets (store : MemoryStore) (oid : Oid) : List Oid :=
  match store.current[oid]? with
  | some version => version.refs.toList
  | none => []

def reachable (store : MemoryStore) (roots : List Oid) : OidSet :=
  Reach.closure store.targets store.current.size roots

instance : ObjectStore MemoryStore where
  keepsHistory store := store.keepsHistory
  newOid store := store.online <|
    .ok (Oid.ofNat store.nextOid, { store with nextOid := (store.nextOid + 1) % UInt64.size })
  lastTid store := store.online (.ok store.lastTid)
  load store oid := store.online (.ok store.current[oid]?)
  loadMany store oids := store.online (.ok (oids.map (store.current[·]?)))
  currentTids store oids := store.online <| .ok <|
    oids.foldl (fun tids oid => match store.currentTid? oid with
      | some tid => tids.insert oid tid
      | none => tids) ∅
  loadBefore store oid before := store.online <|
    let versions := store.storedVersions oid
    .ok do
      let (place, ended) ← Tid.newestBefore (versions.map Version.tid) before
      let version ← versions[place]?
      return ⟨version, ended⟩
  loadVersion store oid tid := store.online <| .ok <|
    match store.current[oid]? with
    | some current => if current.tid = tid then some current else store.history[(oid, tid)]?
    | none => store.history[(oid, tid)]?
  loadBlob store oid tid := store.online (.ok store.blobs[(oid, tid)]?)
  versions store oid before limit := store.online <|
    let listed := (store.storedVersions oid).reverse.filter fun version =>
      before.all (version.tid < ·)
    .ok ((listed.take limit).map store.summary)
  oidsInTransaction store tid := store.online <|
    let current := (store.currentWhere (· = tid)).map Prod.fst
    let archived := store.history.keys.filterMap fun key =>
      if key.2 = tid then some key.1 else none
    .ok (OidSet.ofOids (current ++ archived)).toList
  packedBefore store := store.online (.ok store.packedBefore)
  commit store now note writes := store.online <|
    match store.refusal? ∅ writes with
    | some error => .error error
    | none =>
        let tid := Tid.nextAfter store.lastTid now
        .ok (tid, store.applyAll tid now note writes)
  changesSince store since := store.online <|
    .ok (store.lastTid, (store.currentWhere (since < ·)).map Prod.fst)
  reachableFrom store roots := store.online (.ok (store.reachable roots))
  committedUpto store snapshot := store.online (.ok (store.currentWhere (· ≤ snapshot)))
  deleteObjects store oids guardTid := store.online <|
    match store.lastTid with
    | some last =>
        if guardTid < last then .ok (.stale last, store)
        else .ok (store.deleteAll (OidSet.ofOids oids))
    | none => .ok (store.deleteAll (OidSet.ofOids oids))
  pruneHistory store boundary := store.online (.ok (store.prune boundary))
  dropHistory store := store.online (.ok store.dropAll)
  describe store := Describe.record "InMemoryObjectStore"
    [("history_preserving", Describe.truth store.keepsHistory),
      ("object_count", toString store.current.size),
      ("history_count", toString store.history.size)]

end MemoryStore

end ObjectVault
