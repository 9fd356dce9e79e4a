/-
The forms in which values are exchanged as documents.  A record is written
with its fields in order and read from a record or from a list of its fields.
An alternative is written as its name, or as a record with its name and its
content.
-/
import ObjectVault.Collector
import ObjectVault.Document.Json
import ObjectVault.Instant.Rfc3339
import ObjectVault.Transaction

namespace ObjectVault

/-- Where formats differ in how values are read from them. -/
structure Format where
  /-- A list in place of a record may have more items than fields. -/
  ignoresSurplus : Bool
  /-- An alternative without content has an empty list or record as its
  content, rather than null. -/
  emptyIsNothing : Bool
  /-- In a record whose kind is told by a field, all the other fields have to be
  sound, even those that nobody asks for. -/
  checksUnasked : Bool

def Format.json : Format := ⟨false, false, true⟩
def Format.toml : Format := ⟨true, true, false⟩

/-- Whether a document is the content of an alternative without one. -/
def Format.isNothing (format : Format) : Document → Bool
  | .null => !format.emptyIsNothing
  | .list [] | .record [] => format.emptyIsNothing
  | _ => false

/-- The name of an alternative and its content.  A record that stands for one
has a single field. -/
def Document.alternative? : Document → Option (String × Option Document)
  | .text content => (Bytes.text? content).map fun name => (name, none)
  | .record [(key, content)] => (Bytes.text? key).map fun name => (name, some content)
  | _ => none

/-- The name of an alternative that has no content. -/
def Document.plainAlternative? (format : Format) (document : Document) : Option String := do
  let (name, content) ← document.alternative?
  if content.all format.isNothing then some name else none

/-- Values with an exchange form. -/
class Exchange (α : Type) where
  write : α → Document
  read? : Document → Option α

open Document

instance : Exchange Oid where
  write oid := .ofNat oid.toNat
  read? document := document.word?.map Oid.ofNat

instance : Exchange Tid where
  write tid := .ofNat tid.micros
  read? document := document.word?.map Tid.mk

instance : Exchange OidSet where
  write oids := .list (oids.toList.map Exchange.write)
  read? document := (document.listOf? Exchange.read?).map OidSet.ofOids

instance : Exchange Version where
  write version := .ofFields
    [("oid", Exchange.write version.oid), ("tid", Exchange.write version.tid),
      ("prev_tid", .ofOption Exchange.write version.prev), ("state", .ofBytes version.state),
      ("refs", Exchange.write version.refs)]
  read? document := do
    let [oid, tid, prev, state, refs] ←
      document.slots? ["oid", "tid", "prev_tid", "state", "refs"] | none
    return ⟨← required? Exchange.read? oid, ← required? Exchange.read? tid,
      ← optional? Exchange.read? prev, ← required? bytes? state,
      ← required? Exchange.read? refs⟩

instance : Exchange Write where
  write write := .ofFields
    [("oid", Exchange.write write.oid),
      ("expected_tid", .ofOption Exchange.write write.expected),
      ("state", .ofBytes write.state), ("refs", Exchange.write write.refs),
      ("blob", .ofOption .ofBytes write.blob)]
  read? document := do
    let [oid, expected, state, refs, blob] ←
      document.slots? ["oid", "expected_tid", "state", "refs", "blob"] | none
    return ⟨← required? Exchange.read? oid, ← optional? Exchange.read? expected,
      ← required? bytes? state, ← required? Exchange.read? refs, ← optional? bytes? blob⟩

instance : Exchange CommitNote where
  write note := .ofFields
    [("user", .ofText note.user), ("description", .ofText note.description),
      ("extension", .ofBytes note.extra)]
  read? document := do
    let [user, description, extra] ←
      document.slots? ["user", "description", "extension"] | none
    return ⟨← required? text? user, ← required? text? description, ← required? bytes? extra⟩

instance : Exchange Instant where
  write moment := .ofText (Rfc3339.zuluText moment)
  read? document := document.text?.bind Rfc3339.readTolerant?

instance : Exchange VersionSummary where
  write summary := .ofFields
    [("tid", Exchange.write summary.tid), ("prev_tid", .ofOption Exchange.write summary.prev),
      ("size", .ofNat summary.size), ("timestamp", Exchange.write summary.time),
      ("user", .ofText summary.user), ("description", .ofText summary.description)]
  read? document := do
    let [tid, prev, size, time, user, description] ←
      document.slots? ["tid", "prev_tid", "size", "timestamp", "user", "description"] | none
    return ⟨⟨← required? Exchange.read? tid, ← optional? Exchange.read? prev⟩,
      ← required? word? size, ← required? Exchange.read? time, ← required? text? user,
      ← required? text? description⟩

def AbortReason.all : List AbortReason :=
  [.requested, .conflict, .cancelled, .timedOut, .storeFailure]

instance : Exchange AbortReason where
  write reason := .ofText reason.name
  read? document := do
    let name ← document.plainAlternative? .json
    AbortReason.all.find? (·.name = name)

instance : Exchange TxnState where
  write
    | .opened => .ofText "Open"
    | .voting => .ofText "Voting"
    | .committed tid => .ofFields [("Committed", Exchange.write tid)]
    | .aborted reason => .ofFields [("Aborted", Exchange.write reason)]
  read? document := do
    let (name, content) ← document.alternative?
    let nothing := content.all Format.json.isNothing
    match name with
    | "Open" => if nothing then some .opened else none
    | "Voting" => if nothing then some .voting else none
    | "Committed" => (content.bind Exchange.read?).map .committed
    | "Aborted" => (content.bind Exchange.read?).map .aborted
    | _ => none

instance : Exchange CacheStats where
  write stats := .ofFields
    [("budget_bytes", .ofNat stats.budget), ("resident_bytes", .ofNat stats.resident),
      ("entries", .ofNat stats.entries), ("hits", .ofNat stats.hits),
      ("misses", .ofNat stats.misses), ("inserts", .ofNat stats.inserts),
      ("evictions", .ofNat stats.evictions), ("invalidations", .ofNat stats.invalidations),
      ("stale_fills", .ofNat stats.staleFills)]
  read? document := do
    let slots ← document.slots?
      ["budget_bytes", "resident_bytes", "entries", "hits", "misses", "inserts", "evictions",
        "invalidations", "stale_fills"]
    let [budget, resident, entries, hits, misses, inserts, evictions, invalidations, stale] ←
      slots.mapM (required? word?) | none
    return ⟨⟨hits, misses, inserts, evictions, invalidations, stale⟩, budget, resident, entries⟩

instance : Exchange PackReport where
  write report := .ofFields
    [("objects_removed", .ofNat report.objectsRemoved),
      ("history_removed", .ofNat report.historyRemoved),
      ("blobs_removed", .ofNat report.blobsRemoved),
      ("transactions_removed", .ofNat report.transactionsRemoved),
      ("reachable", .ofNat report.reachable),
      ("candidates_deferred", .ofNat report.candidatesDeferred),
      ("batches", .ofNat report.batches), ("remarks", .ofNat report.remarks)]
  read? document := do
    let slots ← document.slots?
      ["objects_removed", "history_removed", "blobs_removed", "transactions_removed",
        "reachable", "candidates_deferred", "batches", "remarks"]
    let [objects, history, blobs, transactions, reachable, deferred, batches, remarks] ←
      slots.mapM (required? word?) | none
    return ⟨objects, history, blobs, transactions, reachable, deferred, batches, remarks⟩

instance : Exchange PruneCounts where
  write counts := .ofFields
    [("history", .ofNat counts.history), ("blobs", .ofNat counts.blobs),
      ("transactions", .ofNat counts.transactions)]
  read? document := do
    let slots ← document.slots? ["history", "blobs", "transactions"]
    let [history, blobs, transactions] ← slots.mapM (required? word?) | none
    return ⟨history, blobs, transactions⟩

/-- A stale outcome is told by its field. -/
instance : Exchange SweepOutcome where
  write
    | .deleted objects history blobs => .ofFields
        [("objects", .ofNat objects), ("history", .ofNat history), ("blobs", .ofNat blobs)]
    | .stale last => .ofFields [("stale", Exchange.write last)]
  read? document := do
    match ← document.slots? ["stale"] with
    | [some last] => return .stale (← Exchange.read? last)
    | _ =>
        let slots ← document.slots? ["objects", "history", "blobs"]
        let [objects, history, blobs] ← slots.mapM (required? word?) | none
        return .deleted objects history blobs

instance : Exchange Marked where
  write marked := .ofFields
    [("snapshot", Exchange.write marked.snapshot),
      ("reachable", Exchange.write marked.reachable),
      ("candidates", Exchange.write marked.candidates), ("deferred", .ofNat marked.deferred)]
  read? document := do
    let [snapshot, reachable, candidates, deferred] ←
      document.slots? ["snapshot", "reachable", "candidates", "deferred"] | none
    return ⟨← required? Exchange.read? snapshot, ← required? Exchange.read? reachable,
      ← required? Exchange.read? candidates, ← required? word? deferred⟩

def Retention.name : Retention → String
  | keepNone => "none"
  | keepAfterBoundary => "keep-after-boundary"

def Retention.read? (format : Format) (document : Document) : Option Retention := do
  let name ← document.plainAlternative? format
  [Retention.keepNone, .keepAfterBoundary].find? (·.name = name)

instance : Exchange Retention where
  write retention := .ofText retention.name
  read? := Retention.read? .json

/-- Every setting has a default, so a list may also fall short. -/
def PackSettings.read? (format : Format) (document : Document) : Option PackSettings := do
  let [batchSize, retention] ←
    document.slots? ["batch_size", "retention"] ⟨true, format.ignoresSurplus⟩ | none
  return ⟨← defaulted? 500 word? batchSize,
    ← defaulted? .keepNone (Retention.read? format) retention⟩

instance : Exchange PackSettings where
  write settings := .ofFields
    [("batch_size", .ofNat settings.batchSize),
      ("retention", Exchange.write settings.retention)]
  read? := PackSettings.read? .json

end ObjectVault
