/-
Histories of objects.  A listing is checked for gaps before it is returned,
and a committed transaction can be undone by a new commit that restores what
preceded it.
-/
import ObjectVault.Transaction

namespace ObjectVault.History

/-- The chain fault of a listing as a store error. -/
def check (oid : Oid) (listing : List VersionSummary) (complete : Bool)
    (packedBefore : Option Tid) : Except StoreError Unit :=
  match Chain.fault? complete packedBefore (listing.map (·.toLink)) with
  | some fault => .error (.corruption (.chain oid fault))
  | none => .ok ()

/-- At most `limit` versions of an object strictly before a tid, newest first.
One more is read, since it shows whether the last one returned links to it. -/
def listing [ObjectStore σ] (store : σ) (oid : Oid) (before : Option Tid) (limit : Nat) :
    Except StoreError (List VersionSummary) := do
  if limit = 0 then return []
  let listing ← ObjectStore.versions store oid before (limit + 1)
  if ObjectStore.keepsHistory store then
    check oid listing (listing.length ≤ limit) (← ObjectStore.packedBefore store)
  return listing.take limit

/-- A page of an object's history.  The tid of its last entry continues the
listing. -/
def page [ObjectStore σ] (store : σ) (oid : Oid) (before : Option Tid) (limit : Nat) :
    Except TxnError (List VersionSummary) :=
  (listing store oid before limit).mapError .store

/-- Remove every archived version.  No current version changes. -/
def drop [ObjectStore σ] (store : σ) : Except TxnError (PruneCounts × σ) :=
  (ObjectStore.dropHistory store).mapError .store

/-- The write that restores what preceded version `tid` of an object. -/
def restoring [ObjectStore σ] (store : σ) (tid : Tid) (oid : Oid) : Except TxnError Write := do
  let obstacle (what : UndoObstacle) : Except TxnError Write :=
    .error (.undoConflict oid tid what)
  match ← (ObjectStore.loadVersion store oid tid).mapError .store with
  | none => obstacle .notStored
  | some undone =>
      match undone.prev with
      | none => obstacle .createdHere
      | some prev =>
          match ← (ObjectStore.loadVersion store oid prev).mapError .store with
          | none => obstacle (.packedAway prev)
          | some restored =>
              let blob ← (ObjectStore.loadBlob store oid prev).mapError .store
              return ⟨oid, some tid, restored.state, restored.refs, blob⟩

/-- The writes that revert every object of transaction `tid`. -/
def reverting [ObjectStore σ] (store : σ) (tid : Tid) : Except TxnError (List Write) := do
  if !ObjectStore.keepsHistory store then
    throw (.invalidOperation .undoWithoutHistory)
  let oids ← (ObjectStore.oidsInTransaction store tid).mapError .store
  if oids.isEmpty then throw (.invalidOperation (.nothingRetained tid))
  oids.mapM (restoring store tid)

/-- What an undo answers and leaves behind. -/
structure Undone (σ κ : Type) where
  result : Except TxnError Tid
  store : σ
  cache : κ

/-- Revert every object written by transaction `tid`, as a new commit.  Each
object must still be at `tid`; the undone versions stay in history. -/
def undo [ObjectStore σ] [Invalidator κ] (clock : Clock) (timeoutMs : Option Nat)
    (note : CommitNote) (cancelled : Bool) (tid : Tid) (store : σ) (cache : κ) :
    Undone σ κ :=
  match reverting store tid with
  | .error error => ⟨.error error, store, cache⟩
  | .ok writes =>
      let txn := Transaction.start clock timeoutMs note cancelled
      let finished := { txn with writes }.commit clock store cache
      ⟨finished.result, finished.store, finished.cache⟩

end ObjectVault.History
