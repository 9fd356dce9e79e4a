/-
Object stores.  A store holds the current version of every object and, if it
keeps history, the versions they superseded.  A mutating operation returns the
store it leaves; a failed one returns no store, so nothing has changed.

A commit is atomic: it re-checks every expected tid, assigns a tid above all
earlier ones, archives the versions it supersedes and makes all writes current.
States are never interpreted; only references are read.
-/
import ObjectVault.Store.Error

namespace ObjectVault

/-- The outcome of deleting one guarded batch. -/
inductive SweepOutcome where
  | deleted (objects history blobs : Nat)
  /-- A commit landed above the guard; nothing was deleted. -/
  | stale (last : Tid)
deriving DecidableEq

/-- Rows removed by pruning and by the clean-up after it. -/
structure PruneCounts where
  history : Nat := 0
  blobs : Nat := 0
  transactions : Nat := 0
deriving DecidableEq, Inhabited

/-- The operations of an object store. -/
class ObjectStore (σ : Type) where
  keepsHistory : σ → Bool
  /-- An oid never handed out or written before, and never the root. -/
  newOid : σ → Except StoreError (Oid × σ)
  /-- The tid of the latest commit. -/
  lastTid : σ → Except StoreError (Option Tid)
  load : σ → Oid → Except StoreError (Option Version)
  /-- Current versions, in the order asked for. -/
  loadMany : σ → List Oid → Except StoreError (List (Option Version))
  /-- Current tids of those objects that exist. -/
  currentTids : σ → List Oid → Except StoreError (OidMap Tid)
  /-- The version in effect strictly before a tid. -/
  loadBefore : σ → Oid → Tid → Except StoreError (Option PastVersion)
  loadVersion : σ → Oid → Tid → Except StoreError (Option Version)
  loadBlob : σ → Oid → Tid → Except StoreError (Option Bytes)
  /-- At most so many versions strictly before a tid, newest first. -/
  versions : σ → Oid → Option Tid → Nat → Except StoreError (List VersionSummary)
  /-- The objects with a stored version of the given tid, ascending. -/
  oidsInTransaction : σ → Tid → Except StoreError (List Oid)
  /-- The boundary of the history that was pruned so far. -/
  packedBefore : σ → Except StoreError (Option Tid)
  /-- Apply a batch of writes at the given clock reading. -/
  commit : σ → Instant → CommitNote → List Write → Except StoreError (Tid × σ)
  /-- The latest tid, and the objects whose current version is above a tid. -/
  changesSince : σ → Tid → Except StoreError (Option Tid × List Oid)
  reachableFrom : σ → List Oid → Except StoreError OidSet
  /-- The objects whose current version is at or below a tid. -/
  committedUpto : σ → Tid → Except StoreError (List (Oid × Tid))
  /-- Delete objects with their history and blobs, unless a commit landed
  above the guard. -/
  deleteObjects : σ → List Oid → Tid → Except StoreError (SweepOutcome × σ)
  /-- Drop archived versions below a boundary except the one in effect there,
  then blobs and log rows without a version. -/
  pruneHistory : σ → Tid → Except StoreError (PruneCounts × σ)
  /-- Drop every archived version. -/
  dropHistory : σ → Except StoreError (PruneCounts × σ)
  /-- A description for people. -/
  describe : σ → String

end ObjectVault
