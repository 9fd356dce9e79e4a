/-
Versions of objects and the writes that produce them.  What an object means to
its application is a byte string the store never looks into; the references it
declares are a set of oids, and they are all that reachability sees.
-/
import ObjectVault.Bytes
import ObjectVault.Oid
import ObjectVault.Tid

namespace ObjectVault

/-- One stored version of an object. -/
structure Version where
  oid : Oid
  tid : Tid
  /-- The tid of the version it superseded; none for the first version. -/
  prev : Option Tid
  state : Bytes
  refs : OidSet

def Version.size (version : Version) : Nat := version.state.length

/-- New state for an object.  It is valid only while `expected` is the tid of
the object's current version, or while the object is absent if `expected` is
none. -/
structure Write where
  oid : Oid
  expected : Option Tid
  state : Bytes
  refs : OidSet
  blob : Option Bytes := none

/-- The version a write becomes once it is committed under `tid`. -/
def Write.version (write : Write) (tid : Tid) : Version :=
  ⟨write.oid, tid, write.expected, write.state, write.refs⟩

/-- What the committer notes about a transaction. -/
structure CommitNote where
  user : String := ""
  description : String := ""
  extra : Bytes := []
deriving DecidableEq, Inhabited

/-- The version in effect before some tid, and the tid that ended it. -/
structure PastVersion where
  version : Version
  ended : Option Tid

/-- The place of a version in its object's chain. -/
structure Link where
  tid : Tid
  prev : Option Tid
deriving DecidableEq, Inhabited

/-- An entry of an object's history. -/
structure VersionSummary extends Link where
  size : Nat
  time : Instant
  user : String
  description : String
deriving DecidableEq, Inhabited

/-- The key of an archived version. -/
abbrev VersionKey := Oid × Tid

/-- Archive keys are ordered by object, then by version. -/
def versionOrder : VersionKey → VersionKey → Ordering :=
  compareLex (compareOn Prod.fst) (compareOn Prod.snd)

instance : Std.TransCmp versionOrder :=
  inferInstanceAs (Std.TransCmp (compareLex (compareOn Prod.fst) (compareOn Prod.snd)))

instance : Std.LawfulEqCmp versionOrder where
  compare_self := (inferInstance : Std.ReflCmp versionOrder).compare_self
  eq_of_compare {a b} h := by
    simp only [versionOrder, compareLex, compareOn, Ordering.then_eq_eq] at h
    exact Prod.ext (Std.LawfulEqCmp.eq_of_compare h.1) (Std.LawfulEqCmp.eq_of_compare h.2)

/-- A table keyed by versions. -/
abbrev VersionMap (α : Type u) := Std.ExtTreeMap VersionKey α versionOrder

end ObjectVault
