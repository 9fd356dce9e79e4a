/-
Chains of versions.  Listed newest first, every version of an object has to
link to the next older one.  Only the oldest stored version may link past the
end of the list, and only to a version that a pack has pruned.
-/
import ObjectVault.Version

namespace ObjectVault

/-- What is wrong with a listing. -/
inductive ChainFault where
  /-- A version is listed before one that is not older. -/
  | outOfOrder (listed after : Tid)
  /-- A version does not link to the next older one listed. -/
  | brokenLink (newer : Link) (older : Tid)
  /-- The oldest version links to one that is gone without a pack. -/
  | missingPredecessor (oldest missing : Tid)
deriving DecidableEq

def ChainFault.message : ChainFault → String
  | outOfOrder listed after =>
      "versions out of order (" ++ listed.text ++ " listed before " ++ after.text ++ ")"
  | brokenLink newer older =>
      "version " ++ newer.tid.text ++ " follows " ++ Tid.describe? newer.prev ++
        " but the next stored version is " ++ older.text
  | missingPredecessor oldest missing =>
      "version " ++ oldest.text ++ " follows " ++ missing.text ++ ", which is missing"

namespace Chain

/-- The fault between two neighbours of a listing. -/
def linkFault? (newer older : Link) : Option ChainFault :=
  if newer.tid ≤ older.tid then some (.outOfOrder newer.tid older.tid)
  else if newer.prev ≠ some older.tid then some (.brokenLink newer older.tid)
  else none

/-- The fault of the oldest stored version, when packs have pruned below
`packedBefore`. -/
def endFault? (packedBefore : Option Tid) (oldest : Link) : Option ChainFault :=
  match oldest.prev, packedBefore with
  | none, _ => none
  | some prev, some boundary =>
      if prev < boundary then none else some (.missingPredecessor oldest.tid prev)
  | some prev, none => some (.missingPredecessor oldest.tid prev)

/-- The first fault of a listing, newest version first.  Its last entry is
judged only if the listing is `complete`: if it reaches the oldest stored
version. -/
def fault? (complete : Bool) (packedBefore : Option Tid) : List Link → Option ChainFault
  | [] => none
  | [oldest] => if complete then endFault? packedBefore oldest else none
  | newer :: older :: rest =>
      match linkFault? newer older with
      | some fault => some fault
      | none => fault? complete packedBefore (older :: rest)

end Chain

/-- The position of the newest tid below `before` in an ascending list, and
the tid after it. -/
def Tid.newestBefore (tids : List Tid) (before : Tid) : Option (Nat × Option Tid) :=
  match (tids.takeWhile (· < before)).length with
  | 0 => none
  | place + 1 => some (place, tids[place + 1]?)

end ObjectVault
