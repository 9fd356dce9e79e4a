/-
Reachability over references, explored in rounds.  A round expands every
object found in the round before and keeps the targets not seen so far.
-/
import ObjectVault.Oid

namespace ObjectVault.Reach

/-- The members of a list not seen before, each once, and all that has been
seen after them.  The seen set grows along the list, so duplicates inside it
are removed as well. -/
def fresh (seen : OidSet) : List Oid → List Oid × OidSet
  | [] => ([], seen)
  | oid :: rest =>
      if seen.contains oid then fresh seen rest
      else
        let (kept, seen) := fresh (seen.insert oid) rest
        (oid :: kept, seen)

/-- At most `bound` rounds from a frontier whose members are seen already. -/
def explore (targets : Oid → List Oid) : Nat → List Oid → OidSet → OidSet
  | 0, _, seen => seen
  | _ + 1, [], seen => seen
  | bound + 1, frontier, seen =>
      let (next, seen) := fresh seen (frontier.flatMap targets)
      explore targets bound next seen

/-- Everything reachable from the roots, roots included, where at most
`sources` objects have targets.  Each round but the last expands one of those
for the first time, so that many rounds are enough. -/
def closure (targets : Oid → List Oid) (sources : Nat) (roots : List Oid) : OidSet :=
  let (frontier, seen) := fresh ∅ roots
  explore targets sources frontier seen

end ObjectVault.Reach
