/-
Small readers over character lists.  Each takes what it recognises from the
front and returns it with the rest, or refuses.
-/
namespace ObjectVault.Scan

/-- The blank characters of Unicode. -/
def isBlank (c : Char) : Bool :=
  let n := c.toNat
  (9 ≤ n && n ≤ 13) || n = 0x20 || n = 0x85 || n = 0xA0 || n = 0x1680 ||
    (0x2000 ≤ n && n ≤ 0x200A) || n = 0x2028 || n = 0x2029 || n = 0x202F ||
    n = 0x205F || n = 0x3000

def skipBlanks (cs : List Char) : List Char := cs.dropWhile isBlank

/-- Exactly the character `c`. -/
def char (c : Char) : List Char → Option (List Char)
  | d :: rest => if d = c then some rest else none
  | [] => none

/-- The value of a decimal digit. -/
def digit? (c : Char) : Option Nat :=
  if '0' ≤ c ∧ c ≤ '9' then some (c.toNat - '0'.toNat) else none

/-- At most `most` leading digits, as values. -/
def digits : Nat → List Char → List Nat × List Char
  | 0, cs => ([], cs)
  | _ + 1, [] => ([], [])
  | most + 1, c :: rest =>
      match digit? c with
      | none => ([], c :: rest)
      | some d =>
          let (ds, left) := digits most rest
          (d :: ds, left)

/-- The number a list of digits spells, the most significant first. -/
def ofDigits (ds : List Nat) : Nat := ds.foldl (fun n d => 10 * n + d) 0

/-- A number of `least` to `most` digits. -/
def number (least most : Nat) (cs : List Char) : Option (Nat × List Char) :=
  let (ds, rest) := digits most cs
  if ds.length < least then none else some (ofDigits ds, rest)

end ObjectVault.Scan
