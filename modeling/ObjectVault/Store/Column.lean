/-
Columns of relational tables.  Oids and tids are unsigned words, but a column
holds the signed 64-bit integer of the same bits, and the database compares
columns as signed numbers.

References are a JSON list of such integers.  A store reads the column
strictly; a query that walks it allows JSON5, reads no further than the first
zero byte and takes every element for a number in its own way.
-/
import ObjectVault.Document.Binary
import ObjectVault.Document.Json5
import ObjectVault.Document.Scientific
import ObjectVault.Version

namespace ObjectVault

/-- The largest integer a column holds. -/
def Column.largest : Int := 0x7FFFFFFFFFFFFFFF

/-- The smallest integer a column holds. -/
def Column.smallest : Int := -0x8000000000000000

/-- The column with the last 64 bits of an integer. -/
def Column.ofInt (n : Int) : Int := Int.bmod n UInt64.size

def Oid.column (oid : Oid) : Int := Column.ofInt oid.toNat

def Oid.ofColumn (value : Int) : Oid := Oid.ofNat (value % UInt64.size).toNat

def Tid.column (tid : Tid) : Int := Column.ofInt tid.micros

def Tid.ofColumn (value : Int) : Tid := ⟨(value % UInt64.size).toNat⟩

namespace Column

/-- The references of a version as its column holds them. -/
def refs (oids : OidSet) : Bytes :=
  Json.write (.list (oids.toList.map fun oid => .integer oid.column))

/-- A signed 64-bit integer. -/
def signed? : Document → Option Int
  | .integer n => if smallest ≤ n ∧ n ≤ largest then some n else none
  | _ => none

/-- The references a column holds, if it is a list of signed integers. -/
def readRefs? (text : Bytes) : Option OidSet := do
  let document ← Json.read? text
  let values ← document.listOf? signed?
  return OidSet.ofOids (values.map Oid.ofColumn)

/-- The column nearest to an integer of the given sign and size. -/
def clamped (negative : Bool) (size : Nat) : Int :=
  if negative then max (-size) smallest else min size largest

/-- The number a text starts with, after blanks and a sign; zero if there is
none. -/
def leadingInteger (text : Bytes) : Int :=
  let (negative, text) := Decimal.sign
    (text.dropWhile fun b => b = 32 || (9 ≤ b && b ≤ 13))
  clamped negative (Json.ofDigits (text.takeWhile Json.isDigit))

-- A query works a decimal literal out in numbers of 64 binary digits, whatever
-- is exact first, and only rounds the result to a double.

/-- Significands stay below it. -/
def significandBound : Nat := UInt64.size - 16

/-- Multiplying by ten stays exact below it. -/
def shiftBound : Nat := (UInt64.size - 1) / 10

/-- The digits of an exponent, where a long one counts as its first digits or
as ten thousand. -/
def exponentDigits (digits : Bytes) : Nat :=
  digits.foldl (fun n b => if n < 10000 then 10 * n + (b.toNat - 48) else 10000) 0

/-- Bring the exponent of a number towards zero as far as its digits stay
exact, in at most so many steps. -/
def balanced : Nat → Scientific → Scientific
  | 0, number => number
  | steps + 1, number =>
      if 0 < number.exponent ∧ number.digits < shiftBound then
        balanced steps ⟨number.digits * 10, number.exponent - 1⟩
      else if number.exponent < 0 ∧ number.digits % 10 = 0 then
        balanced steps ⟨number.digits / 10, number.exponent + 1⟩
      else number

/-- A balanced number, divided by ten powers at a time and cut to an integer.
One that is still scaled up is beyond all integers of 64 bits, and one scaled
down by 20 powers is below one. -/
def scaled (number : Scientific) : Nat :=
  let start : Binary := ⟨number.digits, 0⟩
  let powers := (-number.exponent).toNat
  if 0 < number.exponent then UInt64.size
  else if 20 ≤ powers then 0
  else
    let divide (n : Nat) (value : Binary) : Binary := value.times 64 (.reciprocal 64 n)
    let tens := Nat.repeat (divide 10000000000) (powers / 10) start
    ((Nat.repeat (divide 10) (powers % 10) tens).round 53).floor

/-- The integer that a decimal literal is cut to; other literals have none. -/
def truncated? (literal : Bytes) : Option Int := do
  let decimal ← Decimal.ofLiteral? literal
  let number := Scientific.ofDecimal significandBound (decimal.exponent exponentDigits) decimal
  let size := if number.digits = 0 then 0 else scaled (balanced 20 number)
  return clamped decimal.negative size

/-- The integer that an element counts as.  Null counts as none, and neither
does a number that is not decimal. -/
def cast? : Document → Option Int
  | .null => none
  | .truth b => some (if b then 1 else 0)
  | .integer n => some (max smallest (min n largest))
  | .real literal => truncated? literal
  | .text content => some (leadingInteger content)
  | .list _ | .record _ => some 0

/-- The elements a query walks through: the items of a list, the values of a
record, or a lone value. -/
def elements : Document → List Document
  | .list items => items
  | .record fields => fields.map Prod.snd
  | document => [document]

/-- How deep a query lets lists and records be nested. -/
def maxDepth : Nat := 1000

/-- The objects a query is led to by a references column. -/
def walk? (text : Bytes) : Option (List Oid) := do
  let text := text.takeWhile (· ≠ 0)
  let document ← Json.read? text <|> Json5.read? text
  guard (document.depth ≤ maxDepth)
  let values ← (elements document).mapM cast?
  return values.map Oid.ofColumn

end Column

end ObjectVault
