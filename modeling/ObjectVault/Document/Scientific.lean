/-
Numbers in scientific form, as decimal literals spell them: digits and a power
of ten.  A reader with little room takes only the leading digits of a literal
into account.
-/
import ObjectVault.Document.Json

namespace ObjectVault

/-- A decimal literal taken apart. -/
structure Decimal where
  negative : Bool
  /-- The digits before the point. -/
  whole : Bytes
  /-- The digits after the point. -/
  fraction : Bytes
  /-- Whether the exponent has a minus sign. -/
  shrinks : Bool
  /-- The digits of the exponent. -/
  power : Bytes

namespace Decimal

open Json

/-- Whether a number starts with a minus sign, and what follows its sign. -/
def sign (number : Bytes) : Bool × Bytes :=
  match number with
  | b :: rest =>
      if b = ascii '-' then (true, rest)
      else if b = ascii '+' then (false, rest)
      else (false, number)
  | [] => (false, [])

/-- The parts of a literal, if it is decimal.  Digits may be missing on either
side of the point. -/
def ofLiteral? (literal : Bytes) : Option Decimal :=
  let (negative, literal) := sign literal
  let whole := literal.takeWhile isDigit
  let (fraction, rest) := match literal.dropWhile isDigit with
    | b :: rest =>
        if b = ascii '.' then (rest.takeWhile isDigit, rest.dropWhile isDigit)
        else ([], b :: rest)
    | [] => ([], [])
  match rest with
  | [] => some ⟨negative, whole, fraction, false, []⟩
  | e :: power =>
      let (shrinks, power) := sign power
      if (e = ascii 'e' || e = ascii 'E') && power.all isDigit then
        some ⟨negative, whole, fraction, shrinks, power⟩
      else none

/-- The exponent whose digits are read in the given way. -/
def exponent (decimal : Decimal) (read : Bytes → Nat) : Int :=
  if decimal.shrinks then -(read decimal.power) else read decimal.power

end Decimal

/-- The number `digits * 10 ^ exponent`. -/
structure Scientific where
  digits : Nat
  exponent : Int
deriving DecidableEq

namespace Scientific

/-- Append decimal digits to a number as long as it stays below a bound; and
the digits left over. -/
def append (bound n : Nat) : Bytes → Nat × Bytes
  | [] => (n, [])
  | b :: rest =>
      let next := 10 * n + (b.toNat - 48)
      if next < bound then append bound next rest else (n, b :: rest)

/-- The size of a decimal number, up to its sign, as far as digits below a
bound can hold it.  Digits before the point that are left over still count as
powers of ten; those after the point count for nothing. -/
def ofDecimal (bound : Nat) (exponent : Int) (decimal : Decimal) : Scientific :=
  let (n, leftWhole) := append bound 0 decimal.whole
  let (n, leftFraction) := append bound n decimal.fraction
  ⟨n, exponent + leftWhole.length + leftFraction.length - decimal.fraction.length⟩

/-- The exact size of a decimal number, up to its sign. -/
def exact (decimal : Decimal) : Scientific :=
  ofDecimal (Nat.pow 10 (decimal.whole.length + decimal.fraction.length))
    (decimal.exponent Json.ofDigits) decimal

/-- The power of ten just above the number. -/
def magnitude (number : Scientific) : Int :=
  (Nat.toDigits 10 number.digits).length + number.exponent

/-- The least number beyond the reach of a double: numbers from here on round
to infinity. -/
def overflow : Nat := Nat.pow 2 1024 - Nat.pow 2 970

/-- Whether the nearest double is finite. -/
def isFinite (number : Scientific) : Bool :=
  if number.digits = 0 ∨ number.magnitude < 300 then true
  else if 320 < number.magnitude then false
  else if 0 ≤ number.exponent then
    number.digits * Nat.pow 10 number.exponent.toNat < overflow
  else number.digits < overflow * Nat.pow 10 (-number.exponent).toNat

/-- Whether the double nearest to a literal is finite. -/
def literalIsFinite (literal : Bytes) : Bool :=
  (Decimal.ofLiteral? literal).any fun decimal => (exact decimal).isFinite

end Scientific

end ObjectVault
