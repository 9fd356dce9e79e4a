/-
Binary numbers of limited length: arithmetic whose every result is rounded to
so many binary digits.
-/
namespace ObjectVault

/-- The integer nearest to a quotient, the even one of two that are equally
near. -/
def nearestQuotient (n d : Nat) : Nat :=
  let quotient := n / d
  let twice := 2 * (n % d)
  if twice < d then quotient
  else if d < twice then quotient + 1
  else quotient + quotient % 2

/-- The number `significand * 2 ^ exponent`. -/
structure Binary where
  significand : Nat
  exponent : Int
deriving DecidableEq

namespace Binary

/-- The nearest number that needs no more than so many digits. -/
def round (digits : Nat) (number : Binary) : Binary :=
  let surplus := number.significand.log2 + 1 - digits
  ⟨nearestQuotient number.significand (1 <<< surplus), number.exponent + surplus⟩

/-- A natural number, rounded. -/
def ofNat (digits n : Nat) : Binary := round digits ⟨n, 0⟩

/-- The reciprocal of a positive number, rounded. -/
def reciprocal (digits n : Nat) : Binary :=
  let shift := digits + n.log2
  ⟨nearestQuotient (1 <<< shift) n, -shift⟩

/-- A product, rounded. -/
def times (a : Binary) (digits : Nat) (b : Binary) : Binary :=
  round digits ⟨a.significand * b.significand, a.exponent + b.exponent⟩

/-- The integral part. -/
def floor (number : Binary) : Nat :=
  if 0 ≤ number.exponent then number.significand <<< number.exponent.toNat
  else number.significand >>> (-number.exponent).toNat

end Binary

end ObjectVault
