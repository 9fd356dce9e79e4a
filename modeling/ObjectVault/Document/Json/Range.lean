/-
The range of JSON numbers.  A number is worked out as a double in one
multiplication: leading digits that fit 64 bits, times a power of ten.  It is
out of range if that multiplication overruns the doubles, which a number close
to the largest double may do although a double is near it.
-/
import ObjectVault.Document.Binary
import ObjectVault.Document.Scientific

namespace ObjectVault.Json

/-- The digits of a double. -/
def doubleDigits : Nat := 53

/-- The largest power of ten that is a double. -/
def largestPower : Nat := 308

/-- Whether a decimal literal is in range.  Numbers too small for a double are
zero, and so never out of range. -/
def isInRange (literal : Bytes) : Bool :=
  (Decimal.ofLiteral? literal).all fun decimal =>
    let number := Scientific.ofDecimal UInt64.size (decimal.exponent ofDigits) decimal
    if number.digits = 0 ∨ number.exponent < 0 then true
    else if largestPower < number.exponent then false
    else
      let power := Binary.ofNat doubleDigits (Nat.pow 10 number.exponent.toNat)
      let product := (Binary.ofNat doubleDigits number.digits).times doubleDigits power
      product.floor < Nat.pow 2 1024

end ObjectVault.Json
