/-
Byte strings in hexadecimal: two lower-case digits a byte.
-/
import ObjectVault.Bytes

namespace ObjectVault.Hex

def digit (n : Nat) : Char := if n < 10 then Char.ofNat (48 + n) else Char.ofNat (87 + n)

def digit? (c : Char) : Option Nat :=
  if '0' ≤ c ∧ c ≤ '9' then some (c.toNat - 48)
  else if 'a' ≤ c ∧ c ≤ 'f' then some (c.toNat - 87)
  else none

def encode (bytes : Bytes) : String :=
  String.ofList (bytes.flatMap fun b => [digit (b.toNat / 16), digit (b.toNat % 16)])

/-- The bytes that pairs of digits spell, behind those that `front` holds in
reverse. -/
def pairs? (front : Bytes) : List Char → Option Bytes
  | [] => some front.reverse
  | high :: low :: rest =>
      match digit? high, digit? low with
      | some high, some low => pairs? (UInt8.ofNat (16 * high + low) :: front) rest
      | _, _ => none
  | _ => none

def decode? (text : String) : Option Bytes := pairs? [] text.toList

end ObjectVault.Hex
