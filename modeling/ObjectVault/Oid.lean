/-
Object identifiers.  An oid is one 64-bit word.  The word zero names the root
object, the anchor of reachability: whatever is to survive a collection has to
be reachable from it.
-/
import Std.Data.ExtTreeMap
import Std.Data.ExtTreeSet

namespace ObjectVault

/-- The identifier of a stored object. -/
structure Oid where
  word : UInt64
deriving DecidableEq, Inhabited

namespace Oid

/-- The largest word an oid can be. -/
def maxWord : Nat := UInt64.size - 1

/-- The persistence root. -/
def root : Oid := ⟨0⟩

def isRoot (oid : Oid) : Bool := oid == root

/-- The oid a counter value stands for. -/
def ofNat (n : Nat) : Oid := ⟨UInt64.ofNat n⟩

def toNat (oid : Oid) : Nat := oid.word.toNat

theorem toNat_inj {a b : Oid} (h : a.toNat = b.toNat) : a = b := by
  cases a; cases b
  exact congrArg Oid.mk (UInt64.toNat_inj.mp h)

theorem toNat_le_maxWord (oid : Oid) : oid.toNat ≤ maxWord := by
  have h := oid.word.toNat_lt_size
  simp only [toNat, maxWord]
  omega

theorem ofNat_toNat (oid : Oid) : ofNat oid.toNat = oid := by
  cases oid; simp [ofNat, toNat]

theorem toNat_ofNat {n : Nat} (h : n ≤ maxWord) : (ofNat n).toNat = n := by
  simp only [ofNat, toNat]
  exact UInt64.toNat_ofNat_of_lt' (by simp only [maxWord, UInt64.size] at h ⊢; omega)

instance : LT Oid := ⟨fun a b => a.word < b.word⟩
instance : LE Oid := ⟨fun a b => a.word ≤ b.word⟩
instance (a b : Oid) : Decidable (a < b) := inferInstanceAs (Decidable (a.word < b.word))
instance (a b : Oid) : Decidable (a ≤ b) := inferInstanceAs (Decidable (a.word ≤ b.word))

instance : Ord Oid := ⟨compareOn Oid.word⟩

instance : Std.TransOrd Oid := inferInstanceAs (Std.TransCmp (compareOn Oid.word))

instance : Std.LawfulEqOrd Oid where
  compare_self {a} := (inferInstance : Std.ReflCmp (compareOn Oid.word)).compare_self
  eq_of_compare {a b} h := by
    cases a; cases b
    exact congrArg Oid.mk (Std.LawfulEqOrd.eq_of_compare h)

/-- Oids are written in hexadecimal with their prefix, such as `0xff`. -/
def text (oid : Oid) : String :=
  "0x" ++ String.ofList (Nat.toDigits 16 oid.toNat)

instance : ToString Oid := ⟨text⟩

/-- The labelled form used inside descriptions, such as `Oid(0xff)`. -/
def describe (oid : Oid) : String := "Oid(" ++ oid.text ++ ")"

end Oid

/-- A set of oids, listed in ascending order. -/
abbrev OidSet := Std.ExtTreeSet Oid

/-- A table keyed by oids. -/
abbrev OidMap (α : Type u) := Std.ExtTreeMap Oid α

namespace OidSet

def ofOids (oids : List Oid) : OidSet := Std.ExtTreeSet.ofList oids

end OidSet

end ObjectVault
