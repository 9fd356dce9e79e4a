/-
Transaction identifiers.  A tid is the commit time in microseconds since 1970,
moved forward where needed so that tids strictly increase although the clock
may stall or step back.
-/
import ObjectVault.Instant
import Std.Data.ExtTreeMap

namespace ObjectVault

/-- The identifier a commit receives. -/
structure Tid where
  micros : Nat
deriving DecidableEq, Inhabited

namespace Tid

/-- Before every commit; no commit receives it unless the clock reads 1970. -/
def zero : Tid := ⟨0⟩

instance : LT Tid := ⟨fun a b => a.micros < b.micros⟩
instance : LE Tid := ⟨fun a b => a.micros ≤ b.micros⟩
instance (a b : Tid) : Decidable (a < b) := inferInstanceAs (Decidable (a.micros < b.micros))
instance (a b : Tid) : Decidable (a ≤ b) := inferInstanceAs (Decidable (a.micros ≤ b.micros))
instance : Max Tid := ⟨fun a b => if a ≤ b then b else a⟩

theorem lt_def {a b : Tid} : a < b ↔ a.micros < b.micros := Iff.rfl
theorem le_def {a b : Tid} : a ≤ b ↔ a.micros ≤ b.micros := Iff.rfl

theorem ext_micros {a b : Tid} (h : a.micros = b.micros) : a = b := by
  cases a; cases b; exact congrArg Tid.mk h

instance : Ord Tid := ⟨compareOn Tid.micros⟩

instance : Std.TransOrd Tid := inferInstanceAs (Std.TransCmp (compareOn Tid.micros))

instance : Std.LawfulEqOrd Tid where
  compare_self {a} := (inferInstance : Std.ReflCmp (compareOn Tid.micros)).compare_self
  eq_of_compare {a b} h := by
    cases a; cases b
    exact congrArg Tid.mk (Std.LawfulEqOrd.eq_of_compare h)

/-- The tid of an instant; instants before 1970 share the tid zero. -/
def ofInstant (moment : Instant) : Tid := ⟨moment.micros.toNat⟩

/-- The instant a tid stands for, if it lies within the years that dates
reach. -/
def instant? (tid : Tid) : Option Instant :=
  let moment := Instant.ofMicros tid.micros
  if moment.hasDate then some moment else none

/-- The next larger tid. -/
def succ (tid : Tid) : Tid := ⟨tid.micros + 1⟩

/-- The tid of a commit made at `now` after the commit `last`: the clock
reading, or the successor of `last` when the clock is not ahead of it. -/
def nextAfter (last : Option Tid) (now : Instant) : Tid :=
  match last with
  | some last => if ofInstant now ≤ last then last.succ else ofInstant now
  | none => ofInstant now

theorem lt_succ (tid : Tid) : tid < tid.succ := Nat.lt_succ_self _

/-- Commits receive strictly increasing tids. -/
theorem lt_nextAfter {last : Tid} {now : Instant} : last < nextAfter (some last) now := by
  by_cases h : ofInstant now ≤ last
  · simp only [nextAfter, h, ↓reduceIte]
    exact lt_succ last
  · simp only [nextAfter, h, ↓reduceIte]
    exact Nat.lt_of_not_le h

/-- A commit is never dated before its clock reading. -/
theorem ofInstant_le_nextAfter {last : Option Tid} {now : Instant} :
    ofInstant now ≤ nextAfter last now := by
  cases last with
  | none => exact Nat.le_refl _
  | some last =>
      by_cases h : ofInstant now ≤ last
      · simp only [nextAfter, h, ↓reduceIte]
        exact Nat.le_succ_of_le h
      · simp only [nextAfter, h, ↓reduceIte]
        exact Nat.le_refl _

/-- The larger of two tids, where absence is below every tid. -/
def latest : Option Tid → Option Tid → Option Tid
  | some a, some b => some (max a b)
  | some a, none => some a
  | none, b => b

/-- Tids are written as plain decimal numbers. -/
def text (tid : Tid) : String := toString tid.micros

instance : ToString Tid := ⟨text⟩

/-- The labelled form used inside descriptions, such as `Tid(5)`. -/
def describe (tid : Tid) : String := "Tid(" ++ tid.text ++ ")"

/-- The labelled form of a tid that may be absent. -/
def describe? : Option Tid → String
  | some tid => "Some(" ++ tid.describe ++ ")"
  | none => "None"

/-- The message for a tid beyond the years that dates reach. -/
def outOfRangeMessage (tid : Tid) : String := "timestamp out of range: " ++ tid.text

end Tid

end ObjectVault
