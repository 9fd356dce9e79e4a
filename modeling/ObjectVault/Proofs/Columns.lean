/-
What columns keep.  An oid comes back from its column, a tid does if it is a
word, and a tid in the lower half of the words has itself as its column, so
that the database orders such tids as the store does.  A references column is
read back as the same set, by the store and by a query that walks it.
-/
import ObjectVault.Proofs.JsonRoundTrip
import ObjectVault.Proofs.StoreRun
import ObjectVault.Store.Column
import Mathlib.Data.Option.Basic

namespace ObjectVault

namespace Column

theorem ofInt_bounds (n : Int) : smallest ≤ ofInt n ∧ ofInt n ≤ largest := by
  have hlow := Int.le_bmod (x := n) (m := UInt64.size) (by decide)
  have hhigh := Int.bmod_lt (x := n) (m := UInt64.size) (by decide)
  simp only [ofInt, smallest, largest, UInt64.size] at *
  omega

theorem ofInt_emod (n : Nat) (h : n < UInt64.size) : (ofInt n % UInt64.size).toNat = n := by
  rw [ofInt, Int.bmod_emod]
  simp only [UInt64.size] at *
  omega

/-- The lower half of the words are their own columns. -/
theorem ofInt_eq_self {n : Nat} (h : n ≤ largest) : ofInt n = n := by
  simp only [ofInt, largest, Int.bmod_def, UInt64.size] at *
  omega

end Column

theorem Oid.column_bounds (oid : Oid) :
    Column.smallest ≤ oid.column ∧ oid.column ≤ Column.largest :=
  Column.ofInt_bounds oid.toNat

@[simp]
theorem Oid.ofColumn_column (oid : Oid) : ofColumn oid.column = oid := by
  rw [ofColumn, column, Column.ofInt_emod oid.toNat oid.word.toNat_lt_size, ofNat_toNat]

/-- Whether the column of a tid is the tid itself. -/
def Tid.FitsColumn (tid : Tid) : Prop := tid.micros ≤ Column.largest

namespace Tid

theorem column_eq {tid : Tid} (h : tid.FitsColumn) : tid.column = tid.micros :=
  Column.ofInt_eq_self h

theorem ofColumn_column {tid : Tid} (h : tid.FitsColumn) : ofColumn tid.column = tid := by
  have hword : tid.micros < UInt64.size := by
    simp only [FitsColumn, Column.largest, UInt64.size] at *
    omega
  rw [ofColumn, column, Column.ofInt_emod tid.micros hword]

theorem column_lt_iff {tid other : Tid} (h : tid.FitsColumn) (hother : other.FitsColumn) :
    tid.column < other.column ↔ tid < other := by
  rw [column_eq h, column_eq hother, Int.ofNat_lt, lt_def]

theorem column_le_iff {tid other : Tid} (h : tid.FitsColumn) (hother : other.FitsColumn) :
    tid.column ≤ other.column ↔ tid ≤ other := by
  rw [column_eq h, column_eq hother, Int.ofNat_le, le_def]

theorem FitsColumn.of_le {tid other : Tid} (hother : other.FitsColumn) (hle : tid ≤ other) :
    tid.FitsColumn := by
  simp only [FitsColumn, le_def] at *
  omega

end Tid

namespace Column

/-- The items of a references column. -/
def refItems (oids : OidSet) : List Document := oids.toList.map fun oid => .integer oid.column

/-- Oids are read back from a list of their columns. -/
theorem read?_columns (oids : List Oid) :
    Json.read? (Json.write (.list (oids.map fun oid => .integer oid.column))) =
      some (.list (oids.map fun oid => .integer oid.column)) := by
  refine Json.read?_write ?_
  rw [Document.isPlain, Document.arePlain_iff]
  intro item hitem
  obtain ⟨oid, _, rfl⟩ := List.mem_map.mp hitem
  have hbounds := oid.column_bounds
  simp only [smallest, largest] at hbounds
  simp only [Document.isPlain, UInt64.size, Bool.and_eq_true]
  exact ⟨decide_eq_true hbounds.1, decide_eq_true (by omega)⟩

theorem read?_refs (oids : OidSet) : Json.read? (refs oids) = some (.list (refItems oids)) :=
  read?_columns oids.toList

/-- A query casts a column to itself. -/
theorem cast?_column (oid : Oid) : cast? (.integer oid.column) = some oid.column := by
  obtain ⟨hlow, hhigh⟩ := oid.column_bounds
  rw [cast?, Int.min_eq_left hhigh, Int.max_eq_right hlow]

/-- Every item of a references column counts as the column it was written
from. -/
theorem refItems_mapM (read : Document → Option Int)
    (hread : ∀ oid : Oid, read (.integer oid.column) = some oid.column) (oids : OidSet) :
    (refItems oids).mapM read = some (oids.toList.map Oid.column) := by
  rw [refItems, List.mapM_map]
  exact mapM_eq_pure Oid.column fun oid _ => hread oid

/-- The store reads back the references it wrote. -/
theorem readRefs?_refs (oids : OidSet) : readRefs? (refs oids) = some oids := by
  have hvalues := refItems_mapM signed? (fun oid => by
    rw [signed?, if_pos oid.column_bounds]) oids
  have hset : OidSet.ofOids oids.toList = oids := by
    ext oid
    rw [OidSet.mem_ofOids, Std.ExtTreeSet.mem_toList]
  rw [readRefs?, read?_refs]
  simp [Document.listOf?, Document.items?, hvalues, Function.comp_def, hset]

theorem zero_notMem_decimal (n : Nat) : 0 ∉ Json.decimal n := fun hmem => by
  have hdigit := Json.isDigit_of_mem_decimal hmem
  revert hdigit
  decide

theorem zero_notMem_integer (n : Int) : 0 ∉ Json.integer n := by
  cases n with
  | ofNat n => exact zero_notMem_decimal n
  | negSucc n =>
      rw [Json.integer, List.mem_cons, not_or]
      exact ⟨by decide, zero_notMem_decimal (n + 1)⟩

theorem zero_notMem_writeItems {items : List Document} (h : ∀ item ∈ items, 0 ∉ Json.write item) :
    0 ∉ Json.writeItems items := by
  induction items with
  | nil => decide
  | cons item items ih =>
      obtain ⟨hitem, hitems⟩ := List.forall_mem_cons.mp h
      rw [Json.writeItems, List.mem_cons, List.mem_append, not_or, not_or]
      exact ⟨by decide, hitem, ih hitems⟩

theorem zero_notMem_refs (oids : OidSet) : 0 ∉ refs oids := by
  have hitems : ∀ item ∈ refItems oids, 0 ∉ Json.write item := by
    intro item hitem
    obtain ⟨oid, _, rfl⟩ := List.mem_map.mp hitem
    rw [Json.write]
    exact zero_notMem_integer oid.column
  change 0 ∉ Json.write (.list (refItems oids))
  cases hrefs : refItems oids with
  | nil => decide
  | cons item items =>
      rw [hrefs] at hitems
      obtain ⟨hitem, hitems⟩ := List.forall_mem_cons.mp hitems
      rw [Json.write, List.mem_cons, List.mem_append, not_or, not_or]
      exact ⟨by decide, hitem, zero_notMem_writeItems hitems⟩

theorem depth_refItems (oids : OidSet) : (Document.list (refItems oids)).depth ≤ maxDepth := by
  have hflat : Document.depth.itemsDepth (refItems oids) = 0 := by
    rw [refItems]
    induction oids.toList with
    | nil => rfl
    | cons oid oids ih => simpa [Document.depth.itemsDepth, Document.depth] using ih
  rw [Document.depth, hflat]
  decide

/-- A query is led to the references that were written, in order. -/
theorem walk?_refs (oids : OidSet) : walk? (refs oids) = some oids.toList := by
  have htext : (refs oids).takeWhile (· ≠ 0) = refs oids := by
    refine List.takeWhile_eq_self_iff.mpr fun b hmem => ?_
    rw [decide_eq_true_eq]
    rintro rfl
    exact zero_notMem_refs oids hmem
  have hvalues := refItems_mapM cast? cast?_column oids
  rw [walk?, htext, read?_refs]
  simp [depth_refItems, elements, hvalues, Function.comp_def]

end Column

end ObjectVault
