/-
Exact reachability.  What the roots reach is the least set that holds them and
whatever the current versions of its members refer to.  The memory store finds
it with a queue, taking each object out once, and the database with a recursive
query over columns; both come to this set.
-/
import ObjectVault.Proofs.ObjectGraph
import ObjectVault.Proofs.StoreMirror
import Mathlib.Order.Bounds.Basic

namespace ObjectVault

theorem OidSet.size_le_of_subset {oids others : OidSet} (hsubset : ∀ oid ∈ oids, oid ∈ others) :
    oids.size ≤ others.size := by
  rw [← Std.ExtTreeSet.length_toList, ← Std.ExtTreeSet.length_toList]
  refine (List.Nodup.subperm oids.nodup_toList fun oid hmem => ?_).length_le
  exact Std.ExtTreeSet.mem_toList.mpr (hsubset oid (Std.ExtTreeSet.mem_toList.mp hmem))

namespace Reach

/-- A traversal under way: what has been seen, and what of it waits for its
expansion. -/
structure Traversal where
  seen : OidSet
  queue : List Oid

namespace Traversal

/-- Put into the queue what has not been seen yet. -/
def visit (traversal : Traversal) (oids : List Oid) : Traversal :=
  ⟨(fresh traversal.seen oids).2, traversal.queue ++ (fresh traversal.seen oids).1⟩

def start (roots : List Oid) : Traversal := visit ⟨∅, []⟩ roots

/-- Take the first object out of the queue and visit its targets.  An empty
queue ends the traversal. -/
def step (targets : Oid → List Oid) : Traversal → Traversal
  | ⟨seen, []⟩ => ⟨seen, []⟩
  | ⟨seen, oid :: rest⟩ => visit ⟨seen, rest⟩ (targets oid)

end Traversal

theorem size_fresh (seen : OidSet) (candidates : List Oid) :
    (fresh seen candidates).2.size = seen.size + (fresh seen candidates).1.length := by
  induction candidates generalizing seen with
  | nil => rfl
  | cons head tail ih =>
      by_cases hseen : head ∈ seen
      · simp only [fresh, Std.ExtTreeSet.contains_iff_mem, hseen, ↓reduceIte, ih]
      · simp only [fresh, Std.ExtTreeSet.contains_iff_mem, hseen, ↓reduceIte, ih,
          Std.ExtTreeSet.size_insert, List.length_cons]
        omega

variable {targets : Oid → List Oid} {roots : List Oid}

/-- A traversal from the roots after `count` steps.  Seen objects outside the
queue have been expanded, and until the queue is empty each step has taken out
one of them. -/
structure Traversal.Follows (targets : Oid → List Oid) (roots : List Oid) (count : Nat)
    (traversal : Traversal) : Prop where
  started : ∀ root ∈ roots, root ∈ traversal.seen
  reached : ∀ oid ∈ traversal.seen, ∃ root ∈ roots, Leads targets root oid
  queued : ∀ oid ∈ traversal.queue, oid ∈ traversal.seen
  expanded : ∀ oid ∈ traversal.seen, oid ∉ traversal.queue →
    ∀ target ∈ targets oid, target ∈ traversal.seen
  counted : traversal.queue = [] ∨ traversal.seen.size = count + traversal.queue.length

theorem Traversal.Follows.start : Follows targets roots 0 (.start roots) where
  started root hroot := mem_fresh_seen.mpr (Or.inr hroot)
  reached oid hoid := by
    rcases mem_fresh_seen.mp hoid with hnone | hroot
    · simp at hnone
    · exact ⟨oid, hroot, .refl⟩
  queued oid := fresh_kept_subset
  expanded oid hoid hdone := by
    have hnew : oid ∉ (∅ : OidSet) ∧ oid ∈ roots := by
      rcases mem_fresh_seen.mp hoid with hnone | hroot
      · simp at hnone
      · exact ⟨by simp, hroot⟩
    exact absurd (mem_fresh_kept.mpr hnew) hdone
  counted := Or.inr (size_fresh ∅ roots)

theorem Traversal.Follows.step {count : Nat} {traversal : Traversal}
    (h : Follows targets roots count traversal) :
    Follows targets roots (count + 1) (traversal.step targets) := by
  obtain ⟨seen, queue⟩ := traversal
  cases queue with
  | nil => exact { h with counted := Or.inl rfl }
  | cons oid rest =>
      have hoid : oid ∈ seen := h.queued oid List.mem_cons_self
      exact
        { started := fun root hroot => mem_fresh_seen.mpr (Or.inl (h.started root hroot))
          reached := by
            intro found hfound
            rcases mem_fresh_seen.mp hfound with hold | hnew
            · exact h.reached found hold
            · obtain ⟨root, hroot, hleads⟩ := h.reached oid hoid
              exact ⟨root, hroot, hleads.tail hnew⟩
          queued := by
            intro waiting hwaiting
            rcases List.mem_append.mp hwaiting with hrest | hkept
            · exact mem_fresh_seen.mpr (Or.inl (h.queued waiting (List.mem_cons_of_mem oid hrest)))
            · exact fresh_kept_subset hkept
          expanded := by
            intro found hfound hdone target htarget
            obtain ⟨hrest, hkept⟩ := not_or.mp (mt List.mem_append.mpr hdone)
            have hold : found ∈ seen := by
              rcases mem_fresh_seen.mp hfound with hold | hnew
              · exact hold
              · by_contra hunseen
                exact hkept (mem_fresh_kept.mpr ⟨hunseen, hnew⟩)
            -- Besides what was out of the queue before, only `oid` left it.
            by_cases hself : found = oid
            · exact mem_fresh_seen.mpr (Or.inr (hself ▸ htarget))
            · have hwaits : found ∉ oid :: rest :=
                fun hmem => (List.mem_cons.mp hmem).elim hself hrest
              exact mem_fresh_seen.mpr (Or.inl (h.expanded found hold hwaits target htarget))
          counted := by
            refine Or.inr ?_
            have hcounted : seen.size = count + (oid :: rest).length :=
              h.counted.resolve_left (List.cons_ne_nil oid rest)
            simp only [Traversal.step, visit, size_fresh, List.length_append, List.length_cons]
              at hcounted ⊢
            omega }

/-- Each step keeps what the traversal has found. -/
theorem Traversal.Follows.run (targets : Oid → List Oid) (roots : List Oid) (count : Nat) :
    Follows targets roots count ((Traversal.step targets)^[count] (.start roots)) := by
  induction count with
  | zero => exact .start
  | succ count ih =>
      rw [Function.iterate_succ_apply']
      exact ih.step

/-- A traversal ends when it has taken out each reached object once. -/
theorem traversal_ends {reached : OidSet}
    (hreached : ∀ oid, oid ∈ reached ↔ ∃ root ∈ roots, Leads targets root oid) :
    (Traversal.step targets)^[reached.size] (.start roots) = ⟨reached, []⟩ := by
  have hrun := Traversal.Follows.run targets roots reached.size
  generalize (Traversal.step targets)^[reached.size] (.start roots) = traversal at hrun
  obtain ⟨seen, queue⟩ := traversal
  have hwithin : seen.size ≤ reached.size :=
    OidSet.size_le_of_subset fun oid hoid => (hreached oid).mpr (hrun.reached oid hoid)
  obtain rfl : queue = [] := by
    rcases hrun.counted with hempty | hcounted
    · exact hempty
    · refine List.eq_nil_of_length_eq_zero ?_
      simp only at hcounted
      omega
  have hclosed : ∀ oid ∈ seen, ∀ target ∈ targets oid, target ∈ seen :=
    fun oid hoid => hrun.expanded oid hoid List.not_mem_nil
  have hseen : seen = reached := by
    ext oid
    rw [hreached]
    constructor
    · exact hrun.reached oid
    · rintro ⟨root, hroot, hleads⟩
      induction hleads with
      | refl => exact hrun.started root hroot
      | tail _ htarget ih => exact hclosed _ ih _ htarget
  rw [hseen]

end Reach

/-- The set holds the roots and, for each member, whatever its current version
refers to. -/
structure HoldsReach (current : OidMap Version) (roots : List Oid) (oids : Set Oid) : Prop where
  roots : ∀ root ∈ roots, root ∈ oids
  refs : ∀ oid ∈ oids, ∀ version, current[oid]? = some version → ∀ target ∈ version.refs,
    target ∈ oids

theorem MemoryStore.reachable_isLeast (store : MemoryStore) (roots : List Oid) :
    IsLeast {oids | HoldsReach store.current roots oids} {oid | oid ∈ store.reachable roots} := by
  constructor
  · constructor
    · intro root hroot
      exact mem_reachable_iff.mpr ⟨root, hroot, .refl⟩
    · intro oid hoid version hcurrent target htarget
      obtain ⟨root, hroot, hreaches⟩ := mem_reachable_iff.mp hoid
      exact mem_reachable_iff.mpr ⟨root, hroot, hreaches.tail ⟨version, hcurrent, htarget⟩⟩
  · intro oids hholds oid hoid
    obtain ⟨root, hroot, hreaches⟩ := mem_reachable_iff.mp hoid
    clear hoid
    induction hreaches with
    | refl => exact hholds.roots root hroot
    | tail _ hedge ih =>
        obtain ⟨version, hcurrent, htarget⟩ := hedge
        exact hholds.refs _ ih version hcurrent _ htarget

/-- The rows of the recursive query.  It starts with the elements of the list
of roots; a row that is the column of a current object leads to the elements
of its references, cast to integers. -/
inductive Database.QueryRow (database : Database) (roots : List Oid) : Int → Prop where
  | root {document : Document} {value : Int} :
      Json.read? (Json.write (.list (roots.map fun root => .integer root.column))) =
        some document →
      .integer value ∈ Column.elements document → QueryRow database roots value
  | joined {oid : Oid} {row : CurrentRow} {document element : Document} {value : Int} :
      QueryRow database roots oid.column → database.current[oid]? = some row →
      Json.read? row.refs = some document → element ∈ Column.elements document →
      Column.cast? element = some value → QueryRow database roots value

theorem Oid.column_injective : Function.Injective column := by
  intro oid other hsame
  rw [← ofColumn_column oid, hsame, ofColumn_column]

section

variable {database : Database} {memory : MemoryStore} {roots : List Oid}
  (hrows : database.current = memory.current.map fun _ version => version.currentRow)

include hrows

/-- The rows of the query are the columns of what the roots reach. -/
theorem Database.queryRow_iff {value : Int} :
    database.QueryRow roots value ↔ ∃ oid ∈ memory.reachable roots, oid.column = value := by
  simp only [MemoryStore.mem_reachable_iff]
  constructor
  · intro hrow
    induction hrow with
    | root hdocument hvalue =>
        cases (Column.read?_columns roots).symm.trans hdocument
        obtain ⟨root, hroot, hcolumn⟩ := List.mem_map.mp hvalue
        exact ⟨root, ⟨root, hroot, .refl⟩, Document.integer.inj hcolumn⟩
    | @joined source _ _ _ _ _ hcurrent hdocument helement hcast ih =>
        obtain ⟨found, ⟨root, hroot, hreaches⟩, hcolumn⟩ := ih
        rw [Oid.column_injective hcolumn] at hreaches
        rw [hrows, Std.ExtTreeMap.getElem?_map] at hcurrent
        obtain ⟨version, hversion, rfl⟩ := Option.map_eq_some_iff.mp hcurrent
        cases (Column.read?_refs version.refs).symm.trans hdocument
        obtain ⟨target, htarget, rfl⟩ := List.mem_map.mp helement
        have hedge : memory.RefersTo source target :=
          ⟨version, hversion, Std.ExtTreeSet.mem_toList.mp htarget⟩
        exact ⟨target, ⟨root, hroot, hreaches.tail hedge⟩,
          Option.some.inj ((Column.cast?_column target).symm.trans hcast)⟩
  · rintro ⟨oid, ⟨root, hroot, hreaches⟩, rfl⟩
    induction hreaches with
    | refl =>
        exact .root (Column.read?_columns roots) (List.mem_map.mpr ⟨root, hroot, rfl⟩)
    | @tail source target _ hedge ih =>
        obtain ⟨version, hcurrent, htarget⟩ := hedge
        have hrow : database.current[source]? = some version.currentRow := by
          rw [hrows, Std.ExtTreeMap.getElem?_map, hcurrent]
          rfl
        refine .joined ih hrow (Column.read?_refs version.refs) ?_ (Column.cast?_column target)
        exact List.mem_map.mpr ⟨target, Std.ExtTreeSet.mem_toList.mpr htarget, rfl⟩

end

/-- Reachability is exact.  Whatever the current versions refer to and
whichever roots are asked for, both stores answer with the least set that
holds the roots and the references of its members.  The queue of the memory
store is empty once each object of the set was taken out, and the rows of the
database's query are the columns of the set. -/
theorem reachability_exact (current : OidMap Version) (roots : List Oid) :
    ∃ reached : OidSet,
      IsLeast {oids | HoldsReach current roots oids} {oid | oid ∈ reached} ∧
      (∀ store : MemoryStore, store.offline = false → store.current = current →
        ObjectStore.reachableFrom store roots = .ok reached ∧
        (Reach.Traversal.step store.targets)^[reached.size] (.start roots) = ⟨reached, []⟩) ∧
      ∀ store : RelationalStore,
        store.database.current = (current.map fun _ version => version.currentRow) →
        ObjectStore.reachableFrom store roots = .ok reached ∧
        ∀ value, store.database.QueryRow roots value ↔ ∃ oid ∈ reached, oid.column = value := by
  let memory : MemoryStore := { MemoryStore.empty true with current }
  refine ⟨memory.reachable roots, memory.reachable_isLeast roots, ?_, ?_⟩
  · intro store honline hcurrent
    subst hcurrent
    refine ⟨MemoryStore.online_eq honline _, Reach.traversal_ends fun oid => ?_⟩
    rw [MemoryStore.leads_targets]
    exact MemoryStore.mem_reachable_iff
  · intro store hrows
    have hanswer : store.reachable roots = .ok (memory.reachable roots) :=
      RelationalStore.reachable_of_rows hrows roots
    have hquery (value : Int) : store.database.QueryRow roots value ↔
        ∃ oid ∈ memory.reachable roots, oid.column = value := Database.queryRow_iff hrows
    exact ⟨hanswer, hquery⟩

end ObjectVault
