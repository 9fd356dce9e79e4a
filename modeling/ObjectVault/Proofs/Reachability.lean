/-
What a closure computes: exactly the objects that the roots lead to.  A round
either discovers nothing, and then the exploration is over, or expands an
object with targets for the first time; as many rounds as there are such
objects are therefore enough.
-/
import ObjectVault.Reach
import Mathlib.Data.Finset.Card
import Mathlib.Logic.Relation

namespace ObjectVault

namespace Reach

/-- Some path of targets leads from the first object to the second. -/
def Leads (targets : Oid → List Oid) : Oid → Oid → Prop :=
  Relation.ReflTransGen fun source target => target ∈ targets source

theorem mem_fresh_seen {seen : OidSet} {candidates : List Oid} {oid : Oid} :
    oid ∈ (fresh seen candidates).2 ↔ oid ∈ seen ∨ oid ∈ candidates := by
  induction candidates generalizing seen with
  | nil => simp [fresh]
  | cons head tail ih =>
      by_cases hseen : head ∈ seen
      · simp only [fresh, Std.ExtTreeSet.contains_iff_mem, hseen, ↓reduceIte, ih, List.mem_cons]
        constructor
        · rintro (hold | htail)
          · exact Or.inl hold
          · exact Or.inr (Or.inr htail)
        · rintro (hold | rfl | htail)
          · exact Or.inl hold
          · exact Or.inl hseen
          · exact Or.inr htail
      · simp only [fresh, Std.ExtTreeSet.contains_iff_mem, hseen, ↓reduceIte, ih,
          Std.ExtTreeSet.mem_insert, Std.LawfulEqCmp.compare_eq_iff_eq, List.mem_cons]
        rw [eq_comm, or_comm (a := oid = head), or_assoc]

theorem mem_fresh_kept {seen : OidSet} {candidates : List Oid} {oid : Oid} :
    oid ∈ (fresh seen candidates).1 ↔ oid ∉ seen ∧ oid ∈ candidates := by
  induction candidates generalizing seen with
  | nil => simp [fresh]
  | cons head tail ih =>
      by_cases hseen : head ∈ seen
      · simp only [fresh, Std.ExtTreeSet.contains_iff_mem, hseen, ↓reduceIte, ih, List.mem_cons]
        constructor
        · rintro ⟨hnew, htail⟩
          exact ⟨hnew, Or.inr htail⟩
        · rintro ⟨hnew, rfl | htail⟩
          · exact absurd hseen hnew
          · exact ⟨hnew, htail⟩
      · simp only [fresh, Std.ExtTreeSet.contains_iff_mem, hseen, ↓reduceIte, List.mem_cons, ih,
          Std.ExtTreeSet.mem_insert, Std.LawfulEqCmp.compare_eq_iff_eq, not_or]
        constructor
        · rintro (rfl | ⟨⟨_, hnew⟩, htail⟩)
          · exact ⟨hseen, Or.inl rfl⟩
          · exact ⟨hnew, Or.inr htail⟩
        · rintro ⟨hnew, rfl | htail⟩
          · exact Or.inl rfl
          · by_cases heq : head = oid
            · exact Or.inl heq.symm
            · exact Or.inr ⟨⟨heq, hnew⟩, htail⟩

theorem fresh_kept_subset {seen : OidSet} {candidates : List Oid} {oid : Oid}
    (hkept : oid ∈ (fresh seen candidates).1) : oid ∈ (fresh seen candidates).2 := by
  rw [mem_fresh_kept] at hkept
  exact mem_fresh_seen.mpr (Or.inr hkept.2)

@[simp]
theorem explore_nil {targets : Oid → List Oid} {bound : Nat} {seen : OidSet} :
    explore targets bound [] seen = seen := by
  cases bound <;> rfl

theorem explore_succ {targets : Oid → List Oid} {bound : Nat} {frontier : List Oid}
    {seen : OidSet} :
    explore targets (bound + 1) frontier seen =
      explore targets bound (fresh seen (frontier.flatMap targets)).1
        (fresh seen (frontier.flatMap targets)).2 := by
  cases frontier with
  | nil => simp [explore, fresh]
  | cons => rfl

theorem subset_explore {targets : Oid → List Oid} {bound : Nat} {frontier : List Oid}
    {seen : OidSet} {oid : Oid} (hseen : oid ∈ seen) :
    oid ∈ explore targets bound frontier seen := by
  induction bound generalizing frontier seen with
  | zero => exact hseen
  | succ bound ih =>
      rw [explore_succ]
      exact ih (mem_fresh_seen.mpr (Or.inl hseen))

/-- Exploration never leaves a set that its start lies in and no target leads
out of. -/
theorem explore_sound {targets : Oid → List Oid} (inside : Oid → Prop)
    (hclosed : ∀ source target, inside source → target ∈ targets source → inside target)
    {bound : Nat} {frontier : List Oid} {seen : OidSet}
    (hfrontier : ∀ oid ∈ frontier, oid ∈ seen) (hseen : ∀ oid ∈ seen, inside oid) :
    ∀ oid ∈ explore targets bound frontier seen, inside oid := by
  induction bound generalizing frontier seen with
  | zero => exact hseen
  | succ bound ih =>
      rw [explore_succ]
      apply ih (fun _ => fresh_kept_subset)
      intro oid hoid
      rcases mem_fresh_seen.mp hoid with hold | hnew
      · exact hseen oid hold
      · obtain ⟨source, hsource, htarget⟩ := List.mem_flatMap.mp hnew
        exact hclosed source oid (hseen source (hfrontier source hsource)) htarget

/-- The sources that wait for their expansion. -/
def pending (sources : Finset Oid) (frontier : List Oid) (seen : OidSet) : Finset Oid :=
  sources.filter fun oid => oid ∉ seen ∨ oid ∈ frontier

/-- A round that discovers something has expanded a source. -/
theorem pending_fresh_lt {targets : Oid → List Oid} {sources : Finset Oid}
    (hsources : ∀ oid, targets oid ≠ [] → oid ∈ sources) {frontier : List Oid} {seen : OidSet}
    (hfrontier : ∀ oid ∈ frontier, oid ∈ seen)
    (hfound : (fresh seen (frontier.flatMap targets)).1 ≠ []) :
    (pending sources (fresh seen (frontier.flatMap targets)).1
      (fresh seen (frontier.flatMap targets)).2).card <
      (pending sources frontier seen).card := by
  obtain ⟨target, htarget⟩ := List.exists_mem_of_ne_nil _ hfound
  obtain ⟨source, hsource, hedge⟩ := List.mem_flatMap.mp (mem_fresh_kept.mp htarget).2
  have hexpands : source ∈ sources := hsources source (List.ne_nil_of_mem hedge)
  apply Finset.card_lt_card
  refine ⟨?_, ?_⟩
  · intro oid hoid
    simp only [pending, Finset.mem_filter, mem_fresh_seen, mem_fresh_kept, not_or] at hoid ⊢
    rcases hoid with ⟨hmem, ⟨hnew, _⟩ | ⟨hnew, _⟩⟩
    · exact ⟨hmem, Or.inl hnew⟩
    · exact ⟨hmem, Or.inl hnew⟩
  · intro hsubset
    have hstill := hsubset (show source ∈ pending sources frontier seen from
      Finset.mem_filter.mpr ⟨hexpands, Or.inr hsource⟩)
    simp only [pending, Finset.mem_filter, mem_fresh_seen, mem_fresh_kept, not_or] at hstill
    rcases hstill.2 with ⟨hnew, _⟩ | ⟨hnew, _⟩
    · exact hnew (hfrontier source hsource)
    · exact hnew (hfrontier source hsource)

/-- With rounds for all pending sources, the result keeps every target of its
members.  Seen objects outside the frontier have been expanded already. -/
theorem explore_closed {targets : Oid → List Oid} {sources : Finset Oid}
    (hsources : ∀ oid, targets oid ≠ [] → oid ∈ sources) {bound : Nat} {frontier : List Oid}
    {seen : OidSet} (hfrontier : ∀ oid ∈ frontier, oid ∈ seen)
    (hexpanded : ∀ oid ∈ seen, oid ∉ frontier → ∀ target ∈ targets oid, target ∈ seen)
    (hbound : (pending sources frontier seen).card ≤ bound) :
    ∀ oid ∈ explore targets bound frontier seen, ∀ target ∈ targets oid,
      target ∈ explore targets bound frontier seen := by
  induction bound generalizing frontier seen with
  | zero =>
      intro oid hoid target htarget
      apply hexpanded oid hoid _ target htarget
      intro hwaits
      have hpending : oid ∈ pending sources frontier seen :=
        Finset.mem_filter.mpr ⟨hsources oid (List.ne_nil_of_mem htarget), Or.inr hwaits⟩
      rw [Finset.card_eq_zero.mp (Nat.le_zero.mp hbound)] at hpending
      exact absurd hpending (Finset.notMem_empty oid)
  | succ bound ih =>
      rw [explore_succ]
      have hnext : ∀ oid ∈ (fresh seen (frontier.flatMap targets)).2,
          oid ∉ (fresh seen (frontier.flatMap targets)).1 → ∀ target ∈ targets oid,
            target ∈ (fresh seen (frontier.flatMap targets)).2 := by
        intro oid hoid hdone target htarget
        rw [mem_fresh_seen] at hoid ⊢
        rw [mem_fresh_kept, not_and'] at hdone
        have hold : oid ∈ seen := by
          rcases hoid with hold | hnew
          · exact hold
          · exact Decidable.not_not.mp (hdone hnew)
        by_cases hwaits : oid ∈ frontier
        · exact Or.inr (List.mem_flatMap.mpr ⟨oid, hwaits, htarget⟩)
        · exact Or.inl (hexpanded oid hold hwaits target htarget)
      by_cases hfound : (fresh seen (frontier.flatMap targets)).1 = []
      · rw [hfound] at hnext ⊢
        rw [explore_nil]
        intro oid hoid
        exact hnext oid hoid List.not_mem_nil
      · apply ih (fun _ => fresh_kept_subset) hnext
        have hless := pending_fresh_lt hsources hfrontier hfound
        omega

/-- A closure is exactly what its roots lead to, if the objects with targets
are at most as many as it is told. -/
theorem mem_closure_iff {targets : Oid → List Oid} (sources : Finset Oid)
    (hsources : ∀ oid, targets oid ≠ [] → oid ∈ sources) {count : Nat}
    (hcount : sources.card ≤ count) {roots : List Oid} {oid : Oid} :
    oid ∈ closure targets count roots ↔ ∃ root ∈ roots, Leads targets root oid := by
  have hfrontier : ∀ oid ∈ (fresh ∅ roots).1, oid ∈ (fresh ∅ roots).2 :=
    fun _ => fresh_kept_subset
  constructor
  · intro hoid
    refine explore_sound (fun oid => ∃ root ∈ roots, Leads targets root oid)
      ?_ hfrontier ?_ oid hoid
    · rintro source target ⟨root, hroot, hleads⟩ htarget
      exact ⟨root, hroot, hleads.tail htarget⟩
    · intro found hfound
      rcases mem_fresh_seen.mp hfound with hnone | hroot
      · simp at hnone
      · exact ⟨found, hroot, .refl⟩
  · rintro ⟨root, hroot, hleads⟩
    induction hleads with
    | refl => exact subset_explore (mem_fresh_seen.mpr (Or.inr hroot))
    | tail _ htarget ih =>
        refine explore_closed hsources hfrontier ?_ ?_ _ ih _ htarget
        · intro found hfound hdone
          rw [mem_fresh_kept, not_and'] at hdone
          rcases mem_fresh_seen.mp hfound with hnone | hroot
          · simp at hnone
          · exact absurd (hdone hroot) (by simp)
        · exact Nat.le_trans (Finset.card_filter_le _ _) hcount

end Reach

end ObjectVault
