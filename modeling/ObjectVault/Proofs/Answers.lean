/-
Answers that may fail.  What it takes for a call made of others to succeed, for
an answer that is passed on, and for a list that is visited item by item: the
visits succeed together, or the first failure is the answer.
-/
import Mathlib.Data.List.Forall2

namespace ObjectVault

theorem bind_eq_ok {ε α β : Type} {answer : Except ε α} {next : α → Except ε β} {result : β} :
    answer >>= next = .ok result ↔ ∃ value, answer = .ok value ∧ next value = .ok result := by
  cases answer <;> simp [bind, Except.bind]

theorem map_eq_ok {ε β γ : Type} {change : β → γ} {answer : Except ε β} {result : γ}
    (h : answer.map change = .ok result) : ∃ value, answer = .ok value ∧ change value = result := by
  cases answer with
  | error => cases h
  | ok value =>
      cases h
      exact ⟨value, rfl, rfl⟩

theorem map_eq_error {ε α β : Type} {answer : Except ε α} {change : α → β} {error : ε} :
    answer.map change = .error error ↔ answer = .error error := by
  cases answer <;> simp [Except.map]

theorem mapError_eq_ok {ε ε' β : Type} {relabel : ε → ε'} {answer : Except ε β} {result : β} :
    answer.mapError relabel = .ok result ↔ answer = .ok result := by
  cases answer <;> simp [Except.mapError]

/-- Visiting a list succeeds if each visit does. -/
theorem mapM_eq_pure {m : Type → Type} [Monad m] [LawfulMonad m] {α β : Type} {visit : α → m β}
    (result : α → β) {items : List α} (h : ∀ item ∈ items, visit item = pure (result item)) :
    items.mapM visit = pure (items.map result) := by
  induction items with
  | nil => rfl
  | cons item items ih =>
      obtain ⟨hitem, hitems⟩ := List.forall_mem_cons.mp h
      simp [List.mapM_cons, hitem, ih hitems]

section

variable {ε α β : Type} {visit : α → Except ε β} {head : α}

theorem mapM_cons_of_ok {value : β} (hhead : visit head = .ok value) (rest : List α) :
    (head :: rest).mapM visit = (rest.mapM visit).map (value :: ·) := by
  rw [List.mapM_cons, hhead]
  rfl

theorem mapM_cons_of_error {error : ε} (hhead : visit head = .error error) (rest : List α) :
    (head :: rest).mapM visit = .error error := by
  rw [List.mapM_cons, hhead]
  rfl

/-- Visiting a list succeeds with what each visit answers. -/
theorem mapM_eq_ok_iff {items : List α} {values : List β} :
    items.mapM visit = .ok values ↔
      List.Forall₂ (fun item value => visit item = .ok value) items values := by
  induction items generalizing values with
  | nil => simp [pure, Except.pure, eq_comm]
  | cons head rest ih =>
      rw [List.forall₂_cons_left_iff]
      cases hhead : visit head with
      | error error =>
          rw [mapM_cons_of_error hhead]
          refine iff_of_false nofun ?_
          rintro ⟨value, later, hvalue, _⟩
          cases hvalue
      | ok value =>
          rw [mapM_cons_of_ok hhead]
          constructor
          · intro hvalues
            obtain ⟨later, hlater, rfl⟩ := map_eq_ok hvalues
            exact ⟨value, later, rfl, ih.mp hlater, rfl⟩
          · rintro ⟨_, later, ⟨⟩, hlater, rfl⟩
            rw [ih.mpr hlater]
            rfl

/-- Visiting a list fails as the first visit does that fails. -/
theorem mapM_eq_error_iff {items : List α} {error : ε} :
    items.mapM visit = .error error ↔ ∃ earlier item later, items = earlier ++ item :: later ∧
      visit item = .error error ∧ ∀ other ∈ earlier, ∃ value, visit other = .ok value := by
  induction items with
  | nil => simp [pure, Except.pure]
  | cons head rest ih =>
      cases hhead : visit head with
      | error first =>
          rw [mapM_cons_of_error hhead]
          constructor
          · rintro ⟨⟩
            exact ⟨[], head, rest, rfl, hhead, nofun⟩
          · rintro ⟨earlier, item, later, hsplit, hitem, hearlier⟩
            cases earlier with
            | nil =>
                cases hsplit
                cases hhead.symm.trans hitem
                rfl
            | cons other earlier =>
                cases hsplit
                obtain ⟨value, hother⟩ := hearlier head List.mem_cons_self
                cases hhead.symm.trans hother
      | ok value =>
          rw [mapM_cons_of_ok hhead, map_eq_error, ih]
          constructor
          · rintro ⟨earlier, item, later, rfl, hitem, hearlier⟩
            refine ⟨head :: earlier, item, later, rfl, hitem, ?_⟩
            exact List.forall_mem_cons.mpr ⟨⟨value, hhead⟩, hearlier⟩
          · rintro ⟨earlier, item, later, hsplit, hitem, hearlier⟩
            cases earlier with
            | nil =>
                cases hsplit
                cases hhead.symm.trans hitem
            | cons other earlier =>
                cases hsplit
                exact ⟨earlier, item, later, rfl, hitem, (List.forall_mem_cons.mp hearlier).2⟩

end

end ObjectVault
