/-
Looking into the past.  What a store answers about the time before a tid is
what was in effect then, going by the ledger, or nothing.  It is nothing only
if the ledger has nothing, as long as no history was pruned above that tid.
-/
import ObjectVault.Proofs.Ledger

namespace ObjectVault

/-- The newest of the versions below a tid, with the tid of the next one. -/
def InEffect (committed : List Version) (before : Tid) (past : PastVersion) : Prop :=
  ∃ older newer, committed = older ++ past.version :: newer ∧
    (∀ version ∈ older, version.tid < past.version.tid) ∧ past.version.tid < before ∧
    (∀ version ∈ newer, before ≤ version.tid) ∧ past.ended = newer.head?.map Version.tid

theorem newestBefore_eq_none {versions : List Version} {before : Tid}
    (habove : ∀ version ∈ versions, before ≤ version.tid) :
    Tid.newestBefore (versions.map Version.tid) before = none := by
  cases versions with
  | nil => rfl
  | cons head rest =>
      have hhead : ¬ head.tid < before := not_lt_of_ge (habove head List.mem_cons_self)
      simp [Tid.newestBefore, hhead]

theorem newestBefore_eq_some {older newer : List Version} {last : Version} {before : Tid}
    (hascending : Ascending (older ++ last :: newer)) (hlast : last.tid < before)
    (hnewer : ∀ version ∈ newer, before ≤ version.tid) :
    Tid.newestBefore ((older ++ last :: newer).map Version.tid) before =
      some (older.length, newer.head?.map Version.tid) := by
  have holder : ∀ tid ∈ older.map Version.tid, decide (tid < before) = true := by
    intro tid hmem
    obtain ⟨version, hversion, rfl⟩ := List.mem_map.mp hmem
    have hlt := (List.pairwise_append.mp hascending).2.2 version hversion last List.mem_cons_self
    exact decide_eq_true (lt_trans hlt hlast)
  have hrest : (newer.map Version.tid).takeWhile (· < before) = [] := by
    cases newer with
    | nil => rfl
    | cons next _ =>
        have hnext : ¬ next.tid < before := not_lt_of_ge (hnewer next List.mem_cons_self)
        simp [hnext]
  have hbelow : ((older ++ last :: newer).map Version.tid).takeWhile (· < before) =
      older.map Version.tid ++ [last.tid] := by
    rw [List.map_append, List.takeWhile_append_of_pos holder, List.map_cons, List.takeWhile_cons,
      if_pos (decide_eq_true hlast), hrest]
  have hended : ((older ++ last :: newer).map Version.tid)[older.length + 1]? =
      newer.head?.map Version.tid := by
    rw [List.getElem?_map, List.getElem?_append_right (Nat.le_succ _), List.head?_eq_getElem?]
    simp
  simp only [Tid.newestBefore, hbelow, List.length_append, List.length_map, List.length_singleton,
    hended]

/-- A store answers from its stored versions. -/
theorem loadBefore_cases {store : MemoryStore} (hsound : store.Sound) (oid : Oid) (before : Tid) :
    (∀ version ∈ store.storedVersions oid, before ≤ version.tid) ∧
        ObjectStore.loadBefore store oid before = .ok none ∨
      ∃ older last newer, store.storedVersions oid = older ++ last :: newer ∧
        last.tid < before ∧ (∀ version ∈ newer, before ≤ version.tid) ∧
        ObjectStore.loadBefore store oid before =
          .ok (some ⟨last, newer.head?.map Version.tid⟩) := by
  rcases split_below (store.storedVersions oid) before with
    habove | ⟨older, last, newer, hsplit, hlast, hnewer⟩
  · refine Or.inl ⟨habove, ?_⟩
    simp only [ObjectStore.loadBefore, hsound.online_eq, newestBefore_eq_none habove]
    rfl
  · refine Or.inr ⟨older, last, newer, hsplit, hlast, hnewer, ?_⟩
    have hascending : Ascending (store.storedVersions oid) :=
      MemoryStore.storedVersions_ascending hsound.keyed
    rw [hsplit] at hascending
    have hplace : (older ++ last :: newer)[older.length]? = some last := by
      rw [List.getElem?_append_right (le_refl _)]
      simp
    simp only [ObjectStore.loadBefore, hsound.online_eq, hsplit,
      newestBefore_eq_some hascending hlast hnewer, Option.bind_eq_bind, Option.bind_some, hplace]
    rfl

/-- Time travel never lies.  An answer is what was in effect.  There is one
wherever something was, at and above the boundary of pruned history. -/
theorem loadBefore_in_effect (keepsHistory : Bool) (actions : List StoreAction) (oid : Oid)
    (before : Tid) :
    ∃ answer,
      ObjectStore.loadBefore (performAll (MemoryStore.empty keepsHistory) actions) oid before =
          .ok answer ∧
        (∀ past, answer = some past →
          InEffect (Ledger.ofRun keepsHistory actions oid) before past) ∧
        (keepsHistory →
          (∀ boundary,
            (performAll (MemoryStore.empty keepsHistory) actions).packedBefore = some boundary →
              boundary ≤ before) →
          answer = none →
          ∀ version ∈ Ledger.ofRun keepsHistory actions oid, before ≤ version.tid) := by
  have hsound : MemoryStore.Sound (performAll (MemoryStore.empty keepsHistory) actions) :=
    MemoryStore.sound_performAll MemoryStore.sound_empty
  have hkept := kept_run keepsHistory actions oid
  have hkeeps := MemoryStore.keepsHistory_performAll (MemoryStore.empty keepsHistory) actions
  rcases loadBefore_cases hsound oid before with
    ⟨habove, hanswer⟩ | ⟨older, last, newer, hsplit, hlast, hnewer, hanswer⟩
  · refine ⟨none, hanswer, by simp, ?_⟩
    intro hhistory hpacked _
    rcases hkept.lost (hkeeps.trans hhistory) with
      hall | ⟨oldest, rest, boundary, hrows, hsome, hlt⟩
    · exact hall ▸ habove
    · -- the oldest stored version is below the boundary, and so below `before`
      have hlow := lt_of_lt_of_le hlt (hpacked boundary hsome)
      exact absurd hlow (not_lt_of_ge (habove oldest (hrows ▸ List.mem_cons_self)))
  · refine ⟨_, hanswer, ?_, by simp⟩
    rintro _ ⟨⟩
    obtain ⟨lost, hlost⟩ := hkept.suffix
    rw [hsplit, ← List.append_assoc] at hlost
    have hascending := hkept.chained.ascending
    rw [← hlost] at hascending ⊢
    refine ⟨lost ++ older, newer, rfl, ?_, hlast, hnewer, rfl⟩
    intro version hmem
    exact (List.pairwise_append.mp hascending).2.2 version hmem last List.mem_cons_self

end ObjectVault
