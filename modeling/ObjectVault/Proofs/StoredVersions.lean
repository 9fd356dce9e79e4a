/-
The stored versions of an object.  In a sound store they are its archived
rows and then its current one, strictly ascending.  A commit puts one version
behind them, a deletion takes all of them, and a prune takes some of the
oldest.
-/
import ObjectVault.Proofs.StoreRun
import Mathlib.Data.List.Sort

namespace ObjectVault

/-- Oldest first, with strictly increasing tids. -/
def Ascending (versions : List Version) : Prop :=
  versions.Pairwise (·.tid < ·.tid)

/-- Ascending lists with the same members are equal. -/
theorem Ascending.eq_of_mem_iff {versions others : List Version} (hversions : Ascending versions)
    (hothers : Ascending others) (hmem : ∀ version, version ∈ versions ↔ version ∈ others) :
    versions = others := by
  have hirrefl : Std.Irrefl fun older newer : Version => older.tid < newer.tid :=
    ⟨fun version => lt_irrefl version.tid⟩
  have hantisymm : Std.Antisymm fun older newer : Version => older.tid < newer.tid :=
    ⟨fun _ _ hlt hgt => absurd hgt (lt_asymm hlt)⟩
  exact List.Pairwise.eq_of_mem_iff hversions hothers hmem

/-- Either no version is below a boundary, or a last one is. -/
theorem split_below (versions : List Version) (boundary : Tid) :
    (∀ version ∈ versions, boundary ≤ version.tid) ∨
      ∃ older last newer, versions = older ++ last :: newer ∧ last.tid < boundary ∧
        ∀ version ∈ newer, boundary ≤ version.tid := by
  induction versions with
  | nil => exact Or.inl (by simp)
  | cons head rest ih =>
      rcases ih with habove | ⟨older, last, newer, hrest, hlast, hnewer⟩
      · rcases le_or_gt boundary head.tid with hhigh | hlow
        · exact Or.inl (List.forall_mem_cons.mpr ⟨hhigh, habove⟩)
        · exact Or.inr ⟨[], head, rest, rfl, hlow, habove⟩
      · exact Or.inr ⟨head :: older, last, newer, by rw [hrest]; rfl, hlast, hnewer⟩

namespace MemoryStore

variable {store later : MemoryStore} {oid : Oid} {version : Version}

/-- Every archived version lies under its own tid. -/
def Keyed (store : MemoryStore) : Prop :=
  ∀ (oid : Oid) (tid : Tid) (version : Version),
    store.history[(oid, tid)]? = some version → version.tid = tid

theorem Sound.keyed (hsound : store.Sound) : store.Keyed :=
  fun _ _ _ hrow => (hsound.history_key hrow).2

theorem mem_archived (hkeyed : store.Keyed) :
    version ∈ store.archived oid ↔ store.history[(oid, version.tid)]? = some version := by
  simp only [archived, List.mem_filterMap, Prod.exists, Option.ite_none_right_eq_some,
    Option.some.injEq, Std.ExtTreeMap.mem_toList_iff_getElem?_eq_some]
  constructor
  · rintro ⟨_, tid, _, hrow, rfl, rfl⟩
    rw [hkeyed _ _ _ hrow]
    exact hrow
  · intro hrow
    exact ⟨oid, version.tid, version, hrow, rfl, rfl⟩

theorem archived_ascending (hkeyed : store.Keyed) : Ascending (store.archived oid) := by
  have hrows : store.history.toList.Pairwise fun older newer =>
      older.1.1 = newer.1.1 → older.2.tid < newer.2.tid := by
    refine Std.ExtTreeMap.ordered_keys_toList.imp_of_mem ?_
    rintro ⟨⟨source, lower⟩, older⟩ ⟨⟨target, upper⟩, newer⟩ holder hnewer hkeys hsame
    rw [Std.ExtTreeMap.mem_toList_iff_getElem?_eq_some] at holder hnewer
    rw [hkeyed _ _ _ holder, hkeyed _ _ _ hnewer]
    cases hsame
    have htids : compare lower upper = .lt := by
      simpa [versionOrder, compareLex, compareOn] using hkeys
    exact compare_lt_iff_lt.mp htids
  refine hrows.filterMap _ ?_
  intro older newer hlt version hversion successor hsuccessor
  rw [Option.ite_none_right_eq_some] at hversion hsuccessor
  obtain ⟨hold, ⟨⟩⟩ := hversion
  obtain ⟨hnew, ⟨⟩⟩ := hsuccessor
  exact hlt (hold.trans hnew.symm)

/-- The current version is stored, and every archived one of another tid. -/
theorem mem_storedVersions_of_keyed (hkeyed : store.Keyed) :
    version ∈ store.storedVersions oid ↔ store.current[oid]? = some version ∨
      store.currentTid? oid ≠ some version.tid ∧
        store.history[(oid, version.tid)]? = some version := by
  cases hcurrent : store.current[oid]? with
  | none => simp [storedVersions, currentTid?, hcurrent, mem_archived hkeyed]
  | some current =>
      simp only [storedVersions, currentTid?, hcurrent, List.mem_append, List.mem_cons,
        List.mem_filter, decide_eq_true_eq, mem_archived hkeyed, Option.map_some, ne_eq,
        Option.some.injEq]
      constructor
      · rintro (⟨⟨hrow, hne⟩, _⟩ | rfl | ⟨⟨hrow, hne⟩, _⟩)
        · exact Or.inr ⟨Ne.symm hne, hrow⟩
        · exact Or.inl rfl
        · exact Or.inr ⟨Ne.symm hne, hrow⟩
      · rintro (rfl | ⟨hne, hrow⟩)
        · exact Or.inr (Or.inl rfl)
        · rcases lt_or_gt_of_ne hne with habove | hbelow
          · exact Or.inr (Or.inr ⟨⟨hrow, Ne.symm hne⟩, habove⟩)
          · exact Or.inl ⟨⟨hrow, Ne.symm hne⟩, hbelow⟩

theorem storedVersions_ascending (hkeyed : store.Keyed) : Ascending (store.storedVersions oid) := by
  have harchived : Ascending (store.archived oid) := archived_ascending hkeyed
  cases hcurrent : store.current[oid]? with
  | none => simpa only [storedVersions, hcurrent] using harchived
  | some current =>
      simp only [storedVersions, hcurrent]
      have hothers : Ascending ((store.archived oid).filter (·.tid ≠ current.tid)) :=
        harchived.filter _
      refine List.pairwise_append.mpr ⟨hothers.filter _, List.pairwise_cons.mpr ⟨?_,
        hothers.filter _⟩, ?_⟩
      · intro newer hnewer
        exact of_decide_eq_true (List.mem_filter.mp hnewer).2
      · intro older holder newer hnewer
        have hlower : older.tid < current.tid := of_decide_eq_true (List.mem_filter.mp holder).2
        rcases List.mem_cons.mp hnewer with rfl | hupper
        · exact hlower
        · exact lt_trans hlower (of_decide_eq_true (List.mem_filter.mp hupper).2)

theorem Sound.archived_eq_nil (hsound : store.Sound) (hfree : ¬ store.keepsHistory) :
    store.archived oid = [] :=
  List.eq_nil_iff_forall_not_mem.mpr fun _ hmem =>
    hfree (hsound.history_kept ((mem_archived hsound.keyed).mp hmem))

theorem storedVersions_eq (hsound : store.Sound) :
    store.storedVersions oid = store.archived oid ++ store.current[oid]?.toList := by
  cases hcurrent : store.current[oid]? with
  | none => simp [storedVersions, hcurrent]
  | some current =>
      have hbelow : ∀ version ∈ store.archived oid, version.tid < current.tid := by
        intro version hmem
        obtain ⟨top, htop, hlt⟩ := hsound.history_lt ((mem_archived hsound.keyed).mp hmem)
        cases hcurrent.symm.trans htop
        exact hlt
      have hothers : (store.archived oid).filter (·.tid ≠ current.tid) = store.archived oid :=
        List.filter_eq_self.mpr fun version hmem => decide_eq_true (ne_of_lt (hbelow version hmem))
      have hlower : (store.archived oid).filter (·.tid < current.tid) = store.archived oid :=
        List.filter_eq_self.mpr fun version hmem => decide_eq_true (hbelow version hmem)
      have hupper : (store.archived oid).filter (current.tid < ·.tid) = [] :=
        List.filter_eq_nil_iff.mpr fun version hmem => by simpa using le_of_lt (hbelow version hmem)
      simp only [storedVersions, hcurrent, hothers, hlower, hupper, Option.toList]

theorem mem_storedVersions (hsound : store.Sound) :
    version ∈ store.storedVersions oid ↔ store.current[oid]? = some version ∨
      store.history[(oid, version.tid)]? = some version := by
  rw [storedVersions_eq hsound, List.mem_append, mem_archived hsound.keyed, Option.mem_toList, or_comm]

/-- Every stored version has been passed by the last commit. -/
theorem Sound.stored_passed (hsound : store.Sound) (hmem : version ∈ store.storedVersions oid) :
    store.HasPassed version.tid := by
  rcases (mem_storedVersions hsound).mp hmem with hcurrent | hhistory
  · exact hsound.current_passed hcurrent
  · obtain ⟨current, hcurrent, hlt⟩ := hsound.history_lt hhistory
    obtain ⟨last, hlast, hle⟩ := hsound.current_passed hcurrent
    exact ⟨last, hlast, le_trans (le_of_lt hlt) hle⟩

/-- The newest stored version is the current one. -/
theorem getLast?_storedVersions (hsound : store.Sound) :
    (store.storedVersions oid).getLast? = store.current[oid]? := by
  rw [storedVersions_eq hsound]
  cases hcurrent : store.current[oid]? with
  | some current => simp
  | none =>
      have hnone : store.archived oid = [] := by
        refine List.eq_nil_iff_forall_not_mem.mpr fun version hmem => ?_
        obtain ⟨current, hfound, _⟩ := hsound.history_lt ((mem_archived hsound.keyed).mp hmem)
        rw [hcurrent] at hfound
        cases hfound
      rw [hnone]
      rfl

/-- Equal rows make equal stored versions. -/
theorem storedVersions_congr (hkeyed : store.Keyed) (hlater : later.Keyed)
    (hcurrent : later.current[oid]? = store.current[oid]?)
    (hhistory : ∀ tid : Tid, later.history[(oid, tid)]? = store.history[(oid, tid)]?) :
    later.storedVersions oid = store.storedVersions oid := by
  refine (storedVersions_ascending hlater).eq_of_mem_iff (storedVersions_ascending hkeyed) ?_
  intro version
  rw [mem_storedVersions_of_keyed hlater, mem_storedVersions_of_keyed hkeyed, currentTid?,
    currentTid?, hcurrent, hhistory]

/-- Archiving the current version archives what was stored. -/
theorem archived_iff_stored (hkeyed : store.Keyed) :
    (if store.currentTid? oid = some version.tid then store.current[oid]?
        else store.history[(oid, version.tid)]?) = some version ↔
      version ∈ store.storedVersions oid := by
  rw [mem_storedVersions_of_keyed hkeyed]
  split
  · rename_i htid
    exact (or_iff_left fun hother => hother.1 htid).symm
  · rename_i htid
    have hother : store.current[oid]? ≠ some version := by
      intro hcurrent
      exact htid (by rw [currentTid?, hcurrent]; rfl)
    rw [or_iff_right hother, and_iff_right htid]

/-- If the current version is archived and gives way to a newer one, that one
comes last. -/
theorem storedVersions_superseded (hkeyed : store.Keyed) (hlater : later.Keyed) {next : Version}
    (hbelow : ∀ version ∈ store.storedVersions oid, version.tid < next.tid)
    (hcurrent : later.current[oid]? = some next)
    (hhistory : ∀ old : Tid, later.history[(oid, old)]? =
      if store.currentTid? oid = some old then store.current[oid]? else store.history[(oid, old)]?) :
    later.storedVersions oid = store.storedVersions oid ++ [next] := by
  refine (storedVersions_ascending hlater).eq_of_mem_iff ?_ fun version => ?_
  · refine List.pairwise_append.mpr ⟨storedVersions_ascending hkeyed, by simp, ?_⟩
    intro older holder newer hnewer
    rw [List.mem_singleton.mp hnewer]
    exact hbelow older holder
  · rw [mem_storedVersions_of_keyed hlater, currentTid?, hcurrent, hhistory,
      archived_iff_stored hkeyed, List.mem_append, List.mem_singleton, Option.map_some]
    constructor
    · rintro (hnext | ⟨_, hstored⟩)
      · exact Or.inr (Option.some.inj hnext).symm
      · exact Or.inl hstored
    · rintro (hstored | rfl)
      · have hne : next.tid ≠ version.tid := ne_of_gt (hbelow version hstored)
        exact Or.inr ⟨fun hsame => hne (Option.some.inj hsame), hstored⟩
      · exact Or.inl rfl

/-- A commit leaves alone what it does not write.  Otherwise the new version
comes last, after all others or alone. -/
theorem storedVersions_applyAll (hsound : store.Sound) (now : Instant) (note : CommitNote)
    {writes : List Write} (hvalid : store.refusal? ∅ writes = none) (oid : Oid) :
    (oid ∉ writes.map Write.oid ∧
        (store.applyAll (Tid.nextAfter store.lastTid now) now note writes).storedVersions oid =
          store.storedVersions oid) ∨
      ∃ write ∈ writes, write.oid = oid ∧ store.currentTid? oid = write.expected ∧
        (store.applyAll (Tid.nextAfter store.lastTid now) now note writes).storedVersions oid =
          (if store.keepsHistory then store.storedVersions oid else []) ++
            [write.version (Tid.nextAfter store.lastTid now)] := by
  have hlater : Sound (store.applyAll (Tid.nextAfter store.lastTid now) now note writes) :=
    hsound.applyAll hvalid
  rcases applyAll_cases hvalid oid with
    ⟨hout, hcurrent, hhistory⟩ | ⟨write, hwrite, rfl, hexpected, hcurrent, hhistory⟩
  · exact Or.inl ⟨hout, storedVersions_congr hsound.keyed hlater.keyed hcurrent hhistory⟩
  · refine Or.inr ⟨write, hwrite, rfl, hexpected, ?_⟩
    by_cases hkeeps : store.keepsHistory
    · simp only [hkeeps, true_and] at hhistory
      rw [if_pos hkeeps]
      exact storedVersions_superseded hsound.keyed hlater.keyed
        (fun version hmem => lt_nextAfter_of_hasPassed (hsound.stored_passed hmem)) hcurrent hhistory
    · have hfree : ¬ (store.applyAll (Tid.nextAfter store.lastTid now) now note
          writes).keepsHistory := by
        rwa [applyAll, (foldl_apply_frame _ store writes).1]
      rw [if_neg hkeeps, storedVersions_eq hlater, hlater.archived_eq_nil hfree, hcurrent]
      rfl

theorem storedVersions_deleteAll (hsound : store.Sound) (oids : List Oid) (oid : Oid) :
    (store.deleteAll (.ofOids oids)).2.storedVersions oid =
      if oid ∈ oids then [] else store.storedVersions oid := by
  have hlater : Sound (store.deleteAll (.ofOids oids)).2 := hsound.change (.deleted oids)
  split
  · rename_i hmem
    have hgone : oid ∈ OidSet.ofOids oids := OidSet.mem_ofOids.mpr hmem
    refine List.eq_nil_iff_forall_not_mem.mpr fun version => ?_
    rw [mem_storedVersions hlater, current_deleteAll, history_deleteAll, if_pos hgone,
      if_pos hgone]
    simp
  · rename_i hmem
    have hkept : oid ∉ OidSet.ofOids oids := mt OidSet.mem_ofOids.mp hmem
    refine storedVersions_congr hsound.keyed hlater.keyed ?_ fun tid => ?_
    · rw [current_deleteAll, if_neg hkept]
    · rw [history_deleteAll, if_neg hkept]

theorem storedVersions_dropAll (hsound : store.Sound) (oid : Oid) :
    store.dropAll.2.storedVersions oid = store.current[oid]?.toList := by
  have hlater : Sound store.dropAll.2 := hsound.change .dropped
  have hnone : store.dropAll.2.archived oid = [] := by
    refine List.eq_nil_iff_forall_not_mem.mpr fun version hmem => ?_
    rw [mem_archived hlater.keyed, history_dropAll] at hmem
    cases hmem
  rw [storedVersions_eq hlater, hnone]
  rfl

/-- A version is outdated if a newer stored one is below the boundary too. -/
theorem isOutdated_iff {boundary tid : Tid} :
    store.isOutdated boundary (oid, tid) ↔
      ∃ newer ∈ store.storedVersions oid, tid < newer.tid ∧ newer.tid < boundary := by
  simp only [isOutdated, List.any_eq_true, Bool.and_eq_true, decide_eq_true_eq]

theorem mem_storedVersions_prune (hsound : store.Sound) {boundary : Tid} :
    version ∈ (store.prune boundary).2.storedVersions oid ↔
      version ∈ store.storedVersions oid ∧
        ¬ (store.keepsHistory ∧ store.isOutdated boundary (oid, version.tid)) := by
  have hlater : Sound (store.prune boundary).2 := hsound.change (.pruned boundary)
  rw [mem_storedVersions hlater, mem_storedVersions hsound, current_prune, history_prune,
    Option.ite_none_left_eq_some]
  constructor
  · rintro (hcurrent | ⟨hkept, hhistory⟩)
    · refine ⟨Or.inl hcurrent, fun houtdated => ?_⟩
      -- nothing stored is newer than the current version
      obtain ⟨newer, hnewer, hlt, _⟩ := isOutdated_iff.mp houtdated.2
      rcases (mem_storedVersions hsound).mp hnewer with hsame | hhistory
      · cases hcurrent.symm.trans hsame
        exact lt_irrefl _ hlt
      · obtain ⟨current, hfound, hgt⟩ := hsound.history_lt hhistory
        cases hcurrent.symm.trans hfound
        exact lt_asymm hlt hgt
    · exact ⟨Or.inr hhistory, hkept⟩
  · rintro ⟨hcurrent | hhistory, hkept⟩
    · exact Or.inl hcurrent
    · exact Or.inr ⟨hkept, hhistory⟩

/-- A prune takes nothing, or everything before the last version below its
boundary. -/
theorem storedVersions_prune (hsound : store.Sound) (boundary : Tid) (oid : Oid) :
    (store.prune boundary).2.storedVersions oid = store.storedVersions oid ∨
      store.keepsHistory ∧ ∃ older last newer,
        store.storedVersions oid = older ++ last :: newer ∧ last.tid < boundary ∧
          (store.prune boundary).2.storedVersions oid = last :: newer := by
  have hlater : Sound (store.prune boundary).2 := hsound.change (.pruned boundary)
  have hascending : Ascending (store.storedVersions oid) := storedVersions_ascending hsound.keyed
  by_cases hkeeps : store.keepsHistory
  · rcases split_below (store.storedVersions oid) boundary with
      habove | ⟨older, last, newer, hsplit, hlast, hnewer⟩
    · left
      refine (storedVersions_ascending hlater.keyed).eq_of_mem_iff hascending fun version => ?_
      rw [mem_storedVersions_prune hsound, isOutdated_iff]
      refine and_iff_left ?_
      rintro ⟨_, newer, hnewer, _, hlow⟩
      exact absurd hlow (not_lt_of_ge (habove newer hnewer))
    · refine Or.inr ⟨hkeeps, older, last, newer, hsplit, hlast, ?_⟩
      rw [hsplit] at hascending
      obtain ⟨_, hkept, hbelow⟩ := List.pairwise_append.mp hascending
      refine (storedVersions_ascending hlater.keyed).eq_of_mem_iff hkept fun version => ?_
      rw [mem_storedVersions_prune hsound, isOutdated_iff, hsplit]
      constructor
      · rintro ⟨hmem, hcurrent⟩
        rcases List.mem_append.mp hmem with holder | hstill
        · have hlt := hbelow version holder last List.mem_cons_self
          exact absurd ⟨hkeeps, last, by simp, hlt, hlast⟩ hcurrent
        · exact hstill
      · intro hstill
        refine ⟨List.mem_append_right older hstill, ?_⟩
        rintro ⟨_, next, hnext, hlt, hlow⟩
        rcases List.mem_append.mp hnext with holder | hupper
        · exact lt_asymm hlt (hbelow next holder version hstill)
        · rcases List.mem_cons.mp hupper with rfl | habove
          · rcases List.mem_cons.mp hstill with rfl | hgreater
            · exact lt_irrefl _ hlt
            · exact lt_asymm hlt (List.rel_of_pairwise_cons hkept hgreater)
          · exact absurd hlow (not_lt_of_ge (hnewer next habove))
  · left
    refine (storedVersions_ascending hlater.keyed).eq_of_mem_iff hascending fun version => ?_
    rw [mem_storedVersions_prune hsound]
    exact and_iff_left fun houtdated => hkeeps houtdated.1

end MemoryStore

end ObjectVault
