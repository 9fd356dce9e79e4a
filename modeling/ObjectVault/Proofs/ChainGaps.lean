/-
Listings with gaps.  The entries of a listing are told apart by their tids, so
an entry can only be followed by the one that its link names.  Whatever is taken
out of an unbroken listing shows in the check, unless it is taken off the ends.
-/
import ObjectVault.Proofs.PagedHistory

namespace ObjectVault

/-- A listing, newest first, in which each entry links to the next older one.
The oldest one may link to anything. -/
structure Unbroken (versions : List VersionSummary) : Prop where
  descending : versions.Pairwise fun newer older => older.tid < newer.tid
  linked : versions.IsChain fun newer older => newer.prev = some older.tid

variable {versions listing : List VersionSummary}

theorem Unbroken.tail {newest : VersionSummary} (h : Unbroken (newest :: versions)) :
    Unbroken versions :=
  ⟨(List.pairwise_cons.mp h.descending).2, h.linked.tail⟩

theorem Unbroken.eq_of_tid_eq (h : Unbroken versions) {entry other : VersionSummary}
    (hentry : entry ∈ versions) (hother : other ∈ versions) (htid : entry.tid = other.tid) :
    entry = other := by
  have hdistinct : (versions.map (·.tid)).Nodup :=
    List.pairwise_map.mpr (h.descending.imp fun holder => (ne_of_lt holder).symm)
  exact List.inj_on_of_nodup_map hdistinct hentry hother htid

/-- From a common newest entry on, links leave no choice. -/
theorem Unbroken.prefix_of_linked (h : Unbroken versions) (hsub : listing.Sublist versions)
    (hlinked : listing.IsChain fun newer older => newer.prev = some older.tid)
    (hnewest : ∀ newest ∈ listing.head?, versions.head? = some newest) :
    listing <+: versions := by
  induction versions generalizing listing with
  | nil => exact List.sublist_nil.mp hsub ▸ List.nil_prefix
  | cons newest rest ih =>
      cases listing with
      | nil => exact List.nil_prefix
      | cons first later =>
          obtain rfl : newest = first := Option.some.inj (hnewest first rfl)
          have hlater : later.Sublist rest := List.cons_sublist_cons.mp hsub
          rw [List.prefix_cons_inj]
          refine ih h.tail hlater hlinked.tail ?_
          intro second hsecond
          have hnamed := (List.isChain_cons.mp hlinked).1 second hsecond
          have hmem : second ∈ rest := hlater.subset (List.mem_of_mem_head? hsecond)
          cases rest with
          | nil => cases hmem
          | cons next rest =>
              have hnext := (List.isChain_cons.mp h.linked).1 next rfl
              have htid : next.tid = second.tid := Option.some.inj (hnext.symm.trans hnamed)
              exact congrArg some (h.tail.eq_of_tid_eq List.mem_cons_self hmem htid)

/-- What is left of an unbroken listing is linked if and only if it is a
stretch of it. -/
theorem Unbroken.linked_iff (h : Unbroken versions) (hsub : listing.Sublist versions) :
    listing.IsChain (fun newer older => newer.prev = some older.tid) ↔ listing <:+: versions := by
  constructor
  · intro hlinked
    induction versions with
    | nil => exact List.sublist_nil.mp hsub ▸ List.infix_rfl
    | cons newest rest ih =>
        rcases List.sublist_cons_iff.mp hsub with holder | ⟨later, rfl, _⟩
        · exact List.infix_cons (ih h.tail holder)
        · refine (h.prefix_of_linked hsub hlinked ?_).isInfix
          rintro _ ⟨⟩
          rfl
  · intro hstretch
    exact h.linked.infix hstretch

namespace Chain

/-- A listing in order passes the check if it is linked and ends well. -/
theorem fault?_of_descending
    (hdescending : listing.Pairwise fun newer older => older.tid < newer.tid) {complete : Bool}
    {packedBefore : Option Tid} :
    fault? complete packedBefore (listing.map (·.toLink)) = none ↔
      listing.IsChain (fun newer older => newer.prev = some older.tid) ∧
        (complete → ∀ oldest ∈ listing.getLast?, endFault? packedBefore oldest.toLink = none) := by
  rw [fault?_eq_none_iff, List.isChain_map, List.getLast?_map]
  refine and_congr ?_ (by simp)
  constructor
  · exact fun hchain => hchain.imp fun _ _ hlink => hlink.2
  · intro hlinked
    rw [List.isChain_iff_getElem] at hlinked ⊢
    intro place hplace
    exact ⟨List.pairwise_iff_getElem.mp hdescending _ _ _ _ (Nat.lt_succ_self place),
      hlinked place hplace⟩

/-- A complete listing in order that is linked has the fault of its oldest
entry. -/
theorem fault?_of_linked
    (hdescending : listing.Pairwise fun newer older => older.tid < newer.tid)
    (hlinked : listing.IsChain fun newer older => newer.prev = some older.tid)
    {oldest : VersionSummary} (holdest : listing.getLast? = some oldest)
    (packedBefore : Option Tid) :
    fault? true packedBefore (listing.map (·.toLink)) = endFault? packedBefore oldest.toLink := by
  obtain ⟨newer, rfl⟩ := List.getLast?_eq_some_iff.mp holdest
  have hsound : fault? false packedBefore ((newer ++ [oldest]).map (·.toLink)) = none :=
    (fault?_of_descending hdescending).mpr ⟨hlinked, nofun⟩
  rw [List.map_append, List.map_singleton] at hsound ⊢
  rw [fault?_append, hsound, Option.none_or]
  rfl

theorem endFault?_of_missing {packedBefore : Option Tid} {oldest : Link} {prev : Tid}
    (hprev : oldest.prev = some prev)
    (hbound : ∀ boundary, packedBefore = some boundary → boundary ≤ prev) :
    endFault? packedBefore oldest = some (.missingPredecessor oldest.tid prev) := by
  cases packedBefore with
  | none => simp [endFault?, hprev]
  | some boundary => simp [endFault?, hprev, not_lt_of_ge (hbound boundary rfl)]

/-- A listing in order that is not linked is reported at its first gap. -/
theorem fault?_of_gap
    (hdescending : listing.Pairwise fun newer older => older.tid < newer.tid)
    (hgap : ¬ listing.IsChain fun newer older => newer.prev = some older.tid) :
    ∃ earlier newer older later, listing = earlier ++ newer :: older :: later ∧
      newer.prev ≠ some older.tid ∧ ∀ complete packedBefore,
        fault? complete packedBefore (listing.map (·.toLink)) =
          some (.brokenLink newer.toLink older.tid) := by
  induction listing with
  | nil => exact absurd .nil hgap
  | cons newer rest ih =>
      cases rest with
      | nil => exact absurd (.singleton newer) hgap
      | cons older later =>
          obtain ⟨hbelow, hrest⟩ := List.pairwise_cons.mp hdescending
          have horder : ¬ newer.tid ≤ older.tid := not_le_of_gt (hbelow older List.mem_cons_self)
          by_cases hlink : newer.prev = some older.tid
          · have hlater := fun hchain => hgap (List.isChain_cons_cons.mpr ⟨hlink, hchain⟩)
            obtain ⟨earlier, first, second, after, hsplit, hbroken, hfault⟩ := ih hrest hlater
            refine ⟨newer :: earlier, first, second, after, by rw [hsplit]; rfl, hbroken, ?_⟩
            intro complete packedBefore
            simpa [fault?, linkFault?, horder, hlink] using hfault complete packedBefore
          · refine ⟨[], newer, older, later, rfl, hlink, ?_⟩
            intro complete packedBefore
            simp [fault?, linkFault?, horder, hlink]

end Chain

/-- An entry that is not the oldest one links to an entry between it and any
older one. -/
theorem Unbroken.exists_next (h : Unbroken versions) {newer older : VersionSummary}
    (hnewer : newer ∈ versions) (holder : older ∈ versions) (hbelow : older.tid < newer.tid) :
    ∃ next ∈ versions, newer.prev = some next.tid ∧ next.tid < newer.tid ∧
      older.tid ≤ next.tid := by
  induction versions with
  | nil => cases hnewer
  | cons newest rest ih =>
      obtain ⟨hfirst, hrest⟩ := List.pairwise_cons.mp h.descending
      have holderRest : older ∈ rest := by
        rcases List.mem_cons.mp holder with rfl | hmem
        · rcases List.mem_cons.mp hnewer with rfl | hlater
          · exact absurd hbelow (lt_irrefl _)
          · exact absurd hbelow (lt_asymm (hfirst newer hlater))
        · exact hmem
      rcases List.mem_cons.mp hnewer with rfl | hlater
      · cases rest with
        | nil => cases holderRest
        | cons next rest =>
            have hnext := hfirst next List.mem_cons_self
            refine ⟨next, by simp, (List.isChain_cons.mp h.linked).1 next rfl, hnext, ?_⟩
            rcases List.mem_cons.mp holderRest with rfl | hmem
            · exact le_refl _
            · exact le_of_lt ((List.pairwise_cons.mp hrest).1 older hmem)
      · obtain ⟨next, hnext, hbetween⟩ := ih h.tail hlater holderRest
        exact ⟨next, List.mem_cons_of_mem newest hnext, hbetween⟩

/-- At a gap the entry that is linked to is missing from the listing. -/
theorem Unbroken.missing_of_gap (h : Unbroken versions) {earlier later : List VersionSummary}
    {newer older : VersionSummary}
    (hsub : (earlier ++ newer :: older :: later).Sublist versions)
    (hgap : newer.prev ≠ some older.tid) :
    ∃ missing ∈ versions, newer.prev = some missing.tid ∧
      missing ∉ earlier ++ newer :: older :: later := by
  have hdescending := h.descending.sublist hsub
  rw [List.pairwise_append, List.pairwise_cons, List.pairwise_cons] at hdescending
  obtain ⟨_, ⟨hnewer, holder, _⟩, hearlier⟩ := hdescending
  obtain ⟨missing, hmissing, hlink, hbelow, hbetween⟩ := h.exists_next
    (hsub.subset (by simp)) (hsub.subset (by simp)) (hnewer older List.mem_cons_self)
  refine ⟨missing, hmissing, hlink, ?_⟩
  -- whatever is listed below the gap is no newer than its lower end
  have hlisted : missing ∈ earlier ++ newer :: older :: later → missing.tid ≤ older.tid := by
    intro hmem
    rcases List.mem_append.mp hmem with hfront | hback
    · exact absurd hbelow (lt_asymm (hearlier missing hfront newer List.mem_cons_self))
    · rcases List.mem_cons.mp hback with rfl | hrest
      · exact absurd hbelow (lt_irrefl _)
      · rcases List.mem_cons.mp hrest with rfl | hlater
        · exact le_refl _
        · exact le_of_lt (holder missing hlater)
  intro hmem
  exact hgap (hlink.trans (congrArg some (le_antisymm (hlisted hmem) hbetween)))

theorem History.check_eq_ok_iff {oid : Oid} {complete : Bool} {packedBefore : Option Tid} :
    History.check oid listing complete packedBefore = .ok () ↔
      Chain.fault? complete packedBefore (listing.map (·.toLink)) = none := by
  rw [History.check]
  cases Chain.fault? complete packedBefore (listing.map (·.toLink)) <;> simp

/-- No gap escapes the check.  What is left of an unbroken listing passes if and
only if it is a stretch of it whose oldest entry, where the listing is complete,
links to nothing or below the boundary of pruned history.  Otherwise it is
reported as corruption: by the link to an entry that is missing, or else by the
link of its oldest entry. -/
theorem no_gap_escapes (hversions : Unbroken versions) (hsub : listing.Sublist versions)
    (oid : Oid) (complete : Bool) (packedBefore : Option Tid) :
    (History.check oid listing complete packedBefore = .ok () ↔
      listing <:+: versions ∧ (complete → ∀ oldest ∈ listing.getLast?, ∀ prev,
        oldest.prev = some prev → ∃ boundary, packedBefore = some boundary ∧ prev < boundary)) ∧
    (¬ listing <:+: versions → ∃ newer older missing, [newer, older] <:+: listing ∧
      missing ∈ versions ∧ missing ∉ listing ∧ newer.prev = some missing.tid ∧
      History.check oid listing complete packedBefore =
        .error (.corruption (.chain oid (.brokenLink newer.toLink older.tid)))) ∧
    (listing <:+: versions → complete → ∀ oldest ∈ listing.getLast?, ∀ prev,
      oldest.prev = some prev → (∀ boundary, packedBefore = some boundary → boundary ≤ prev) →
      History.check oid listing complete packedBefore =
        .error (.corruption (.chain oid (.missingPredecessor oldest.tid prev)))) := by
  have hdescending := hversions.descending.sublist hsub
  refine ⟨?_, ?_, ?_⟩
  · rw [History.check_eq_ok_iff, Chain.fault?_of_descending hdescending, hversions.linked_iff hsub]
    simp only [Chain.endFault?_eq_none_iff]
  · intro hgaps
    obtain ⟨earlier, newer, older, later, rfl, hgap, hfault⟩ :=
      Chain.fault?_of_gap hdescending (mt (hversions.linked_iff hsub).mp hgaps)
    obtain ⟨missing, hmissing, hlink, hunlisted⟩ := hversions.missing_of_gap hsub hgap
    refine ⟨newer, older, missing, ⟨earlier, later, by simp⟩, hmissing, hunlisted, hlink, ?_⟩
    rw [History.check, hfault]
  · intro hstretch hcomplete oldest holdest prev hprev hbound
    have hlinked := (hversions.linked_iff hsub).mpr hstretch
    rw [History.check, hcomplete, Chain.fault?_of_linked hdescending hlinked holdest,
      Chain.endFault?_of_missing hprev hbound]

namespace GapWitness

def entry (tid prev : Nat) : VersionSummary :=
  ⟨⟨⟨tid⟩, some ⟨prev⟩⟩, 1, .ofMicros tid, "", ""⟩

/-- Three versions, of which the oldest one follows a pruned one. -/
def kept : List VersionSummary := [entry 15 10, entry 10 5, entry 5 3]

/-- Without its newest version the listing passes, without the middle one it is
reported. -/
theorem middle_missed :
    (Unbroken kept ∧ [entry 10 5, entry 5 3].Sublist kept ∧
      [entry 15 10, entry 5 3].Sublist kept) ∧
    History.check ⟨1⟩ [entry 10 5, entry 5 3] true (some ⟨4⟩) = .ok () ∧
    ∃ newer older, History.check ⟨1⟩ [entry 15 10, entry 5 3] true (some ⟨4⟩) =
      .error (.corruption (.chain ⟨1⟩ (.brokenLink newer older))) := by
  have hkept : Unbroken kept := ⟨by decide, by decide⟩
  have holder : [entry 10 5, entry 5 3].Sublist kept := by decide
  have hgap : [entry 15 10, entry 5 3].Sublist kept := by decide
  refine ⟨⟨hkept, holder, hgap⟩, ?_, ?_⟩
  · refine (no_gap_escapes hkept holder ⟨1⟩ true (some ⟨4⟩)).1.mpr ⟨by decide, ?_⟩
    rintro _ oldest ⟨⟩ prev ⟨⟩
    exact ⟨⟨4⟩, rfl, by decide⟩
  · obtain ⟨newer, older, _, _, _, _, _, hreported⟩ :=
      (no_gap_escapes hkept hgap ⟨1⟩ true (some ⟨4⟩)).2.1 (by decide)
    exact ⟨_, _, hreported⟩

end GapWitness

end ObjectVault
