/-
Pages of history.  A listing passes its check exactly if each version links to
the next older one and the oldest one, where it is listed, links to nothing or
below the boundary of pruned history.  The stored versions of a reached store
are always so, and a page is a stretch of them.
-/
import ObjectVault.History
import ObjectVault.Proofs.Ledger

namespace ObjectVault

namespace Chain

theorem linkFault?_eq_none_iff {newer older : Link} :
    linkFault? newer older = none ↔ older.tid < newer.tid ∧ newer.prev = some older.tid := by
  by_cases horder : newer.tid ≤ older.tid
  · simp [linkFault?, horder, not_lt_of_ge horder]
  · by_cases hlink : newer.prev = some older.tid <;>
      simp [linkFault?, horder, hlink, lt_of_not_ge horder]

theorem endFault?_eq_none_iff {packedBefore : Option Tid} {oldest : Link} :
    endFault? packedBefore oldest = none ↔ ∀ prev, oldest.prev = some prev →
      ∃ boundary, packedBefore = some boundary ∧ prev < boundary := by
  cases hprev : oldest.prev with
  | none => simp [endFault?, hprev]
  | some prev =>
      cases packedBefore with
      | none => simp [endFault?, hprev]
      | some boundary => simp [endFault?, hprev]

/-- What a listing has to be for its check to pass. -/
theorem fault?_eq_none_iff {complete : Bool} {packedBefore : Option Tid} {links : List Link} :
    fault? complete packedBefore links = none ↔
      links.IsChain (fun newer older => older.tid < newer.tid ∧ newer.prev = some older.tid) ∧
        (complete → ∀ oldest ∈ links.getLast?, endFault? packedBefore oldest = none) := by
  induction links with
  | nil => simp [fault?]
  | cons newer rest ih =>
      cases rest with
      | nil => cases complete <;> simp [fault?]
      | cons older rest =>
          rw [List.isChain_cons_cons, List.getLast?_cons_cons, ← linkFault?_eq_none_iff]
          cases hlink : linkFault? newer older with
          | none => simp [fault?, hlink, ih]
          | some fault => simp [fault?, hlink]

end Chain

/-- Newest first, each version linking to the next older one, and the oldest
one linking to nothing or below the boundary of pruned history. -/
structure Traced (packedBefore : Option Tid) (versions : List Version) : Prop where
  descending : versions.Pairwise fun newer older => older.tid < newer.tid
  linked : versions.IsChain fun newer older => newer.prev = some older.tid
  oldest : ∀ oldest ∈ versions.getLast?, ∀ prev, oldest.prev = some prev →
    ∃ boundary, packedBefore = some boundary ∧ prev < boundary

/-- What a store with history has of an object can be traced. -/
theorem Kept.traced {store : MemoryStore} {oid : Oid} {committed : List Version}
    (hkept : Kept store oid committed) (hkeeps : store.keepsHistory) :
    Traced store.packedBefore (store.storedVersions oid).reverse := by
  obtain ⟨lost, hlost⟩ := hkept.suffix
  have hascending := hkept.chained.ascending
  have hlinked := hkept.chained.linked
  rw [← hlost] at hascending hlinked
  refine ⟨List.pairwise_reverse.mpr (List.pairwise_append.mp hascending).2.1,
    List.isChain_reverse.mpr hlinked.right_of_append, ?_⟩
  intro oldest holdest prev hprev
  rw [List.getLast?_reverse] at holdest
  rcases hkept.lost hkeeps with hall | ⟨first, rest, boundary, hrows, hsome, hlt⟩
  · rw [hall] at holdest
    rw [hkept.chained.first oldest holdest] at hprev
    cases hprev
  · rw [hrows] at holdest
    obtain rfl : first = oldest := Option.some.inj holdest
    have hmem : first ∈ committed := hkept.suffix.subset (hrows ▸ List.mem_cons_self)
    exact ⟨boundary, hsome, lt_trans (hkept.chained.prev_lt hmem hprev) hlt⟩

/-- What lies before a cursor is the older end of a listing. -/
theorem filter_before_suffix {versions : List Version} (before : Option Tid)
    (hdescending : versions.Pairwise fun newer older => older.tid < newer.tid) :
    (versions.filter fun version => before.all (version.tid < ·)) <:+ versions := by
  induction versions with
  | nil => exact List.suffix_refl []
  | cons newer rest ih =>
      obtain ⟨hbelow, hrest⟩ := List.pairwise_cons.mp hdescending
      by_cases hfits : before.all (newer.tid < ·)
      · have hall : ∀ version ∈ newer :: rest, before.all (version.tid < ·) := by
          intro version hmem
          cases before with
          | none => rfl
          | some bound =>
              have hnewer : newer.tid < bound := of_decide_eq_true hfits
              rcases List.mem_cons.mp hmem with rfl | holder
              · exact hfits
              · exact decide_eq_true (lt_trans (hbelow version holder) hnewer)
        exact ⟨[], List.filter_eq_self.mpr hall⟩
      · rw [List.filter_cons, if_neg hfits]
        exact (ih hrest).trans (List.suffix_cons newer rest)

/-- A stretch of a traced listing passes the check.  If it is shorter than
asked for, it ends with the oldest version. -/
theorem Traced.fault?_take {packedBefore : Option Tid} {versions listed : List Version}
    (htraced : Traced packedBefore versions) (hlisted : listed <:+ versions) (limit : Nat) :
    Chain.fault? (listed.length ≤ limit) packedBefore
      ((listed.take (limit + 1)).map fun version => ⟨version.tid, version.prev⟩) = none := by
  have hdescending := htraced.descending.sublist hlisted.sublist
  have hlinked := htraced.linked.suffix hlisted
  have hchain : listed.IsChain fun newer older =>
      older.tid < newer.tid ∧ newer.prev = some older.tid := by
    refine List.isChain_iff_getElem.mpr fun place hplace => ⟨?_, hlinked.getElem place hplace⟩
    exact List.pairwise_iff_getElem.mp hdescending _ _ _ _ (Nat.lt_succ_self place)
  rw [Chain.fault?_eq_none_iff, List.isChain_map]
  refine ⟨hchain.take (limit + 1), ?_⟩
  intro hcomplete link hlink
  have hwhole : listed.take (limit + 1) = listed :=
    List.take_of_length_le (Nat.le_succ_of_le (of_decide_eq_true hcomplete))
  rw [hwhole, List.getLast?_map] at hlink
  obtain ⟨oldest, holdest, rfl⟩ := Option.map_eq_some_iff.mp hlink
  obtain ⟨newer, hversions⟩ := hlisted
  have hlast : versions.getLast? = some oldest := by
    rw [← hversions, List.getLast?_append, holdest]
    rfl
  exact Chain.endFault?_eq_none_iff.mpr (htraced.oldest oldest hlast)

/-- The stored versions before a cursor, newest first. -/
def MemoryStore.listedBefore (store : MemoryStore) (oid : Oid) (before : Option Tid) :
    List Version :=
  (store.storedVersions oid).reverse.filter fun version => before.all (version.tid < ·)

/-- A page is checked together with the version after it. -/
theorem page_eq_check {store : MemoryStore} (honline : store.offline = false)
    (hkeeps : store.keepsHistory) (oid : Oid) (before : Option Tid) {limit : Nat}
    (hlimit : limit ≠ 0) :
    History.page store oid before limit =
      match Chain.fault? ((store.listedBefore oid before).length ≤ limit) store.packedBefore
          (((store.listedBefore oid before).take (limit + 1)).map fun version =>
            ⟨version.tid, version.prev⟩) with
      | some fault => .error (.store (.corruption (.chain oid fault)))
      | none => .ok (((store.listedBefore oid before).take limit).map store.summary) := by
  have hversions : ∀ count, ObjectStore.versions store oid before count =
      .ok (((store.listedBefore oid before).take count).map store.summary) :=
    fun _ => MemoryStore.online_eq honline _
  have hpacked : ObjectStore.packedBefore store = .ok store.packedBefore :=
    MemoryStore.online_eq honline _
  have hhistory : ObjectStore.keepsHistory store = true := hkeeps
  have hcomplete : (((store.listedBefore oid before).take (limit + 1)).length ≤ limit) =
      ((store.listedBefore oid before).length ≤ limit) := by
    rw [List.length_take, eq_iff_iff]
    omega
  have hlinks : (fun summary : VersionSummary => summary.toLink) ∘ store.summary =
      fun version => ⟨version.tid, version.prev⟩ := rfl
  simp only [History.page, History.listing, hlimit, hversions, hpacked, hhistory, ↓reduceIte,
    bind, Except.bind, History.check, List.length_map, hcomplete, List.map_map, hlinks]
  cases Chain.fault? _ _ _ with
  | some fault => rfl
  | none =>
      simp only [pure, Except.pure, Except.mapError, ← List.map_take, List.take_take]
      rw [min_eq_left (Nat.le_succ limit)]

/-- A page of traced versions is a stretch of them. -/
theorem page_eq {store : MemoryStore} {oid : Oid} (hsound : store.Sound)
    (hkeeps : store.keepsHistory)
    (htraced : Traced store.packedBefore (store.storedVersions oid).reverse)
    (before : Option Tid) (limit : Nat) :
    History.page store oid before limit =
      .ok (((store.listedBefore oid before).take limit).map store.summary) := by
  have hlisted : store.listedBefore oid before <:+ (store.storedVersions oid).reverse :=
    filter_before_suffix before htraced.descending
  by_cases hlimit : limit = 0
  · subst hlimit
    rfl
  · have hpasses := htraced.fault?_take hlisted limit
    rw [page_eq_check hsound.online hkeeps oid before hlimit, hpasses]

/-- One of the rows of an object. -/
def MemoryStore.Stores (store : MemoryStore) (oid : Oid) (version : Version) : Prop :=
  store.current[oid]? = some version ∨ ∃ tid : Tid, store.history[(oid, tid)]? = some version

/-- No run of a store with history breaks a chain: the rows of an object are
traced, and each page is the newest of them before its cursor. -/
theorem history_pages_traced (actions : List StoreAction) (oid : Oid) :
    ∃ stored : List Version,
      (∀ version, version ∈ stored ↔
        (performAll (MemoryStore.empty true) actions).Stores oid version) ∧
      Traced (performAll (MemoryStore.empty true) actions).packedBefore stored ∧
      ∀ before limit, History.page (performAll (MemoryStore.empty true) actions) oid before limit =
        .ok (((stored.filter fun version => before.all (version.tid < ·)).take limit).map
          (performAll (MemoryStore.empty true) actions).summary) := by
  have hsound : MemoryStore.Sound (performAll (MemoryStore.empty true) actions) :=
    MemoryStore.sound_performAll MemoryStore.sound_empty
  have hkeeps := MemoryStore.keepsHistory_performAll (MemoryStore.empty true) actions
  have htraced := (kept_run true actions oid).traced hkeeps
  refine ⟨_, ?_, htraced, page_eq hsound hkeeps htraced⟩
  intro version
  rw [List.mem_reverse, MemoryStore.mem_storedVersions hsound]
  constructor
  · rintro (hcurrent | hhistory)
    · exact Or.inl hcurrent
    · exact Or.inr ⟨version.tid, hhistory⟩
  · rintro (hcurrent | ⟨tid, hhistory⟩)
    · exact Or.inl hcurrent
    · rw [← (hsound.history_key hhistory).2] at hhistory
      exact Or.inr hhistory

end ObjectVault
