/-
Histories read page by page.  A reader asks for a page, continues from the tid
of the last entry it has, and stops at an empty page.  Each page is checked
together with the entry after it, so the pages pass their checks exactly if the
whole listing does.  A commit that lands in between adds a version that the
reader is already past.
-/
import ObjectVault.Proofs.PresentAlike

namespace ObjectVault

/-- How far a reader of an object's history has come. -/
inductive Paging where
  | reading (collected : List VersionSummary)
  | finished (collected : List VersionSummary)
  | failed (error : TxnError)

namespace Paging

/-- Ask for the page after what is collected.  An empty page ends the
reading. -/
def request [ObjectStore σ] (oid : Oid) (size : Nat) : Paging → σ → Paging
  | reading collected, store =>
      match History.page store oid (collected.getLast?.map (·.tid)) size with
      | .ok [] => finished collected
      | .ok entries => reading (collected ++ entries)
      | .error error => failed error
  | ended, _ => ended

/-- Request one page after the other, each from the store as it is then. -/
def through [ObjectStore σ] (oid : Oid) (size : Nat) (stores : List σ) : Paging :=
  stores.foldl (request oid size) (reading [])

/-- The outcome of a reading that comes to the same as one listing. -/
def ofListing : Except TxnError (List VersionSummary) → Paging
  | .ok listing => finished listing
  | .error error => failed error

end Paging

namespace Chain

variable {packedBefore : Option Tid}

/-- A chain has the faults of its links up to one of them, and those from
there on. -/
theorem fault?_append {complete : Bool} (newer : List Link) (middle : Link) (older : List Link) :
    fault? complete packedBefore (newer ++ middle :: older) =
      (fault? false packedBefore (newer ++ [middle])).or
        (fault? complete packedBefore (middle :: older)) := by
  induction newer with
  | nil => rfl
  | cons first rest ih =>
      cases rest with
      | nil =>
          simp only [List.cons_append, List.nil_append, fault?]
          cases linkFault? first middle <;> rfl
      | cons second rest =>
          simp only [List.cons_append, fault?] at ih ⊢
          cases linkFault? first second with
          | none => exact ih
          | some fault => rfl

/-- The fault that a page of a listing shows: it checks one link beyond what it
returns. -/
def pageFault? (size : Nat) (packedBefore : Option Tid) (links : List Link) : Option ChainFault :=
  fault? (links.length ≤ size) packedBefore (links.take (size + 1))

/-- A page that reaches the end of a listing checks all of it. -/
theorem pageFault?_of_length_le {size : Nat} {links : List Link} (hlength : links.length ≤ size) :
    pageFault? size packedBefore links = fault? true packedBefore links := by
  rw [pageFault?, decide_eq_true hlength, List.take_of_length_le (Nat.le_succ_of_le hlength)]

/-- The faults of a listing are those that its first page shows, and those of
what the page leaves. -/
theorem fault?_eq_page (size : Nat) (links : List Link) :
    fault? true packedBefore links =
      (pageFault? size packedBefore links).or (fault? true packedBefore (links.drop size)) := by
  by_cases hlength : links.length ≤ size
  · rw [pageFault?_of_length_le hlength, List.drop_eq_nil_of_le hlength, fault?, Option.or_none]
  · have hsize : size < links.length := lt_of_not_ge hlength
    have hdrop : links.drop size = links[size] :: links.drop (size + 1) :=
      List.drop_eq_getElem_cons hsize
    have htake : links.take (size + 1) = links.take size ++ [links[size]] :=
      List.take_succ_eq_append_getElem hsize
    calc fault? true packedBefore links
        = fault? true packedBefore (links.take size ++ links[size] :: links.drop (size + 1)) := by
          rw [← hdrop, List.take_append_drop]
      _ = (pageFault? size packedBefore links).or (fault? true packedBefore (links.drop size)) := by
          rw [fault?_append, pageFault?, decide_eq_false hlength, htake, hdrop]

end Chain

namespace Paging

/-- What a store answers to a request when `entries` are left to list. -/
def answer (oid : Oid) (packedBefore : Option Tid) (size : Nat) (entries : List VersionSummary) :
    Except TxnError (List VersionSummary) :=
  match Chain.pageFault? size packedBefore (entries.map (·.toLink)) with
  | some fault => .error (.store (.corruption (.chain oid fault)))
  | none => .ok (entries.take size)

/-- A reader is answered as if nothing but `entries` had ever been listed,
once it has some of them. -/
def Serves [ObjectStore σ] (oid : Oid) (packedBefore : Option Tid) (size : Nat)
    (entries : List VersionSummary) (store : σ) : Prop :=
  ∀ shown rest, shown ++ rest = entries → shown ≠ [] →
    History.page store oid (shown.getLast?.map (·.tid)) size = answer oid packedBefore size rest

section

variable {σ : Type} [ObjectStore σ] {oid : Oid} {size : Nat} {packedBefore : Option Tid}
  {entries : List VersionSummary}

theorem foldl_request_failed (stores : List σ) (error : TxnError) :
    stores.foldl (request oid size) (failed error) = failed error := by
  induction stores with
  | nil => rfl
  | cons store rest ih => exact ih

theorem foldl_request_finished (stores : List σ) (collected : List VersionSummary) :
    stores.foldl (request oid size) (finished collected) = finished collected := by
  induction stores with
  | nil => rfl
  | cons store rest ih => exact ih

/-- The reader stops where nothing is left. -/
theorem request_of_nil {store : σ} {shown : List VersionSummary}
    (hanswer : History.page store oid (shown.getLast?.map (·.tid)) size =
      answer oid packedBefore size []) :
    request oid size (reading shown) store = finished shown := by
  have hnothing : answer oid packedBefore size [] = .ok [] := by
    simp [answer, Chain.pageFault?, Chain.fault?]
  simp only [request, hanswer, hnothing]

theorem request_of_fault {store : σ} {shown rest : List VersionSummary} {fault : ChainFault}
    (hanswer : History.page store oid (shown.getLast?.map (·.tid)) size =
      answer oid packedBefore size rest)
    (hfault : Chain.pageFault? size packedBefore (rest.map (·.toLink)) = some fault) :
    request oid size (reading shown) store =
      failed (.store (.corruption (.chain oid fault))) := by
  simp only [request, hanswer, answer, hfault]

theorem request_of_sound {store : σ} {shown rest : List VersionSummary}
    (hanswer : History.page store oid (shown.getLast?.map (·.tid)) size =
      answer oid packedBefore size rest)
    (hsound : Chain.pageFault? size packedBefore (rest.map (·.toLink)) = none)
    (hleft : rest.take size ≠ []) :
    request oid size (reading shown) store = reading (shown ++ rest.take size) := by
  simp only [request, hanswer, answer, hsound]

/-- The requests that are left to make list what is left, or fail as its check
does. -/
theorem foldl_request (hsize : 1 ≤ size) (stores : List σ)
    (hserves : ∀ store ∈ stores, Serves oid packedBefore size entries store) (store : σ)
    {shown rest : List VersionSummary} (hentries : shown ++ rest = entries)
    (hanswer : History.page store oid (shown.getLast?.map (·.tid)) size =
      answer oid packedBefore size rest) (henough : rest.length ≤ size * stores.length) :
    (store :: stores).foldl (request oid size) (reading shown) =
      match Chain.fault? true packedBefore (rest.map (·.toLink)) with
      | some fault => failed (.store (.corruption (.chain oid fault)))
      | none => finished entries := by
  -- What is shown and what is left make up the entries at every request, so
  -- each page takes its check and its entries from the front of what is left.
  induction stores generalizing store shown rest with
  | nil =>
      obtain rfl : rest = [] := List.eq_nil_of_length_eq_zero (Nat.le_zero.mp henough)
      rw [List.append_nil] at hentries
      rw [List.foldl_cons, request_of_nil hanswer, hentries]
      rfl
  | cons next later ih =>
      rw [List.foldl_cons, Chain.fault?_eq_page size (rest.map (·.toLink))]
      cases hfault : Chain.pageFault? size packedBefore (rest.map (·.toLink)) with
      | some fault =>
          rw [request_of_fault hanswer hfault, foldl_request_failed, Option.some_or]
      | none =>
          rw [Option.none_or, ← List.map_drop]
          by_cases hleft : rest.take size = []
          · obtain rfl : rest = [] := by
              rcases List.take_eq_nil_iff.mp hleft with hzero | hnil
              · omega
              · exact hnil
            rw [List.append_nil] at hentries
            rw [request_of_nil hanswer, foldl_request_finished, hentries]
            simp [Chain.fault?]
          · have hshown : shown ++ rest.take size ++ rest.drop size = entries := by
              rw [List.append_assoc, List.take_append_drop, hentries]
            have hsome : shown ++ rest.take size ≠ [] :=
              fun hnil => hleft (List.append_eq_nil_iff.mp hnil).2
            have hnext := hserves next List.mem_cons_self _ _ hshown hsome
            have hfewer : (rest.drop size).length ≤ size * later.length := by
              rw [List.length_cons, Nat.mul_succ] at henough
              rw [List.length_drop]
              omega
            rw [request_of_sound hanswer hfault hleft]
            exact ih (fun store hmem => hserves store (List.mem_cons_of_mem next hmem)) next
              hshown hnext hfewer

end

end Paging

/-- A reader that has the newest entries of a history is left the others. -/
theorem filter_before_last {shown rest : List VersionSummary}
    (hdescending : (shown ++ rest).Pairwise fun newer older => older.tid < newer.tid) :
    ((shown ++ rest).filter fun entry => (shown.getLast?.map (·.tid)).all (entry.tid < ·)) =
      rest := by
  rcases List.eq_nil_or_concat' shown with rfl | ⟨newer, last, rfl⟩
  · exact List.filter_eq_self.mpr fun _ _ => rfl
  · obtain ⟨hshown, _, hbelow⟩ := List.pairwise_append.mp hdescending
    rw [List.getLast?_concat, List.filter_append]
    have hold : rest.filter (fun entry => (some last.tid).all (entry.tid < ·)) = rest :=
      List.filter_eq_self.mpr fun entry hentry =>
        decide_eq_true (hbelow last (by simp) entry hentry)
    have hpast : (newer ++ [last]).filter (fun entry => (some last.tid).all (entry.tid < ·)) =
        [] := by
      refine List.filter_eq_nil_iff.mpr fun entry hentry hlt => ?_
      have hlower : entry.tid < last.tid := of_decide_eq_true hlt
      rcases List.mem_append.mp hentry with hnewer | hlast
      · exact lt_asymm hlower
          ((List.pairwise_append.mp hshown).2.2 entry hnewer last (List.mem_singleton_self last))
      · rw [List.mem_singleton.mp hlast] at hlower
        exact lt_irrefl _ hlower
    exact (congrArg₂ _ hpast hold).trans (List.nil_append rest)

namespace MemoryStore

variable {store later : MemoryStore} {oid : Oid}

/-- The entries of an object's history, newest first. -/
def entries (store : MemoryStore) (oid : Oid) : List VersionSummary :=
  (store.storedVersions oid).reverse.map store.summary

theorem length_entries (store : MemoryStore) (oid : Oid) :
    (store.entries oid).length = (store.storedVersions oid).length := by
  rw [entries, List.length_map, List.length_reverse]

theorem entries_descending (hkeyed : store.Keyed) :
    (store.entries oid).Pairwise fun newer older => older.tid < newer.tid := by
  have hascending : Ascending (store.storedVersions oid) := storedVersions_ascending hkeyed
  rw [entries, List.pairwise_map]
  exact List.pairwise_reverse.mpr hascending

theorem page_of_offline (hoffline : store.offline) (before : Option Tid) {size : Nat}
    (hsize : 1 ≤ size) :
    History.page store oid before size = .error (.store (.unavailable .offline)) := by
  have hpositive : size ≠ 0 := by omega
  have hversions : ObjectStore.versions store oid before (size + 1) =
      .error (.unavailable .offline) := if_pos hoffline
  simp only [History.page, History.listing, hpositive, hversions, ↓reduceIte, bind, Except.bind,
    Except.mapError]

theorem page_eq_answer (honline : store.offline = false) (hkeeps : store.keepsHistory)
    (before : Option Tid) {size : Nat} (hsize : 1 ≤ size) :
    History.page store oid before size =
      Paging.answer oid store.packedBefore size
        ((store.entries oid).filter fun entry => before.all (entry.tid < ·)) := by
  have hentries : (store.entries oid).filter (fun entry => before.all (entry.tid < ·)) =
      (store.listedBefore oid before).map store.summary := by
    rw [entries, List.filter_map]
    rfl
  rw [page_eq_check honline hkeeps oid before (by omega), hentries, Paging.answer,
    Chain.pageFault?, List.length_map, List.length_map, List.map_map, ← List.map_take,
    ← List.map_take]
  rfl

/-- The answer to a reader that has the newest entries. -/
theorem page_of_entries (honline : store.offline = false) (hkeeps : store.keepsHistory)
    (hkeyed : store.Keyed) {size : Nat} (hsize : 1 ≤ size) {shown rest : List VersionSummary}
    (hentries : store.entries oid = shown ++ rest) :
    History.page store oid (shown.getLast?.map (·.tid)) size =
      Paging.answer oid store.packedBefore size rest := by
  have hdescending : (shown ++ rest).Pairwise fun newer older => older.tid < newer.tid :=
    hentries ▸ entries_descending hkeyed
  rw [page_eq_answer honline hkeeps _ hsize, hentries, filter_before_last hdescending]

theorem serves_of_entries (honline : store.offline = false) (hkeeps : store.keepsHistory)
    (hkeyed : store.Keyed) {size : Nat} (hsize : 1 ≤ size) {newer listing : List VersionSummary}
    (hlisted : store.entries oid = newer ++ listing) :
    Paging.Serves oid store.packedBefore size listing store := by
  intro shown rest hlisting hshown
  rw [← hlisting, ← List.append_assoc] at hlisted
  have hanswer := page_of_entries honline hkeeps hkeyed hsize hlisted
  rwa [List.getLast?_append_of_ne_nil newer hshown] at hanswer

/-- One listing of everything. -/
theorem page_whole (honline : store.offline = false) (hkeeps : store.keepsHistory)
    (hkeyed : store.Keyed) {whole : Nat} (hwhole : (store.storedVersions oid).length < whole) :
    History.page store oid none whole =
      match Chain.fault? true store.packedBefore ((store.entries oid).map (·.toLink)) with
      | some fault => .error (.store (.corruption (.chain oid fault)))
      | none => .ok (store.entries oid) := by
  have hlength : (store.entries oid).length ≤ whole := by
    rw [length_entries]
    exact le_of_lt hwhole
  have hanswer := page_of_entries honline hkeeps hkeyed (Nat.one_le_of_lt hwhole)
    (List.nil_append (store.entries oid)).symm
  rw [List.getLast?_nil, Option.map_none] at hanswer
  rw [hanswer, Paging.answer, Chain.pageFault?_of_length_le (by rwa [List.length_map]),
    List.take_of_length_le hlength]

theorem Keyed.applyAll (hkeyed : store.Keyed) {tid : Tid} {now : Instant} {note : CommitNote}
    {writes : List Write} (hvalid : store.refusal? ∅ writes = none) :
    (store.applyAll tid now note writes).Keyed := by
  intro oid old version hrow
  rcases applyAll_cases hvalid oid with ⟨_, _, hhistory⟩ | ⟨write, _, rfl, _, _, hhistory⟩
  · exact hkeyed _ _ _ ((hhistory old).symm.trans hrow)
  · rw [hhistory] at hrow
    split at hrow
    · rename_i harchived
      simpa [currentTid?, hrow] using harchived.2
    · exact hkeyed _ _ _ hrow

/-- A commit adds at most one version of an object, and it comes last. -/
theorem storedVersions_applyAll_of_passed (hkeyed : store.Keyed) (hkeeps : store.keepsHistory)
    (hpassed : ∀ version ∈ store.storedVersions oid, store.HasPassed version.tid) (now : Instant)
    (note : CommitNote) {writes : List Write} (hvalid : store.refusal? ∅ writes = none) :
    ∃ added, (store.applyAll (Tid.nextAfter store.lastTid now) now note writes).storedVersions oid =
        store.storedVersions oid ++ added ∧
      ∀ version ∈ added, version.tid = Tid.nextAfter store.lastTid now := by
  have hlater : (store.applyAll (Tid.nextAfter store.lastTid now) now note writes).Keyed :=
    hkeyed.applyAll hvalid
  rcases @applyAll_cases store (Tid.nextAfter store.lastTid now) now note writes hvalid oid with
    ⟨_, hcurrent, hhistory⟩ | ⟨write, _, rfl, _, hcurrent, hhistory⟩
  · refine ⟨[], ?_, by simp⟩
    rw [List.append_nil]
    exact storedVersions_congr hkeyed hlater hcurrent hhistory
  · refine ⟨[write.version (Tid.nextAfter store.lastTid now)], ?_, by simp [Write.version]⟩
    simp only [hkeeps, true_and] at hhistory
    exact storedVersions_superseded hkeyed hlater
      (fun version hmem => lt_nextAfter_of_hasPassed (hpassed version hmem)) hcurrent hhistory

/-- What commits leave to a reader of an object's history: the entries of the
first store are still the oldest ones. -/
structure Prolongs (first store : MemoryStore) (oid : Oid) : Prop where
  online : store.offline = false
  keeps : store.keepsHistory
  keyed : store.Keyed
  packed : store.packedBefore = first.packedBefore
  passed : ∀ version ∈ store.storedVersions oid, store.HasPassed version.tid
  listed : ∃ newer, store.entries oid = newer ++ first.entries oid

variable {first : MemoryStore}

theorem Prolongs.applyAll (h : Prolongs first store oid) {now : Instant} {note : CommitNote}
    {writes : List Write} (hvalid : store.refusal? ∅ writes = none) :
    Prolongs first (store.applyAll (Tid.nextAfter store.lastTid now) now note writes) oid := by
  obtain ⟨hkeeps, honline, hpacked⟩ :=
    foldl_apply_frame (Tid.nextAfter store.lastTid now) store writes
  obtain ⟨added, hstored, hadded⟩ :=
    storedVersions_applyAll_of_passed h.keyed h.keeps h.passed now note hvalid
  obtain ⟨newer, hlisted⟩ := h.listed
  refine ⟨honline.trans h.online, hkeeps.trans h.keeps, h.keyed.applyAll hvalid,
    hpacked.trans h.packed, ?_, ?_⟩
  · intro version hmem
    refine ⟨_, rfl, ?_⟩
    rw [hstored] at hmem
    rcases List.mem_append.mp hmem with hold | hnew
    · exact le_of_lt (lt_nextAfter_of_hasPassed (h.passed version hold))
    · exact le_of_eq (hadded version hnew)
  · -- A summary reads the log row of its own tid, and the commit adds one of a later tid.
    have hsame : ∀ version ∈ (store.storedVersions oid).reverse,
        (store.applyAll (Tid.nextAfter store.lastTid now) now note writes).summary version =
          store.summary version :=
      fun version hmem => summary_applyAll (h.passed version (List.mem_reverse.mp hmem))
    refine ⟨added.reverse.map
      (store.applyAll (Tid.nextAfter store.lastTid now) now note writes).summary ++ newer, ?_⟩
    rw [entries, hstored, List.reverse_append, List.map_append, List.map_congr_left hsame,
      List.append_assoc, ← hlisted]
    rfl

/-- The store after some commits, each with its clock reading and its note. -/
def landed (store : MemoryStore) (commits : List (Instant × CommitNote × List Write)) :
    MemoryStore :=
  performAll store (commits.map fun (now, note, writes) => .commit now note writes)

/-- The stores that the later requests meet if commits land before each. -/
def meanwhile (store : MemoryStore) :
    List (List (Instant × CommitNote × List Write)) → List MemoryStore
  | [] => []
  | commits :: rest => store.landed commits :: (store.landed commits).meanwhile rest

theorem Prolongs.landed (h : Prolongs first store oid)
    (commits : List (Instant × CommitNote × List Write)) :
    Prolongs first (store.landed commits) oid := by
  induction commits generalizing store with
  | nil => exact h
  | cons commit rest ih =>
      obtain ⟨now, note, writes⟩ := commit
      suffices hperform : Prolongs first (perform store (.commit now note writes)) oid from
        ih hperform
      rw [perform]
      cases hcommit : ObjectStore.commit store now note writes with
      | error => exact h
      | ok result =>
          obtain ⟨tid, after⟩ := result
          obtain ⟨hvalid, rfl, rfl⟩ := commit_eq_ok hcommit
          exact h.applyAll hvalid

theorem Prolongs.meanwhile (h : Prolongs first store oid)
    (batches : List (List (Instant × CommitNote × List Write))) :
    ∀ later ∈ store.meanwhile batches, Prolongs first later oid := by
  induction batches generalizing store with
  | nil => intro later hmem; cases hmem
  | cons commits rest ih =>
      exact List.forall_mem_cons.mpr ⟨h.landed commits, ih (h.landed commits)⟩

theorem length_meanwhile (store : MemoryStore)
    (batches : List (List (Instant × CommitNote × List Write))) :
    (store.meanwhile batches).length = batches.length := by
  induction batches generalizing store with
  | nil => rfl
  | cons commits rest ih => exact congrArg Nat.succ (ih (store.landed commits))

/-- Commits do not change what a reader is answered. -/
theorem Prolongs.serves (h : Prolongs first store oid) {size : Nat} (hsize : 1 ≤ size) :
    Paging.Serves oid first.packedBefore size (first.entries oid) store := by
  obtain ⟨newer, hlisted⟩ := h.listed
  rw [← h.packed]
  exact serves_of_entries h.online h.keeps h.keyed hsize hlisted

theorem stores_of_mem_storedVersions (hkeyed : store.Keyed) {version : Version}
    (hmem : version ∈ store.storedVersions oid) : store.Stores oid version := by
  rcases (mem_storedVersions_of_keyed hkeyed).mp hmem with hcurrent | ⟨_, hhistory⟩
  · exact Or.inl hcurrent
  · exact Or.inr ⟨_, hhistory⟩

/-- Every stored version has an entry, or one of the same tid has. -/
theorem mem_entries_of_stores (hkeyed : store.Keyed) {version : Version}
    (hstores : store.Stores oid version) : version.tid ∈ (store.entries oid).map (·.tid) := by
  have hstored : ∃ listed ∈ store.storedVersions oid, listed.tid = version.tid := by
    rcases hstores with hcurrent | ⟨tid, hhistory⟩
    · exact ⟨version, (mem_storedVersions_of_keyed hkeyed).mpr (Or.inl hcurrent), rfl⟩
    · rw [← hkeyed _ _ _ hhistory] at hhistory
      by_cases htop : store.currentTid? oid = some version.tid
      · obtain ⟨current, hcurrent, htid⟩ := Option.map_eq_some_iff.mp htop
        exact ⟨current, (mem_storedVersions_of_keyed hkeyed).mpr (Or.inl hcurrent), htid⟩
      · exact ⟨version, (mem_storedVersions_of_keyed hkeyed).mpr (Or.inr ⟨htop, hhistory⟩), rfl⟩
  obtain ⟨listed, hlisted, htid⟩ := hstored
  rw [entries, List.map_map, ← htid]
  exact List.mem_map.mpr ⟨listed, List.mem_reverse.mpr hlisted, rfl⟩

/-- Reading a store that stays the same comes to one listing of it. -/
theorem through_replicate (hkeeps : store.keepsHistory) (hkeyed : store.Keyed)
    {size whole pages : Nat} (hsize : 1 ≤ size)
    (hwhole : (store.storedVersions oid).length < whole)
    (henough : (store.storedVersions oid).length ≤ size * pages) :
    Paging.through oid size (List.replicate (pages + 1) store) =
      Paging.ofListing (History.page store oid none whole) := by
  rw [Paging.through, List.replicate_succ]
  cases honline : store.offline with
  | true =>
      have hfails : History.page store oid none size = .error (.store (.unavailable .offline)) :=
        page_of_offline honline none hsize
      rw [page_of_offline honline none (Nat.one_le_of_lt hwhole), List.foldl_cons, Paging.request,
        List.getLast?_nil, Option.map_none, hfails]
      exact Paging.foldl_request_failed _ _
  | false =>
      have hall : store.entries oid = [] ++ store.entries oid := rfl
      have hfirst := page_of_entries honline hkeeps hkeyed hsize hall
      have hserves : ∀ later ∈ List.replicate pages store,
          Paging.Serves oid store.packedBefore size (store.entries oid) later := by
        intro later hmem
        rw [List.eq_of_mem_replicate hmem]
        exact serves_of_entries honline hkeeps hkeyed hsize hall
      rw [page_whole honline hkeeps hkeyed hwhole,
        Paging.foldl_request hsize _ hserves store rfl hfirst
          (by rwa [List.length_replicate, length_entries])]
      cases Chain.fault? _ _ _ <;> rfl

/-- Reading a sound history comes to what was listed at first, although commits
land between the requests. -/
theorem through_meanwhile (honline : store.offline = false) (hkeeps : store.keepsHistory)
    (hkeyed : store.Keyed) {size : Nat} (hsize : 1 ≤ size)
    (hsound : Chain.fault? true store.packedBefore ((store.entries oid).map (·.toLink)) = none)
    (hpassed : ∀ version, store.Stores oid version → store.HasPassed version.tid)
    {batches : List (List (Instant × CommitNote × List Write))}
    (henough : (store.entries oid).length ≤ size * batches.length) :
    Paging.through oid size (store :: store.meanwhile batches) =
      .finished (store.entries oid) := by
  have hall : store.entries oid = [] ++ store.entries oid := rfl
  have hbegins : Prolongs store store oid :=
    { online := honline
      keeps := hkeeps
      keyed := hkeyed
      packed := rfl
      passed := fun version hmem => hpassed version (stores_of_mem_storedVersions hkeyed hmem)
      listed := ⟨[], hall⟩ }
  rw [Paging.through, Paging.foldl_request hsize _
    (fun later hmem => (hbegins.meanwhile batches later hmem).serves hsize) store rfl
    (page_of_entries honline hkeeps hkeyed hsize hall) (by rwa [length_meanwhile]), hsound]

end MemoryStore

/-- Page after page, a reader comes to what one listing of the whole answers:
it fails if the listing fails, and otherwise has every stored version once.
If the listing is sound and no version is later than the last commit, it comes
to the listing of the first store although commits land between its
requests. -/
theorem paging_lists_history {store : MemoryStore} (hkeeps : store.keepsHistory)
    (hkeyed : store.Keyed) (oid : Oid) {size whole : Nat} (hsize : 1 ≤ size)
    (hwhole : (store.storedVersions oid).length < whole) :
    (∀ pages, (store.storedVersions oid).length ≤ size * pages →
      Paging.through oid size (List.replicate (pages + 1) store) =
        Paging.ofListing (History.page store oid none whole)) ∧
    ∀ listing, History.page store oid none whole = .ok listing →
      (listing.Pairwise fun newer older => older.tid < newer.tid) ∧
      (∀ entry ∈ listing, ∃ version, store.Stores oid version ∧ store.summary version = entry) ∧
      (∀ version, store.Stores oid version → version.tid ∈ listing.map (·.tid)) ∧
      ((∀ version, store.Stores oid version → store.HasPassed version.tid) →
        ∀ batches, listing.length ≤ size * batches.length →
          Paging.through oid size (store :: store.meanwhile batches) = .finished listing) := by
  refine ⟨fun pages => MemoryStore.through_replicate hkeeps hkeyed hsize hwhole, ?_⟩
  intro listing hlisting
  cases honline : store.offline with
  | true =>
      rw [MemoryStore.page_of_offline honline none (Nat.one_le_of_lt hwhole)] at hlisting
      cases hlisting
  | false =>
      rw [MemoryStore.page_whole honline hkeeps hkeyed hwhole] at hlisting
      split at hlisting
      · cases hlisting
      · rename_i hsound
        obtain rfl := Except.ok.inj hlisting
        refine ⟨MemoryStore.entries_descending hkeyed, ?_, ?_, ?_⟩
        · intro entry hentry
          obtain ⟨version, hmem, rfl⟩ := List.mem_map.mp hentry
          exact ⟨version, MemoryStore.stores_of_mem_storedVersions hkeyed (List.mem_reverse.mp hmem),
            rfl⟩
        · exact fun version => MemoryStore.mem_entries_of_stores hkeyed
        · exact fun hpassed batches =>
            MemoryStore.through_meanwhile honline hkeeps hkeyed hsize hsound hpassed

namespace PagingWitness

/-- A write of object 1. -/
def write (expected : Option Tid) : Write :=
  ⟨⟨1⟩, expected, [], ∅, none⟩

/-- An object with two versions. -/
def written : MemoryStore :=
  performAll (MemoryStore.empty true)
    [.commit (.ofMicros 10) {} [write none], .commit (.ofMicros 20) {} [write (some ⟨10⟩)]]

/-- A third version is committed after the first request. -/
def batches : List (List (Instant × CommitNote × List Write)) :=
  [[(.ofMicros 30, {}, [write (some ⟨20⟩)])], []]

/-- A reader that takes one entry at a time gets both versions, although a
third one is committed meanwhile. -/
theorem read_while_written :
    (written.keepsHistory ∧ written.Keyed ∧ 1 ≤ 1 ∧ (written.storedVersions ⟨1⟩).length < 3) ∧
      History.page written ⟨1⟩ none 3 = .ok (written.entries ⟨1⟩) ∧
      (∀ version, written.Stores ⟨1⟩ version → written.HasPassed version.tid) ∧
      Paging.through ⟨1⟩ 1 (List.replicate 3 written) =
        Paging.ofListing (History.page written ⟨1⟩ none 3) ∧
      Paging.through ⟨1⟩ 1 (written :: written.meanwhile batches) =
        .finished (written.entries ⟨1⟩) := by
  have hkeeps : written.keepsHistory := MemoryStore.keepsHistory_performAll _ _
  have hsound : written.Sound := MemoryStore.sound_performAll MemoryStore.sound_empty
  have hlength : (written.storedVersions ⟨1⟩).length < 3 := by decide
  have hlisting : History.page written ⟨1⟩ none 3 = .ok (written.entries ⟨1⟩) := rfl
  have hpassed : ∀ version, written.Stores ⟨1⟩ version → written.HasPassed version.tid :=
    fun version hstores => hsound.stored_passed ((MemoryStore.stores_iff hsound).mp hstores)
  obtain ⟨hsame, hlisted⟩ :=
    paging_lists_history hkeeps hsound.keyed ⟨1⟩ (Nat.le_refl 1) hlength
  obtain ⟨_, _, _, hlanding⟩ := hlisted _ hlisting
  exact ⟨⟨hkeeps, hsound.keyed, Nat.le_refl 1, hlength⟩, hlisting, hpassed, hsame 2 (by decide),
    hlanding hpassed batches (by decide)⟩

def version : Version :=
  ⟨⟨1⟩, ⟨5000⟩, none, [], ∅⟩

/-- A store that is at an earlier tid than its one version. -/
def behind : MemoryStore :=
  { MemoryStore.empty true with
    current := (∅ : OidMap Version).insert ⟨1⟩ version
    lastTid := some ⟨1000⟩ }

def late : List (Instant × CommitNote × List Write) :=
  [(.ofMicros 1001, {}, [write (some ⟨5000⟩)])]

/-- If a stored version is later than the last commit, the next one can land
below it, where a reader takes it for an older version. -/
theorem late_commit_misread :
    ¬ ∀ (store : MemoryStore) (oid : Oid) (size whole : Nat) (listing : List VersionSummary)
      (batches : List (List (Instant × CommitNote × List Write))),
      store.keepsHistory → store.Keyed → 1 ≤ size → (store.storedVersions oid).length < whole →
      History.page store oid none whole = .ok listing →
      listing.length ≤ size * batches.length →
      Paging.through oid size (store :: store.meanwhile batches) = .finished listing := by
  intro h
  have hkeyed : behind.Keyed := by
    intro oid tid version hrow
    simp [behind, MemoryStore.empty] at hrow
  have hfails : Paging.through ⟨1⟩ 1 (behind :: behind.meanwhile [late]) =
      .failed (.store (.corruption (.chain ⟨1⟩ (.missingPredecessor ⟨1001⟩ ⟨5000⟩)))) := rfl
  have hfinished := h behind ⟨1⟩ 1 2 [behind.summary version] [late] rfl hkeyed (Nat.le_refl 1)
    (by decide) rfl (Nat.le_refl 1)
  rw [hfails] at hfinished
  cases hfinished

end PagingWitness

end ObjectVault
