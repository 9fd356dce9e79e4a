/-
What was committed, as opposed to what is still stored.  A ledger keeps every
version of an object since the object was last deleted.  The store keeps a
suffix of it, and where a store with history has lost some of the ledger, the
oldest version it still has is below the boundary of pruned history.
-/
import ObjectVault.Proofs.StoredVersions
import Mathlib.Data.List.Chain

namespace ObjectVault

/-- All versions of each object committed since it was last deleted, oldest
first. -/
def Ledger := Oid → List Version

namespace Ledger

def blank : Ledger := fun _ => []

def record (ledger : Ledger) (tid : Tid) (writes : List Write) : Ledger := fun oid =>
  ledger oid ++ (writes.filter (·.oid = oid)).map (·.version tid)

def erase (ledger : Ledger) (oids : List Oid) : Ledger := fun oid =>
  if oid ∈ oids then [] else ledger oid

/-- Enter what a call does, going by the store's answer. -/
def enter [ObjectStore σ] (ledger : Ledger) (store : σ) : StoreAction → Ledger
  | .commit now note writes =>
      match ObjectStore.commit store now note writes with
      | .ok (tid, _) => ledger.record tid writes
      | .error _ => ledger
  | .deleteObjects oids guardTid =>
      match ObjectStore.deleteObjects store oids guardTid with
      | .ok (.deleted .., _) => ledger.erase oids
      | _ => ledger
  | .newOid | .pruneHistory _ | .dropHistory => ledger

/-- Enter a run. -/
def enterAll [ObjectStore σ] (ledger : Ledger) (store : σ) : List StoreAction → Ledger
  | [] => ledger
  | action :: rest => (ledger.enter store action).enterAll (perform store action) rest

/-- The ledger of a run from an empty store. -/
def ofRun (keepsHistory : Bool) (actions : List StoreAction) : Ledger :=
  blank.enterAll (MemoryStore.empty keepsHistory) actions

end Ledger

/-- The first version has no predecessor, and each other version names the one
before it. -/
structure Chained (versions : List Version) : Prop where
  ascending : Ascending versions
  linked : versions.IsChain fun older newer => newer.prev = some older.tid
  first : ∀ version ∈ versions.head?, version.prev = none

theorem chained_nil : Chained [] :=
  ⟨List.Pairwise.nil, .nil, by simp⟩

/-- No version of an ascending list is above the last one. -/
theorem Ascending.le_last {versions : List Version} {version last : Version}
    (hascending : Ascending versions) (hlast : versions.getLast? = some last)
    (hmem : version ∈ versions) : version.tid ≤ last.tid := by
  obtain ⟨older, rfl⟩ := List.getLast?_eq_some_iff.mp hlast
  rcases List.mem_append.mp hmem with holder | hsame
  · exact le_of_lt ((List.pairwise_append.mp hascending).2.2 version holder last (by simp))
  · rw [List.mem_singleton.mp hsame]

theorem Ascending.eq_of_tid_eq {versions : List Version} {version other : Version}
    (hascending : Ascending versions) (hmem : version ∈ versions) (hother : other ∈ versions)
    (htid : version.tid = other.tid) : version = other := by
  have hnodup : (versions.map Version.tid).Nodup := List.pairwise_map.mpr (hascending.imp ne_of_lt)
  exact List.inj_on_of_nodup_map hnodup hmem hother htid

theorem Chained.append {versions : List Version} {next : Version} (hchained : Chained versions)
    (habove : ∀ last ∈ versions.getLast?, last.tid < next.tid)
    (hprev : next.prev = versions.getLast?.map Version.tid) : Chained (versions ++ [next]) where
  ascending := by
    refine List.pairwise_append.mpr ⟨hchained.ascending, by simp, ?_⟩
    intro version hmem _ hnext
    rw [List.mem_singleton.mp hnext]
    have hlast := List.getLast?_eq_some_getLast (List.ne_nil_of_mem hmem)
    exact lt_of_le_of_lt (hchained.ascending.le_last hlast hmem) (habove _ hlast)
  linked := by
    refine hchained.linked.append (.singleton next) ?_
    intro last hlast _ hnext
    cases hnext
    rw [hprev, Option.mem_def.mp hlast]
    rfl
  first := by
    cases versions with
    | nil => simpa using hprev
    | cons head rest => exact hchained.first

/-- A version that names a predecessor comes right after it. -/
theorem Chained.preceding {older newer : List Version} {version : Version} {prev : Tid}
    (hchained : Chained (older ++ version :: newer)) (hprev : version.prev = some prev) :
    ∃ before last, older = before ++ [last] ∧ last.tid = prev := by
  rcases List.eq_nil_or_concat older with rfl | ⟨before, last, rfl⟩
  · rw [hchained.first version rfl] at hprev
    cases hprev
  · have hlinked : version.prev = some last.tid := by
      simpa using hchained.linked.rel_getLast_head_of_append
    rw [hlinked] at hprev
    exact ⟨before, last, List.concat_eq_append, Option.some.inj hprev⟩

/-- A predecessor is older. -/
theorem Chained.prev_lt {versions : List Version} {version : Version} {prev : Tid}
    (hchained : Chained versions) (hmem : version ∈ versions) (hprev : version.prev = some prev) :
    prev < version.tid := by
  obtain ⟨older, newer, rfl⟩ := List.append_of_mem hmem
  obtain ⟨before, last, rfl, rfl⟩ := hchained.preceding hprev
  exact (List.pairwise_append.mp hchained.ascending).2.2 last (by simp) version (by simp)

/-- What a store has of the versions of an object that were committed since it
was last deleted. -/
structure Kept (store : MemoryStore) (oid : Oid) (committed : List Version) : Prop where
  chained : Chained committed
  suffix : store.storedVersions oid <:+ committed
  newest : committed.getLast? = store.current[oid]?
  /-- What is lost is covered by the boundary of pruned history. -/
  lost : store.keepsHistory → store.storedVersions oid = committed ∨
    ∃ oldest rest boundary, store.storedVersions oid = oldest :: rest ∧
      store.packedBefore = some boundary ∧ oldest.tid < boundary

/-- The boundary of pruned history only moves up. -/
theorem Tid.latest_some (first : Option Tid) (second : Tid) :
    ∃ top, Tid.latest first (some second) = some top ∧ second ≤ top ∧
      ∀ tid, first = some tid → tid ≤ top := by
  cases first with
  | none => exact ⟨second, rfl, le_refl second, by simp⟩
  | some tid =>
      refine ⟨max tid second, rfl, le_max_right tid second, ?_⟩
      rintro _ ⟨⟩
      exact le_max_left tid second

section

variable {store later : MemoryStore} {oid : Oid} {committed : List Version}

theorem kept_nil (hnone : store.storedVersions oid = []) (hcurrent : store.current[oid]? = none) :
    Kept store oid [] where
  chained := chained_nil
  suffix := hnone ▸ List.suffix_refl []
  newest := hcurrent.symm
  lost _ := Or.inl hnone

/-- A call that leaves an object's rows alone keeps what the store has. -/
theorem Kept.unchanged (hkept : Kept store oid committed)
    (hstored : later.storedVersions oid = store.storedVersions oid)
    (hcurrent : later.current[oid]? = store.current[oid]?)
    (hkeeps : later.keepsHistory = store.keepsHistory)
    (hpacked : ∀ boundary, store.packedBefore = some boundary →
      ∃ top, later.packedBefore = some top ∧ boundary ≤ top) : Kept later oid committed where
  chained := hkept.chained
  suffix := hstored ▸ hkept.suffix
  newest := hkept.newest.trans hcurrent.symm
  lost hhistory := by
    rw [hstored]
    rcases hkept.lost (hkeeps ▸ hhistory) with hall | ⟨oldest, rest, boundary, hrows, hsome, hlt⟩
    · exact Or.inl hall
    · obtain ⟨top, htop, hle⟩ := hpacked boundary hsome
      exact Or.inr ⟨oldest, rest, top, hrows, htop, lt_of_lt_of_le hlt hle⟩

/-- A call that adds a version keeps what the store has, also where it keeps
no history and drops the earlier rows. -/
theorem Kept.extended (hkept : Kept store oid committed) {next : Version}
    (hchained : Chained (committed ++ [next]))
    (hstored : later.storedVersions oid =
      (if store.keepsHistory then store.storedVersions oid else []) ++ [next])
    (hcurrent : later.current[oid]? = some next) (hkeeps : later.keepsHistory = store.keepsHistory)
    (hpacked : later.packedBefore = store.packedBefore) : Kept later oid (committed ++ [next]) where
  chained := hchained
  suffix := by
    rw [hstored]
    split
    · obtain ⟨dropped, hdropped⟩ := hkept.suffix
      exact ⟨dropped, by rw [← hdropped, List.append_assoc]⟩
    · exact List.suffix_append _ _
  newest := by rw [List.getLast?_concat, hcurrent]
  lost hhistory := by
    rw [hkeeps] at hhistory
    rw [hstored, if_pos hhistory, hpacked]
    rcases hkept.lost hhistory with hall | ⟨oldest, rest, boundary, hrows, hsome, hlt⟩
    · exact Or.inl (by rw [hall])
    · refine Or.inr ⟨oldest, rest ++ [next], boundary, ?_, hsome, hlt⟩
      rw [hrows, List.cons_append]

/-- The one write of an object in a valid batch. -/
theorem filter_oid_eq_singleton {writes : List Write} (hnodup : (writes.map Write.oid).Nodup)
    {write : Write} (hwrite : write ∈ writes) :
    writes.filter (·.oid = write.oid) = [write] := by
  induction writes with
  | nil => cases hwrite
  | cons head rest ih =>
      obtain ⟨hfresh, hrest⟩ := List.nodup_cons.mp hnodup
      rcases List.mem_cons.mp hwrite with rfl | hmem
      · have hnone : rest.filter (·.oid = write.oid) = [] := by
          refine List.filter_eq_nil_iff.mpr fun other hother heq => hfresh ?_
          exact List.mem_map.mpr ⟨other, hother, of_decide_eq_true heq⟩
        simp [hnone]
      · have hne : head.oid ≠ write.oid := by
          intro heq
          exact hfresh (List.mem_map.mpr ⟨write, hmem, heq.symm⟩)
        simp [hne, ih hrest hmem]

theorem Kept.commit (hsound : store.Sound) (hkept : Kept store oid committed) {now : Instant}
    {note : CommitNote} {writes : List Write} (hvalid : store.refusal? ∅ writes = none) :
    Kept (store.applyAll (Tid.nextAfter store.lastTid now) now note writes) oid
      (committed ++
        (writes.filter (·.oid = oid)).map (·.version (Tid.nextAfter store.lastTid now))) := by
  obtain ⟨hkeeps, _, hpacked⟩ :=
    MemoryStore.foldl_apply_frame (Tid.nextAfter store.lastTid now) store writes
  have hlater : MemoryStore.Sound
      (store.applyAll (Tid.nextAfter store.lastTid now) now note writes) := hsound.applyAll hvalid
  rcases MemoryStore.storedVersions_applyAll hsound now note hvalid oid with
    ⟨hout, hstored⟩ | ⟨write, hwrite, rfl, hexpected, hstored⟩
  · have hnone : writes.filter (·.oid = oid) = [] := by
      refine List.filter_eq_nil_iff.mpr fun write hwrite heq => hout ?_
      exact List.mem_map.mpr ⟨write, hwrite, of_decide_eq_true heq⟩
    rw [hnone, List.map_nil, List.append_nil]
    refine hkept.unchanged hstored ?_ hkeeps fun boundary hsome => ?_
    · exact (MemoryStore.foldl_apply_of_notMem _ store hout).1
    · exact ⟨boundary, hpacked.trans hsome, le_refl boundary⟩
  · rw [filter_oid_eq_singleton (MemoryStore.refusal?_eq_none_iff.mp hvalid).1 hwrite]
    have habove : ∀ last ∈ committed.getLast?,
        last.tid < Tid.nextAfter store.lastTid now := by
      intro last hlast
      rw [hkept.newest] at hlast
      exact MemoryStore.lt_nextAfter_of_hasPassed (hsound.current_passed hlast)
    have hprev : write.expected = committed.getLast?.map Version.tid := by
      rw [hkept.newest]
      exact hexpected.symm
    have hcurrent : (store.applyAll (Tid.nextAfter store.lastTid now) now note
        writes).current[write.oid]? = some (write.version (Tid.nextAfter store.lastTid now)) := by
      rw [← MemoryStore.getLast?_storedVersions hlater, hstored, List.getLast?_concat]
    exact hkept.extended (hkept.chained.append habove hprev) hstored hcurrent hkeeps hpacked

theorem Kept.delete (hsound : store.Sound) (hkept : Kept store oid committed) (oids : List Oid) :
    Kept (store.deleteAll (.ofOids oids)).2 oid (if oid ∈ oids then [] else committed) := by
  have hstored := MemoryStore.storedVersions_deleteAll hsound oids oid
  by_cases hmem : oid ∈ oids
  · rw [if_pos hmem] at hstored ⊢
    refine kept_nil hstored ?_
    rw [MemoryStore.current_deleteAll, if_pos (OidSet.mem_ofOids.mpr hmem)]
  · rw [if_neg hmem] at hstored ⊢
    refine hkept.unchanged hstored ?_ rfl fun boundary hsome => ⟨boundary, hsome, le_refl boundary⟩
    rw [MemoryStore.current_deleteAll, if_neg (mt OidSet.mem_ofOids.mp hmem)]

theorem Kept.prune (hsound : store.Sound) (hkept : Kept store oid committed) (boundary : Tid) :
    Kept (store.prune boundary).2 oid committed := by
  obtain ⟨hkeeps, _, _, hcurrent⟩ := MemoryStore.prune_frame store boundary
  have hpacked := MemoryStore.packedBefore_prune store boundary
  obtain ⟨top, htop, hle, hup⟩ := Tid.latest_some store.packedBefore boundary
  rcases MemoryStore.storedVersions_prune hsound boundary oid with
    hsame | ⟨hhistory, older, last, newer, hrows, hlast, hstored⟩
  · refine hkept.unchanged hsame (by rw [hcurrent]) hkeeps fun past hsome => ?_
    split at hpacked
    · exact ⟨top, hpacked.trans htop, hup past hsome⟩
    · exact ⟨past, hpacked.trans hsome, le_refl past⟩
  · rw [if_pos hhistory, htop] at hpacked
    refine ⟨hkept.chained, ?_, by rw [hcurrent, hkept.newest], fun _ => Or.inr ?_⟩
    · rw [hstored]
      exact (List.suffix_append older _).trans (hrows ▸ hkept.suffix)
    · exact ⟨last, newer, top, hstored, hpacked, lt_of_lt_of_le hlast hle⟩

theorem Kept.drop (hsound : store.Sound) (hkept : Kept store oid committed) :
    Kept store.dropAll.2 oid committed := by
  have hstored := MemoryStore.storedVersions_dropAll hsound oid
  have hnewest := hkept.newest
  cases hcurrent : store.current[oid]? with
  | none =>
      rw [hcurrent] at hstored hnewest
      rw [List.getLast?_eq_none_iff.mp hnewest]
      exact kept_nil hstored hcurrent
  | some current =>
      rw [hcurrent] at hstored hnewest
      refine ⟨hkept.chained, ?_, hnewest.trans hcurrent.symm, fun hhistory => Or.inr ?_⟩
      · obtain ⟨older, holder⟩ := List.getLast?_eq_some_iff.mp hnewest
        rw [hstored, holder]
        exact List.suffix_append older [current]
      · obtain ⟨last, hlast, hle⟩ := hsound.current_passed hcurrent
        obtain ⟨top, htop, hup, _⟩ := Tid.latest_some store.packedBefore last.succ
        refine ⟨current, [], top, hstored, ?_, ?_⟩
        · have hhistory' : store.keepsHistory := hhistory
          rw [MemoryStore.packedBefore_dropAll, if_pos hhistory', hlast]
          exact htop
        · exact lt_of_le_of_lt hle (lt_of_lt_of_le (Tid.lt_succ last) hup)

/-- A call and its entry into the ledger go together. -/
theorem Kept.enter {ledger : Ledger} (hsound : store.Sound) (hkept : Kept store oid (ledger oid))
    (action : StoreAction) : Kept (perform store action) oid (ledger.enter store action oid) := by
  cases action with
  | newOid =>
      simp only [perform, ObjectStore.newOid, hsound.online_eq, perform.left]
      exact hkept.unchanged rfl rfl rfl fun boundary hsome => ⟨boundary, hsome, le_refl boundary⟩
  | commit now note writes =>
      cases hanswer : ObjectStore.commit store now note writes with
      | error => simpa only [perform, Ledger.enter, hanswer, perform.left] using hkept
      | ok result =>
          obtain ⟨tid, after⟩ := result
          obtain ⟨hvalid, rfl, rfl⟩ := MemoryStore.commit_eq_ok hanswer
          simp only [perform, Ledger.enter, hanswer, perform.left]
          exact hkept.commit hsound hvalid
  | deleteObjects oids guardTid =>
      cases hanswer : ObjectStore.deleteObjects store oids guardTid with
      | error => simpa only [perform, Ledger.enter, hanswer, perform.left] using hkept
      | ok result =>
          obtain ⟨outcome, after⟩ := result
          simp only [perform, Ledger.enter, hanswer, perform.left]
          cases outcome with
          | deleted objects history blobs =>
              obtain ⟨_, rfl⟩ := MemoryStore.deleteObjects_eq_deleted hanswer
              exact hkept.delete hsound oids
          | stale last =>
              obtain ⟨_, _, rfl⟩ := MemoryStore.deleteObjects_eq_stale hanswer
              exact hkept
  | pruneHistory boundary =>
      simp only [perform, ObjectStore.pruneHistory, hsound.online_eq, perform.left]
      exact hkept.prune hsound boundary
  | dropHistory =>
      simp only [perform, ObjectStore.dropHistory, hsound.online_eq, perform.left]
      exact hkept.drop hsound

theorem kept_enterAll {ledger : Ledger} (hsound : store.Sound)
    (hkept : ∀ oid, Kept store oid (ledger oid)) (actions : List StoreAction) (oid : Oid) :
    Kept (performAll store actions) oid (ledger.enterAll store actions oid) := by
  induction actions generalizing store ledger with
  | nil => exact hkept oid
  | cons action rest ih =>
      have hnext : MemoryStore.Sound (perform store action) :=
        hsound.change MemoryStore.change_perform
      exact ih hnext fun oid => (hkept oid).enter hsound action

theorem kept_blank {keepsHistory : Bool} : Kept (.empty keepsHistory) oid (Ledger.blank oid) := by
  apply kept_nil <;> simp [MemoryStore.empty, MemoryStore.storedVersions, MemoryStore.archived]

end

/-- What holds after every run from an empty store. -/
theorem kept_run (keepsHistory : Bool) (actions : List StoreAction) (oid : Oid) :
    Kept (performAll (MemoryStore.empty keepsHistory) actions) oid
      (Ledger.ofRun keepsHistory actions oid) :=
  kept_enterAll MemoryStore.sound_empty (fun _ => kept_blank) actions oid

end ObjectVault
