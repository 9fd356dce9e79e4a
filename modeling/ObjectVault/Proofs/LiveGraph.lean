/-
What a pack beside commits leaves behind.  A sweep that has deleted some of
its batches leaves waiting candidates whose references may be broken.  It
fences them in: nothing else refers to them through a version up to the guard.
A commit that refers to one of them is spotted, but what the candidate leads to
may be gone by then.  References stay whole if no commit does that.
-/
import ObjectVault.Proofs.PackSafety

namespace ObjectVault

namespace MemoryStore

/-- The object exists. -/
def Holds (store : MemoryStore) (oid : Oid) : Prop :=
  ∃ version, store.current[oid]? = some version

/-- Every reference names an existing object. -/
def Closed (store : MemoryStore) : Prop :=
  ∀ source target, store.RefersTo source target → store.Holds target

/-- Every reference of an object that the root reaches names an existing
object. -/
def LiveClosed (store : MemoryStore) : Prop :=
  ∀ source target, store.Reaches .root source → store.RefersTo source target → store.Holds target

/-- The references of a batch name objects that exist after it. -/
def HoldsRefs (after : MemoryStore) (writes : List Write) : Prop :=
  ∀ write ∈ writes, ∀ target ∈ write.refs, after.Holds target

/-- Whatever a batch leads to, over any number of references, exists after it. -/
def HoldsPaths (after : MemoryStore) (writes : List Write) : Prop :=
  ∀ write ∈ writes, ∀ target, after.Reaches write.oid target → after.Holds target

theorem holds_iff {store : MemoryStore} {oid : Oid} :
    store.Holds oid ↔ (store.current[oid]?).isSome := by
  rw [Option.isSome_iff_exists]
  rfl

instance (store : MemoryStore) (oid : Oid) : Decidable (store.Holds oid) :=
  decidable_of_iff _ holds_iff.symm

theorem closed_iff {store : MemoryStore} :
    store.Closed ↔ ∀ row ∈ store.current.toList, ∀ target ∈ row.2.refs.toList,
      store.Holds target := by
  simp only [Prod.forall, Std.ExtTreeMap.mem_toList_iff_getElem?_eq_some,
    Std.ExtTreeSet.mem_toList]
  constructor
  · intro hclosed source version hcurrent target hmem
    exact hclosed source target ⟨version, hcurrent, hmem⟩
  · rintro hrows source target ⟨version, hcurrent, hmem⟩
    exact hrows source version hcurrent target hmem

instance (store : MemoryStore) : Decidable store.Closed := decidable_of_iff _ closed_iff.symm

instance (after : MemoryStore) (writes : List Write) : Decidable (after.HoldsRefs writes) :=
  decidable_of_iff (∀ write ∈ writes, ∀ target ∈ write.refs.toList, after.Holds target)
    (by simp only [HoldsRefs, Std.ExtTreeSet.mem_toList])

theorem holdsPaths_iff {after : MemoryStore} {writes : List Write} :
    after.HoldsPaths writes ↔
      ∀ oid ∈ (after.reachable (writes.map Write.oid)).toList, after.Holds oid := by
  simp only [Std.ExtTreeSet.mem_toList, mem_reachable_iff, List.mem_map]
  constructor
  · rintro hpaths oid ⟨_, ⟨write, hwrite, rfl⟩, hreaches⟩
    exact hpaths write hwrite oid hreaches
  · intro hheld write hwrite target hreaches
    exact hheld target ⟨write.oid, ⟨write, hwrite, rfl⟩, hreaches⟩

instance (after : MemoryStore) (writes : List Write) : Decidable (after.HoldsPaths writes) :=
  decidable_of_iff _ holdsPaths_iff.symm

section

variable {store later : MemoryStore} {source target oid : Oid}

theorem Closed.of_current (hclosed : store.Closed) (hcurrent : later.current = store.current) :
    later.Closed := by
  rintro source target ⟨version, hversion, hmem⟩
  rw [hcurrent] at hversion
  obtain ⟨found, hfound⟩ := hclosed source target ⟨version, hversion, hmem⟩
  exact ⟨found, hcurrent ▸ hfound⟩

theorem Closed.holds_of_reaches (hclosed : store.Closed) (hsource : store.Holds source)
    (hreaches : store.Reaches source target) : store.Holds target := by
  induction hreaches with
  | refl => exact hsource
  | tail _ hrefers _ => exact hclosed _ _ hrefers

variable {tid : Tid} {now : Instant} {note : CommitNote} {writes : List Write}

theorem holds_applyAll (hvalid : store.refusal? ∅ writes = none) (hholds : store.Holds oid) :
    (store.applyAll tid now note writes).Holds oid := by
  obtain ⟨version, hversion⟩ := hholds
  rcases applyAll_cases hvalid oid with ⟨_, hcurrent, _⟩ | ⟨write, _, _, _, hcurrent, _⟩
  · exact ⟨version, hcurrent.trans hversion⟩
  · exact ⟨write.version tid, hcurrent⟩

theorem refersTo_applyAll (hvalid : store.refusal? ∅ writes = none)
    (hrefers : (store.applyAll tid now note writes).RefersTo source target) :
    store.RefersTo source target ∨ ∃ write ∈ writes, write.oid = source ∧ target ∈ write.refs := by
  obtain ⟨version, hversion, hmem⟩ := hrefers
  rcases applyAll_cases hvalid source with ⟨_, hcurrent, _⟩ | ⟨write, hwrite, heq, _, hcurrent, _⟩
  · exact Or.inl ⟨version, hcurrent.symm.trans hversion, hmem⟩
  · cases hcurrent.symm.trans hversion
    exact Or.inr ⟨write, hwrite, heq, hmem⟩

/-- A path after a batch is a path from before, or its end is reached from an
object of the batch. -/
theorem reaches_applyAll (hvalid : store.refusal? ∅ writes = none)
    (hreaches : (store.applyAll tid now note writes).Reaches source target) :
    store.Reaches source target ∨
      ∃ write ∈ writes, (store.applyAll tid now note writes).Reaches write.oid target := by
  induction hreaches with
  | refl => exact Or.inl .refl
  | tail _ hrefers ih =>
      rcases ih with hbefore | ⟨write, hwrite, hon⟩
      · rcases refersTo_applyAll hvalid hrefers with hold | ⟨write, hwrite, rfl, _⟩
        · exact Or.inl (hbefore.tail hold)
        · exact Or.inr ⟨write, hwrite, .single hrefers⟩
      · exact Or.inr ⟨write, hwrite, hon.tail hrefers⟩

theorem Closed.applyAll (hclosed : store.Closed) (hvalid : store.refusal? ∅ writes = none)
    (hrefs : (store.applyAll tid now note writes).HoldsRefs writes) :
    (store.applyAll tid now note writes).Closed := by
  intro source target hrefers
  rcases refersTo_applyAll hvalid hrefers with hold | ⟨write, hwrite, _, hmem⟩
  · exact holds_applyAll hvalid (hclosed source target hold)
  · exact hrefs write hwrite target hmem

end

end MemoryStore

open MemoryStore (Change Evolves mem_reachable_iff mem_currentWhere_iff)

section

variable {store later : MemoryStore} {settings : PackSettings} {boundary snapshot : Tid}
  {source target oid : Oid}

/-- What a traced mark knows of the references up to its snapshot. -/
def Marking.Fenced (store : MemoryStore) : Marking → Prop
  | .opened | .dated _ => True
  | .traced snapshot reachable => Oid.root ∈ reachable ∧ ∀ source target,
      source ∈ reachable → store.RefersUpto snapshot source target → target ∈ reachable

/-- No reference up to the snapshot leads from elsewhere to a candidate. -/
def Marked.Fenced (store : MemoryStore) (marked : Marked) : Prop :=
  ∀ source target, store.RefersUpto marked.snapshot source target →
    source ∉ marked.candidates → target ∉ marked.candidates

structure Sweep.Fenced (store : MemoryStore) (sweep : Sweep) : Prop where
  /-- Only waiting candidates may refer to what is gone. -/
  whole {source target : Oid} : store.RefersTo source target → ¬ sweep.Waits source →
    store.Holds target
  /-- No reference up to the guard leads from elsewhere to one of them. -/
  apart {source target : Oid} : store.RefersUpto sweep.guardTid source target →
    ¬ sweep.Waits source → ¬ sweep.Waits target
  /-- What was committed above the guard leads to existing objects only. -/
  fresh {source target : Oid} {version : Version} : store.current[source]? = some version →
    sweep.guardTid < version.tid → store.Reaches source target → store.Holds target
  stale {last : Tid} : sweep.phase = .changes last → sweep.guardTid ≤ last
  rescue {latest : Tid} {changed : List Oid} : sweep.phase = .rescue latest changed →
    sweep.guardTid ≤ latest ∧
      ∀ oid ∈ changed, ∃ version, store.current[oid]? = some version ∧ sweep.guardTid < version.tid
  untouched : sweep.report.batches = 0 → store.Closed
  emptied : sweep.phase = .next → sweep.batch = []
  finished : sweep.phase = .prune → ∀ oid, ¬ sweep.Waits oid

theorem Marking.Fenced.evolves {progress : Marking} (hfenced : progress.Fenced store)
    (hguarded : progress.Guarded store) (hevolves : Evolves store later) :
    progress.Fenced later := by
  cases progress with
  | opened | dated => trivial
  | traced snapshot reachable =>
      refine ⟨hfenced.1, fun source target hsource hrefers => ?_⟩
      exact hfenced.2 source target hsource (hevolves.refersUpto hguarded.1 hrefers)

theorem Marked.Fenced.evolves {marked : Marked} (hfenced : marked.Fenced store)
    (hguarded : marked.Guarded store settings boundary) (hevolves : Evolves store later) :
    marked.Fenced later :=
  fun source target hrefers => hfenced source target (hevolves.refersUpto hguarded.1 hrefers)

theorem Marking.Fenced.ask {progress next : Marking}
    (h : progress.ask settings boundary store = .ok (.inl next)) : next.Fenced store := by
  rcases ask_going h with ⟨snapshot, _, rfl⟩ | ⟨snapshot, _, rfl⟩
  · trivial
  · constructor
    · exact mem_reachable_iff.mpr ⟨.root, List.mem_singleton.mpr rfl, .refl⟩
    · intro source target hsource ⟨version, hcurrent, _, hmem⟩
      obtain ⟨root, hroot, hreaches⟩ := mem_reachable_iff.mp hsource
      exact mem_reachable_iff.mpr ⟨root, hroot, hreaches.tail ⟨version, hcurrent, hmem⟩⟩

/-- Without a retention policy every listed object that was not reached is a
candidate. -/
theorem Marking.Fenced.complete {progress : Marking} {marked : Marked}
    (hfenced : progress.Fenced store) (hretention : settings.retention = .keepNone)
    (h : progress.ask settings boundary store = .ok (.inr (some marked))) :
    marked.Fenced store := by
  obtain ⟨snapshot, reachable, rfl, rfl⟩ := ask_complete h
  intro source target hrefers hsource htarget
  obtain ⟨version, hcurrent, hle, hmem⟩ := hrefers
  have hfree : Marked.isDeferred store.keepsHistory settings.retention boundary version.tid =
      false := by
    simp [Marked.isDeferred, hretention]
  have hlisted : (source, version.tid) ∈ store.currentWhere (· ≤ snapshot) :=
    mem_currentWhere_iff.mpr ⟨version, hcurrent, rfl, decide_eq_true hle⟩
  have hreached : source ∈ reachable := by
    by_cases hroot : source = .root
    · exact hroot ▸ hfenced.1
    · by_contra hout
      exact hsource (Marked.mem_candidates_select.mpr ⟨version.tid, hlisted, hroot, hout, hfree⟩)
  obtain ⟨_, _, _, hout, _⟩ := Marked.mem_candidates_select.mp htarget
  exact hout (hfenced.2 source target hreached ⟨version, hcurrent, hle, hmem⟩)

theorem Marked.Fenced.ofMarked {marked : Marked} (hfenced : marked.Fenced store)
    (hclosed : store.Closed) (pruned : Tid) : (Sweep.ofMarked marked pruned).Fenced store := by
  have hwaits : ∀ oid, (Sweep.ofMarked marked pruned).Waits oid ↔ oid ∈ marked.candidates := by
    intro oid
    simp [Sweep.Waits, Sweep.ofMarked, Std.ExtTreeSet.mem_toList]
  constructor
  · exact fun hrefers _ => hclosed _ _ hrefers
  · intro source target hrefers
    rw [hwaits, hwaits]
    exact hfenced source target hrefers
  · exact fun hcurrent _ => hclosed.holds_of_reaches ⟨_, hcurrent⟩
  · simp [Sweep.ofMarked]
  · simp [Sweep.ofMarked]
  · exact fun _ => hclosed
  · exact fun _ => rfl
  · simp [Sweep.ofMarked]

variable {sweep next : Sweep}

/-- The fence stays when a sweep only goes on to another phase. -/
theorem Sweep.Fenced.rephase (hfenced : sweep.Fenced store)
    (hguard : next.guardTid = sweep.guardTid) (hbatches : next.report.batches = sweep.report.batches)
    (hwaits : ∀ oid, next.Waits oid ↔ sweep.Waits oid)
    (hstale : ∀ last, next.phase = .changes last → sweep.guardTid ≤ last)
    (hrescue : ∀ latest changed, next.phase = .rescue latest changed → sweep.guardTid ≤ latest ∧
      ∀ oid ∈ changed, ∃ version, store.current[oid]? = some version ∧
        sweep.guardTid < version.tid)
    (hemptied : next.phase ≠ .next) (hfinished : next.phase = .prune → ∀ oid, ¬ sweep.Waits oid) :
    next.Fenced store where
  whole hrefers hout := hfenced.whole hrefers (mt (hwaits _).mpr hout)
  apart {source target} hrefers hout := by
    rw [hwaits] at hout ⊢
    rw [hguard] at hrefers
    exact hfenced.apart hrefers hout
  fresh hcurrent hlower hreaches := hfenced.fresh hcurrent (hguard ▸ hlower) hreaches
  stale hphase := hguard ▸ hstale _ hphase
  rescue hphase := hguard ▸ hrescue _ _ hphase
  untouched hnone := hfenced.untouched (hbatches ▸ hnone)
  emptied hphase := absurd hphase hemptied
  finished hphase oid := mt (hwaits oid).mp (hfinished hphase oid)

/-- Deleting a batch breaks no reference of an object outside: what is left
was committed up to the guard. -/
theorem Sweep.Fenced.deleted {objects history blobs : Nat} (hfenced : sweep.Fenced store)
    (hbound : ∀ {oid : Oid} {version : Version}, store.current[oid]? = some version →
      version.tid ≤ sweep.guardTid) :
    (sweep.batchDeleted objects history blobs).Fenced
      (store.deleteAll (.ofOids sweep.batch)).2 := by
  have hkept : ∀ {oid : Oid} {version : Version},
      (store.deleteAll (.ofOids sweep.batch)).2.current[oid]? = some version →
        oid ∉ sweep.batch ∧ store.current[oid]? = some version := by
    intro oid version h
    rw [MemoryStore.current_deleteAll, Option.ite_none_left_eq_some, OidSet.mem_ofOids] at h
    exact h
  have houtside : ∀ {oid : Oid}, oid ∉ sweep.batch →
      ¬ (sweep.batchDeleted objects history blobs).Waits oid → ¬ sweep.Waits oid := by
    rintro oid hbatch hout (hmem | hlater)
    · exact hbatch hmem
    · exact hout (Or.inr hlater)
  constructor
  · rintro source target ⟨version, hcurrent, hmem⟩ hout
    obtain ⟨hbatch, hold⟩ := hkept hcurrent
    have hsource := houtside hbatch hout
    have htarget := hfenced.apart ⟨version, hold, hbound hold, hmem⟩ hsource
    obtain ⟨found, hfound⟩ := hfenced.whole ⟨version, hold, hmem⟩ hsource
    refine ⟨found, ?_⟩
    rw [MemoryStore.current_deleteAll, if_neg, hfound]
    rw [OidSet.mem_ofOids]
    exact fun hgone => htarget (Or.inl hgone)
  · rintro source target ⟨version, hcurrent, hle, hmem⟩ hout
    obtain ⟨hbatch, hold⟩ := hkept hcurrent
    have htarget := hfenced.apart ⟨version, hold, hle, hmem⟩ (houtside hbatch hout)
    rintro (hnone | hlater)
    · cases hnone
    · exact htarget (Or.inr hlater)
  · intro source target version hcurrent hlower
    exact absurd (hbound (hkept hcurrent).2) (not_le_of_gt hlower)
  · simp [Sweep.batchDeleted]
  · simp [Sweep.batchDeleted]
  · simp [Sweep.batchDeleted]
  · exact fun _ => rfl
  · simp [Sweep.batchDeleted]

/-- What is rescued is whole, for a commit above the guard leads to it.  What
still waits is led to by nothing that was rescued or changed. -/
theorem Sweep.Fenced.rescued {latest : Tid} {changed : List Oid} (hfenced : sweep.Fenced store)
    (hcovers : Covers store sweep.guardTid latest changed)
    (hphase : sweep.phase = .rescue latest changed) :
    (sweep.rescued latest (store.reachable changed)).Fenced store := by
  obtain ⟨hraised, hchanged⟩ := hfenced.rescue hphase
  constructor
  · intro source target hrefers hout
    by_cases hwaits : sweep.Waits source
    · have hreached : source ∈ store.reachable changed := by
        by_contra hunreached
        exact hout (Sweep.waits_rescued.mpr ⟨hwaits, hunreached⟩)
      obtain ⟨top, htop, hreaches⟩ := mem_reachable_iff.mp hreached
      obtain ⟨version, hcurrent, hlower⟩ := hchanged top htop
      exact hfenced.fresh hcurrent hlower (hreaches.tail hrefers)
    · exact hfenced.whole hrefers hwaits
  · rintro source target ⟨version, hcurrent, hle, hmem⟩ hout htarget
    obtain ⟨hbefore, hunreached⟩ := Sweep.waits_rescued.mp htarget
    have hsource : source ∉ store.reachable changed := by
      intro hreached
      obtain ⟨top, htop, hreaches⟩ := mem_reachable_iff.mp hreached
      have hon := hreaches.tail ⟨version, hcurrent, hmem⟩
      exact hunreached (mem_reachable_iff.mpr ⟨top, htop, hon⟩)
    have hwaits : ¬ sweep.Waits source :=
      fun hwaits => hout (Sweep.waits_rescued.mpr ⟨hwaits, hsource⟩)
    rcases le_or_gt version.tid sweep.guardTid with hlow | hhigh
    · exact hfenced.apart ⟨version, hcurrent, hlow, hmem⟩ hwaits hbefore
    · have hlisted := hcovers source version hcurrent hhigh hle
      exact hsource (mem_reachable_iff.mpr ⟨source, hlisted, .refl⟩)
  · intro source target version hcurrent hlower hreaches
    exact hfenced.fresh hcurrent (lt_of_le_of_lt hraised hlower) hreaches
  · simp only [Sweep.rescued]
    split <;> simp
  · simp only [Sweep.rescued]
    split <;> simp
  · exact hfenced.untouched
  · simp only [Sweep.rescued]
    split
    · exact fun _ => List.isEmpty_iff.mp (by assumption)
    · simp
  · simp only [Sweep.rescued]
    split <;> simp

theorem Sweep.Fenced.goes (hfenced : sweep.Fenced store) (hsound : store.Sound)
    (hguarded : sweep.Guarded store settings boundary snapshot)
    (hgoes : sweep.Goes settings store next later) : next.Fenced later := by
  cases hgoes with
  | exhausted hphase hlater =>
      refine hfenced.rephase rfl rfl (fun _ => Iff.rfl) (by simp) (by simp) (by simp) ?_
      rintro _ oid (hbatch | hleft)
      · rw [hfenced.emptied hphase] at hbatch
        cases hbatch
      · rw [hlater] at hleft
        cases hleft
  | taken size hphase =>
      refine hfenced.rephase rfl rfl (fun oid => ?_) (by simp) (by simp) (by simp) (by simp)
      simp only [Sweep.Waits, hfenced.emptied hphase, List.not_mem_nil, false_or]
      rw [← List.mem_append, List.take_append_drop]
  | deleted _ _ _ _ hguard => exact hfenced.deleted (hsound.current_le hguard)
  | stale last _ _ hstale =>
      refine hfenced.rephase rfl rfl (fun _ => Iff.rfl) ?_ (by simp) (by simp) (by simp)
      rintro _ ⟨⟩
      exact le_of_lt hstale
  | asked last hphase =>
      refine hfenced.rephase rfl rfl (fun _ => Iff.rfl) (by simp) ?_ (by simp) (by simp)
      rintro _ _ ⟨⟩
      refine ⟨(hfenced.stale hphase).trans (le_max_right _ _), fun oid hmem => ?_⟩
      obtain ⟨⟨_, tid⟩, hlisted, rfl⟩ := List.mem_map.mp hmem
      obtain ⟨version, hcurrent, rfl, hlower⟩ := mem_currentWhere_iff.mp hlisted
      exact ⟨version, hcurrent, of_decide_eq_true hlower⟩
  | rescued latest changed hphase => exact hfenced.rescued (hguarded.rescue hphase).2 hphase

section

variable {now : Instant} {note : CommitNote} {writes : List Write}

/-- A commit keeps the fence if what it refers to exists and, where references
may be broken already, if what it leads to exists. -/
theorem Sweep.Fenced.commit (hfenced : sweep.Fenced store) (hpassed : store.HasPassed sweep.guardTid)
    (hvalid : store.refusal? ∅ writes = none)
    (hrefs : (store.applyAll (Tid.nextAfter store.lastTid now) now note writes).HoldsRefs writes)
    (hpaths : ¬ store.Closed →
      (store.applyAll (Tid.nextAfter store.lastTid now) now note writes).HoldsPaths writes) :
    sweep.Fenced (store.applyAll (Tid.nextAfter store.lastTid now) now note writes) := by
  have hevolves := (Change.committed now note writes hvalid).evolves
  constructor
  · intro source target hrefers hout
    rcases MemoryStore.refersTo_applyAll hvalid hrefers with hold | ⟨write, hwrite, _, hmem⟩
    · exact MemoryStore.holds_applyAll hvalid (hfenced.whole hold hout)
    · exact hrefs write hwrite target hmem
  · exact fun hrefers => hfenced.apart (hevolves.refersUpto hpassed hrefers)
  · intro source target version hcurrent hlower hreaches
    by_cases hclosed : store.Closed
    · exact (hclosed.applyAll hvalid hrefs).holds_of_reaches ⟨version, hcurrent⟩ hreaches
    · rcases MemoryStore.applyAll_cases hvalid source with
        ⟨_, hsame, _⟩ | ⟨write, hwrite, heq, _⟩
      · rcases MemoryStore.reaches_applyAll hvalid hreaches with hbefore | ⟨write, hwrite, hon⟩
        · have hheld := hfenced.fresh (hsame.symm.trans hcurrent) hlower hbefore
          exact MemoryStore.holds_applyAll hvalid hheld
        · exact hpaths hclosed write hwrite target hon
      · exact hpaths hclosed write hwrite target (heq ▸ hreaches)
  · exact hfenced.stale
  · intro latest changed hphase
    obtain ⟨hraised, hchanged⟩ := hfenced.rescue hphase
    refine ⟨hraised, fun oid hmem => ?_⟩
    obtain ⟨version, hcurrent, hlower⟩ := hchanged oid hmem
    rcases MemoryStore.applyAll_cases hvalid oid with ⟨_, hsame, _⟩ | ⟨write, _, _, _, hnew, _⟩
    · exact ⟨version, hsame.trans hcurrent, hlower⟩
    · exact ⟨_, hnew, MemoryStore.lt_nextAfter_of_hasPassed hpassed⟩
  · exact fun hnone => (hfenced.untouched hnone).applyAll hvalid hrefs
  · exact hfenced.emptied
  · exact hfenced.finished

end

namespace PackScene

/-- Some batch is gone and some candidates still wait. -/
def BetweenBatches (scene : PackScene MemoryStore κ) : Prop :=
  ∃ boundary found sweep, scene.stage = .sweeping boundary found sweep ∧
    sweep.report.batches ≠ 0 ∧ ∃ oid, sweep.Waits oid

/-- The moves of one pack beside new oids and commits, where each commit that
is not refused meets a condition on the store it leaves. -/
def Permits (commits : PackScene MemoryStore κ → MemoryStore → List Write → Prop)
    (scene : PackScene MemoryStore κ) : PackMove → Prop
  | .call .newOid | .proceed _ => True
  | .call (.commit now note writes) => ∀ tid after,
      ObjectStore.commit scene.store now note writes = .ok (tid, after) →
        commits scene after writes
  | .call _ => False
  | .mark _ | .sweep _ _ => scene.stage = .idle

def Follows [Invalidator κ] (settings : PackSettings)
    (commits : PackScene MemoryStore κ → MemoryStore → List Write → Prop) :
    PackScene MemoryStore κ → List PackMove → Prop
  | _, [] => True
  | scene, move :: rest =>
      scene.Permits commits move ∧ Follows settings commits (scene.move settings move) rest

/-- Commits refer to existing objects only.  Between two batches they lead to
existing objects only. -/
def Careful (scene : PackScene MemoryStore κ) (after : MemoryStore) (writes : List Write) : Prop :=
  after.HoldsRefs writes ∧ (scene.BetweenBatches → after.HoldsPaths writes)

/-- Each mark is fenced. -/
def MarksFenced (scene : PackScene MemoryStore κ) : Prop :=
  ∀ boundary found, (boundary, found) ∈ scene.marks → found.Fenced scene.store

/-- The fence in each stage.  Only a sweep that goes on or has failed may have
left references broken. -/
def Fenced (scene : PackScene MemoryStore κ) : Prop :=
  match scene.stage with
  | .idle => scene.store.Closed ∧ scene.MarksFenced
  | .marking _ progress => scene.store.Closed ∧ scene.MarksFenced ∧ progress.Fenced scene.store
  | .sweeping _ _ sweep => sweep.Fenced scene.store
  | .ended (.ok _) => scene.store.Closed
  | .ended (.error _) => True

variable {scene : PackScene MemoryStore κ}

theorem MarksFenced.evolves (hfenced : scene.MarksFenced) (hguarded : scene.Guarded settings)
    (hevolves : Evolves scene.store later) : MarksFenced { scene with store := later } := by
  intro boundary found hmem
  exact (hfenced boundary found hmem).evolves (hguarded.marks hmem) hevolves

/-- References can only be broken between two batches. -/
theorem Fenced.betweenBatches {found : Marked} {sweep : Sweep} (hfenced : scene.Fenced)
    (hstage : scene.stage = .sweeping boundary found sweep) (hbroken : ¬ scene.store.Closed) :
    scene.BetweenBatches := by
  simp only [Fenced, hstage] at hfenced
  refine ⟨boundary, found, sweep, hstage, mt hfenced.untouched hbroken, ?_⟩
  by_contra hnone
  apply hbroken
  intro source target hrefers
  exact hfenced.whole hrefers fun hwaits => hnone ⟨source, hwaits⟩

/-- Work beside the collector keeps the fence if it leaves every reference whole
where all were, and keeps the fence of a sweep. -/
theorem Fenced.evolves (hfenced : scene.Fenced) (hguarded : scene.Guarded settings)
    (hevolves : Evolves scene.store later) (hclosed : scene.store.Closed → later.Closed)
    (hsweeping : ∀ boundary found sweep, scene.stage = .sweeping boundary found sweep →
      sweep.Fenced scene.store → sweep.Fenced later) :
    Fenced { scene with store := later } := by
  cases hstage : scene.stage with
  | idle =>
      simp only [Fenced, hstage] at hfenced ⊢
      obtain ⟨hwhole, hmarks⟩ := hfenced
      exact ⟨hclosed hwhole, hmarks.evolves hguarded hevolves⟩
  | marking boundary progress =>
      simp only [Fenced, hstage] at hfenced ⊢
      obtain ⟨hwhole, hmarks, hprogress⟩ := hfenced
      exact ⟨hclosed hwhole, hmarks.evolves hguarded hevolves,
        hprogress.evolves (hguarded.marking hstage) hevolves⟩
  | sweeping boundary found sweep =>
      simp only [Fenced, hstage] at hfenced ⊢
      exact hsweeping boundary found sweep hstage hfenced
  | ended result =>
      cases result with
      | ok report =>
          simp only [Fenced, hstage] at hfenced ⊢
          exact hclosed hfenced
      | error => simp only [Fenced]

theorem Fenced.commit {now : Instant} {note : CommitNote} {writes : List Write}
    (hfenced : scene.Fenced) (hguarded : scene.Guarded settings)
    (hvalid : scene.store.refusal? ∅ writes = none)
    (hcareful : scene.Careful
      (scene.store.applyAll (Tid.nextAfter scene.store.lastTid now) now note writes) writes) :
    Fenced { scene with
      store := scene.store.applyAll (Tid.nextAfter scene.store.lastTid now) now note writes } := by
  obtain ⟨hrefs, hpaths⟩ := hcareful
  have hevolves := (Change.committed now note writes hvalid).evolves
  refine hfenced.evolves hguarded hevolves (fun hclosed => hclosed.applyAll hvalid hrefs) ?_
  intro boundary found sweep hstage hsweep
  have hpassed := (hguarded.sweeping hstage).passed
  have hbetween := hfenced.betweenBatches hstage
  exact hsweep.commit hpassed hvalid hrefs fun hbroken => hpaths (hbetween hbroken)

/-- Handing out an oid touches no object. -/
theorem Fenced.counted {count : Nat} (hfenced : scene.Fenced) (hguarded : scene.Guarded settings) :
    Fenced { scene with store := { scene.store with nextOid := count } } := by
  have hevolves := (Change.counted count : Change scene.store _).evolves
  refine hfenced.evolves hguarded hevolves (fun hclosed => hclosed.of_current rfl) ?_
  intro boundary found sweep _ hsweep
  exact ⟨hsweep.whole, hsweep.apart, hsweep.fresh, hsweep.stale, hsweep.rescue,
    hsweep.untouched, hsweep.emptied, hsweep.finished⟩

theorem Fenced.call {action : StoreAction} (hfenced : scene.Fenced)
    (hguarded : scene.Guarded settings) (hpermits : scene.Permits Careful (.call action)) :
    Fenced { scene with store := perform scene.store action } := by
  cases action with
  | newOid =>
      cases hanswer : ObjectStore.newOid scene.store with
      | error => simpa only [perform, hanswer, perform.left] using hfenced
      | ok result =>
          obtain ⟨oid, after⟩ := result
          obtain ⟨_, rfl⟩ := Prod.mk.inj (Except.ok.inj (MemoryStore.online_eq_ok hanswer).2)
          simp only [perform, hanswer, perform.left]
          exact hfenced.counted hguarded
  | commit now note writes =>
      cases hanswer : ObjectStore.commit scene.store now note writes with
      | error => simpa only [perform, hanswer, perform.left] using hfenced
      | ok result =>
          have hcareful := hpermits _ _ hanswer
          obtain ⟨hvalid, htid, hafter⟩ := MemoryStore.commit_eq_ok hanswer
          simp only [perform, hanswer, perform.left]
          rw [hafter, htid] at hcareful ⊢
          exact hfenced.commit hguarded hvalid hcareful
  | deleteObjects | pruneHistory | dropHistory => cases hpermits

variable [Invalidator κ]

theorem Fenced.proceed {cancelled : Bool} (hfenced : scene.Fenced) (hsound : scene.store.Sound)
    (hguarded : scene.Guarded settings) (hretention : settings.retention = .keepNone) :
    (scene.proceed settings cancelled).Fenced := by
  cases hstage : scene.stage with
  | idle | ended => simpa only [PackScene.proceed, hstage] using hfenced
  | marking boundary progress =>
      simp only [Fenced, hstage] at hfenced
      obtain ⟨hclosed, hmarks, hprogress⟩ := hfenced
      simp only [PackScene.proceed, hstage]
      split
      · rename_i hask
        exact ⟨hclosed, hmarks, .ask hask⟩
      · rename_i hask
        refine ⟨hclosed, fun marksBoundary earlier hmem => ?_⟩
        rcases List.mem_cons.mp hmem with hfound | hearlier
        · cases hfound
          exact hprogress.complete hretention hask
        · exact hmarks marksBoundary earlier hearlier
      · exact hclosed
      · trivial
  | sweeping boundary found sweep =>
      have hsweep := hguarded.sweeping hstage
      simp only [Fenced, hstage] at hfenced
      simp only [PackScene.proceed, hstage]
      split
      · rename_i hgoing
        exact hfenced.goes hsound hsweep (Sweep.step_going hgoing)
      · rename_i hdone
        obtain ⟨hphase, rfl⟩ := Sweep.step_done hdone
        have hclosed : scene.store.Closed :=
          fun source _ hrefers => hfenced.whole hrefers (hfenced.finished hphase source)
        exact hclosed.of_current MemoryStore.current_prune
      · trivial

theorem Fenced.move {move : PackMove} (hfenced : scene.Fenced) (hsound : scene.store.Sound)
    (hguarded : scene.Guarded settings) (hretention : settings.retention = .keepNone)
    (hpermits : scene.Permits Careful move) : (scene.move settings move).Fenced := by
  cases move with
  | call action => exact hfenced.call hguarded hpermits
  | mark boundary =>
      have hstage : scene.stage = .idle := hpermits
      simp only [Fenced, hstage] at hfenced
      exact ⟨hfenced.1, hfenced.2, trivial⟩
  | sweep place pruned =>
      cases hplace : scene.marks[place]? with
      | none => simpa only [PackScene.move, hplace] using hfenced
      | some pair =>
          obtain ⟨boundary, found⟩ := pair
          have hstage : scene.stage = .idle := hpermits
          simp only [Fenced, hstage] at hfenced
          simp only [PackScene.move, hplace]
          exact (hfenced.2 boundary found (List.mem_of_getElem? hplace)).ofMarked hfenced.1 pruned
  | proceed cancelled => exact hfenced.proceed hsound hguarded hretention

theorem run_fenced {moves : List PackMove} (hfenced : scene.Fenced) (hsound : scene.store.Sound)
    (hguarded : scene.Guarded settings) (hretention : settings.retention = .keepNone)
    (hfollows : scene.Follows settings Careful moves) : (scene.run settings moves).Fenced := by
  induction moves generalizing scene with
  | nil => exact hfenced
  | cons move rest ih =>
      obtain ⟨hpermits, hrest⟩ := hfollows
      obtain ⟨hchange, hstill⟩ := hguarded.move move
      have hnext := hfenced.move hsound hguarded hretention hpermits
      exact ih hnext (hsound.change hchange) hstill hrest

end PackScene

end

/-- A pack without a retention policy leaves the live graph whole, if the
commits beside it are careful. -/
theorem ended_pack_live_closed [Invalidator κ] (settings : PackSettings)
    (hretention : settings.retention = .keepNone) (keepsHistory : Bool)
    (actions : List StoreAction) (store : MemoryStore)
    (hstore : performAll (MemoryStore.empty keepsHistory) actions = store)
    (hclosed : store.Closed) (cache : κ) (moves : List PackMove)
    (hfollows : (PackScene.start store cache).Follows settings PackScene.Careful moves)
    (scene : PackScene MemoryStore κ)
    (hscene : (PackScene.start store cache).run settings moves = scene) (report : PackReport)
    (hended : scene.stage = .ended (.ok report)) : scene.store.LiveClosed := by
  have hsound : store.Sound := hstore ▸ MemoryStore.sound_performAll MemoryStore.sound_empty
  have hstart : (PackScene.start store cache).Fenced :=
    ⟨hclosed, by simp [PackScene.MarksFenced, PackScene.start]⟩
  have hfenced := PackScene.run_fenced hstart hsound PackScene.guarded_start hretention hfollows
  rw [hscene] at hfenced
  simp only [PackScene.Fenced, hended] at hfenced
  exact fun source target _ hrefers => hfenced source target hrefers

namespace BatchWitness

open RescueWitness (write)

def settings : PackSettings := { batchSize := 1 }

/-- Three unreachable objects, of which the second refers to the first. -/
def actions : List StoreAction :=
  [.commit (.ofMicros 10) {}
    [write 0 none [], write 1 none [], write 2 none [⟨1⟩], write 3 none []]]

def store : MemoryStore := performAll (MemoryStore.empty false) actions

/-- Up to the deletion of the first of them. -/
def opening : List PackMove :=
  [.mark .zero, .proceed false, .proceed false, .proceed false, .sweep 0 .zero, .proceed false,
    .proceed false]

def linking (target : Oid) : List Write := [write 0 (some ⟨10⟩) [target]]

/-- Then the root comes to refer to another one, and the sweep goes on. -/
def moves (target : Oid) : List PackMove :=
  opening ++ .call (.commit (.ofMicros 20) {} (linking target)) :: List.replicate 8 (.proceed false)

def start : PackScene MemoryStore (Cache Unit) := .start store (.ofMegabytes 1)

def between : PackScene MemoryStore (Cache Unit) := start.run settings opening

def after (target : Oid) : MemoryStore :=
  between.store.applyAll ⟨20⟩ (.ofMicros 20) {} (linking target)

def report : PackReport := { objectsRemoved := 2, reachable := 1, batches := 2, remarks := 1 }

theorem follows_moves {target : Oid}
    {commits : PackScene MemoryStore (Cache Unit) → MemoryStore → List Write → Prop}
    (hcommit : commits between (after target) (linking target)) :
    start.Follows settings commits (moves target) := by
  refine ⟨rfl, trivial, trivial, trivial, rfl, trivial, trivial, ?_, ?_⟩
  · intro tid after h
    obtain ⟨_, htid, rfl⟩ := MemoryStore.commit_eq_ok h
    rw [htid]
    exact hcommit
  · exact ⟨trivial, trivial, trivial, trivial, trivial, trivial, trivial, trivial, trivial⟩

/-- Existing references are not enough: a commit between two batches may refer
to a candidate whose own reference is broken by then. -/
theorem resurrected_candidate_not_whole :
    ¬ ∀ (settings : PackSettings) (keepsHistory : Bool) (actions : List StoreAction)
      (store : MemoryStore) (cache : Cache Unit) (moves : List PackMove)
      (scene : PackScene MemoryStore (Cache Unit)) (report : PackReport),
      settings.retention = .keepNone →
      performAll (MemoryStore.empty keepsHistory) actions = store → store.Closed →
      (PackScene.start store cache).Follows settings
        (fun _ after writes => after.HoldsRefs writes) moves →
      (PackScene.start store cache).run settings moves = scene →
      scene.stage = .ended (.ok report) → scene.store.LiveClosed := by
  intro h
  have hclosed : store.Closed := by decide +kernel
  have hrefs : (after ⟨2⟩).HoldsRefs (linking ⟨2⟩) := by decide +kernel
  have hended : (start.run settings (moves ⟨2⟩)).stage = .ended (.ok report) := by decide +kernel
  have hstore : performAll (MemoryStore.empty false) actions = store := rfl
  have hlive := h settings false actions store _ (moves ⟨2⟩) _ report rfl hstore hclosed
    (follows_moves hrefs) rfl hended
  have hroot : (start.run settings (moves ⟨2⟩)).store.RefersTo .root ⟨2⟩ :=
    MemoryStore.mem_targets_iff.mp (by decide +kernel)
  have hbroken : (start.run settings (moves ⟨2⟩)).store.RefersTo ⟨2⟩ ⟨1⟩ :=
    MemoryStore.mem_targets_iff.mp (by decide +kernel)
  have hgone : ¬ (start.run settings (moves ⟨2⟩)).store.Holds ⟨1⟩ := by decide +kernel
  exact hgone (hlive ⟨2⟩ ⟨1⟩ (.single hroot) hbroken)

/-- A candidate that refers to nothing is rescued whole. -/
theorem rescued_candidate_whole :
    start.Follows settings PackScene.Careful (moves ⟨3⟩) ∧
      (start.run settings (moves ⟨3⟩)).stage = .ended (.ok report) ∧
      (start.run settings (moves ⟨3⟩)).store.LiveClosed := by
  have hclosed : store.Closed := by decide +kernel
  have hrefs : (after ⟨3⟩).HoldsRefs (linking ⟨3⟩) := by decide +kernel
  have hpaths : (after ⟨3⟩).HoldsPaths (linking ⟨3⟩) := by decide +kernel
  have hfollows : start.Follows settings PackScene.Careful (moves ⟨3⟩) :=
    follows_moves ⟨hrefs, fun _ => hpaths⟩
  have hended : (start.run settings (moves ⟨3⟩)).stage = .ended (.ok report) := by decide +kernel
  have hstore : performAll (MemoryStore.empty false) actions = store := rfl
  exact ⟨hfollows, hended, ended_pack_live_closed settings rfl false actions store hstore hclosed _
    (moves ⟨3⟩) hfollows _ rfl report hended⟩

end BatchWitness

end ObjectVault
