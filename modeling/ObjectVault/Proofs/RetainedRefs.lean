/-
References of retained objects.  What the root reaches stays whole in a pack.
An object that the retention policy keeps does not take along what it refers
to: its age decides about it alone.
-/
import ObjectVault.Proofs.LiveGraph
import ObjectVault.Proofs.UndisturbedPack

namespace ObjectVault

namespace Packed

variable {ν : Type} {settings : PackSettings} {boundary : Tid} {store after : MemoryStore}
  {cache later : Cache ν} {report : PackReport} {source target oid : Oid}
  (h : Packed settings boundary store after cache later report)

include h

theorem holds_iff : after.Holds oid ↔ store.Holds oid ∧ store.Survives settings boundary oid := by
  simp only [MemoryStore.Holds, h.current, exists_and_right]

/-- A survivor keeps its references, whatever becomes of their targets. -/
theorem refersTo_iff : after.RefersTo source target ↔
    store.RefersTo source target ∧ store.Survives settings boundary source := by
  constructor
  · rintro ⟨version, hcurrent, hmem⟩
    obtain ⟨hbefore, hsurvives⟩ := (h.current source version).mp hcurrent
    exact ⟨⟨version, hbefore, hmem⟩, hsurvives⟩
  · rintro ⟨⟨version, hcurrent, hmem⟩, hsurvives⟩
    exact ⟨version, (h.current source version).mpr ⟨hcurrent, hsurvives⟩, hmem⟩

/-- The targets that are left are the survivors among them. -/
theorem holds_target_iff (hclosed : store.Closed) (hrefers : after.RefersTo source target) :
    after.Holds target ↔ store.Survives settings boundary target := by
  rw [h.holds_iff]
  exact and_iff_right (hclosed source target (h.refersTo_iff.mp hrefers).1)

theorem holds_target_of_reaches (hclosed : store.Closed) (hreaches : store.Reaches .root source)
    (hrefers : after.RefersTo source target) : after.Holds target := by
  refine (h.holds_target_iff hclosed hrefers).mpr (Or.inr (Or.inl ?_))
  exact hreaches.tail (h.refersTo_iff.mp hrefers).1

/-- Without retention every survivor is reached. -/
theorem closed_of_unretained (hclosed : store.Closed)
    (hretention : settings.retention = .keepNone ∨ store.keepsHistory = false) :
    after.Closed := by
  intro source target hrefers
  refine h.holds_target_of_reaches hclosed ?_ hrefers
  rcases (h.refersTo_iff.mp hrefers).2 with rfl | hreaches | ⟨hkeeps, hpolicy, _⟩
  · exact .refl
  · exact hreaches
  · rcases hretention with hnone | hfree
    · cases hnone.symm.trans hpolicy
    · cases hfree.symm.trans hkeeps

end Packed

/-- A pack leaves the references of survivors as they are.  Of the objects that
they name, those are left that the root reaches or that the policy keeps for
their own age; so what the root reaches refers to nothing that was deleted, and
without a retention policy, or without history, nothing does. -/
theorem retained_refs_by_target {ν : Type} (keepsHistory : Bool) (actions : List StoreAction)
    (settings : PackSettings) (boundary : Tid) (cache : Cache ν)
    (hclosed : (performAll (MemoryStore.empty keepsHistory) actions).Closed) :
    let store := performAll (MemoryStore.empty keepsHistory) actions
    let packed := ({ settings } : Collector).pack false boundary store cache
    (∃ report, packed.result = .ok report) ∧
    (∀ source target, packed.store.RefersTo source target →
      (packed.store.Holds target ↔ store.Survives settings boundary target)) ∧
    (∀ source target, store.Reaches .root source → packed.store.RefersTo source target →
      packed.store.Holds target) ∧
    (settings.retention = .keepNone ∨ keepsHistory = false → packed.store.Closed) := by
  intro store packed
  have hstamped : store.Stamped := (Documented.ofRun keepsHistory actions).toStamped
  have hkeeps : store.keepsHistory = keepsHistory := MemoryStore.keepsHistory_performAll _ actions
  obtain ⟨report, hresult, hpacked⟩ := Collector.pack_packed settings boundary hstamped cache
  refine ⟨⟨report, hresult⟩, fun source target => hpacked.holds_target_iff hclosed,
    fun source target => hpacked.holds_target_of_reaches hclosed, fun hretention => ?_⟩
  exact hpacked.closed_of_unretained hclosed (hretention.imp_right hkeeps.trans)

namespace RetainedWitness

open RescueWitness (write)

def settings : PackSettings := { retention := .keepAfterBoundary }

/-- The second commit adds an object that refers to one of the first.  The root
reaches neither. -/
def actions : List StoreAction :=
  [.commit (.ofMicros 1000) {} [write 0 none [], write 1 none []],
    .commit (.ofMicros 1001) {} [write 2 none [⟨1⟩]]]

def packed : Collector.PackOutcome MemoryStore (Cache Unit) :=
  ({ settings } : Collector).pack false ⟨1001⟩ (performAll (MemoryStore.empty true) actions)
    (.ofMegabytes 1)

/-- An object that is kept for its age loses what it refers to. -/
theorem deferred_object_not_whole :
    ¬ ∀ (actions : List StoreAction) (settings : PackSettings) (boundary : Tid),
      (performAll (MemoryStore.empty true) actions).Closed →
      (({ settings } : Collector).pack false boundary (performAll (MemoryStore.empty true) actions)
        (.ofMegabytes 1 : Cache Unit)).store.Closed := by
  intro h
  have hclosed : (performAll (MemoryStore.empty true) actions).Closed := by decide +kernel
  have hrefers : packed.store.RefersTo ⟨2⟩ ⟨1⟩ := MemoryStore.mem_targets_iff.mp (by decide +kernel)
  have hgone : ¬ packed.store.Holds ⟨1⟩ := by decide +kernel
  exact hgone (h actions settings ⟨1001⟩ hclosed ⟨2⟩ ⟨1⟩ hrefers)

theorem older_target_deleted :
    packed.store.RefersTo ⟨2⟩ ⟨1⟩ ∧
      ¬ (performAll (MemoryStore.empty true) actions).Survives settings ⟨1001⟩ ⟨1⟩ := by
  have hclosed : (performAll (MemoryStore.empty true) actions).Closed := by decide +kernel
  have hrefers : packed.store.RefersTo ⟨2⟩ ⟨1⟩ := MemoryStore.mem_targets_iff.mp (by decide +kernel)
  have hgone : ¬ packed.store.Holds ⟨1⟩ := by decide +kernel
  obtain ⟨_, htarget, _, _⟩ := retained_refs_by_target true actions settings ⟨1001⟩
    (.ofMegabytes 1 : Cache Unit) hclosed
  exact ⟨hrefers, fun hsurvives => hgone ((htarget ⟨2⟩ ⟨1⟩ hrefers).mpr hsurvives)⟩

end RetainedWitness

end ObjectVault
