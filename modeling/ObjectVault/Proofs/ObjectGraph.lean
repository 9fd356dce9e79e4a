/-
The graph of current objects.  Its edges are the references of current
versions.  Commits add edges only under tids above all earlier ones, so what
can be reached through versions up to a past tid can only shrink.
-/
import ObjectVault.Proofs.Reachability
import ObjectVault.Proofs.StoreRun
import Mathlib.Data.Finset.Dedup

namespace ObjectVault.MemoryStore

/-- The current version of one object refers to another object, which need
not exist. -/
def RefersTo (store : MemoryStore) (source target : Oid) : Prop :=
  ∃ version, store.current[source]? = some version ∧ target ∈ version.refs

/-- Some path of references leads from one object to another. -/
def Reaches (store : MemoryStore) : Oid → Oid → Prop :=
  Relation.ReflTransGen store.RefersTo

/-- A reference of a version committed at or below a tid. -/
def RefersUpto (store : MemoryStore) (bound : Tid) (source target : Oid) : Prop :=
  ∃ version, store.current[source]? = some version ∧ version.tid ≤ bound ∧
    target ∈ version.refs

/-- Some path leads there through versions committed at or below a tid. -/
def ReachesUpto (store : MemoryStore) (bound : Tid) : Oid → Oid → Prop :=
  Relation.ReflTransGen (store.RefersUpto bound)

theorem mem_targets_iff {store : MemoryStore} {source target : Oid} :
    target ∈ store.targets source ↔ store.RefersTo source target := by
  unfold targets RefersTo
  cases store.current[source]? with
  | none => simp
  | some version => simp

theorem leads_targets {store : MemoryStore} : Reach.Leads store.targets = store.Reaches := by
  unfold Reach.Leads Reaches
  congr 1
  funext source target
  exact propext mem_targets_iff

/-- Asking a store what some roots reach gives exactly that. -/
theorem mem_reachable_iff {store : MemoryStore} {roots : List Oid} {oid : Oid} :
    oid ∈ store.reachable roots ↔ ∃ root ∈ roots, store.Reaches root oid := by
  rw [reachable, Reach.mem_closure_iff store.current.keys.toFinset, leads_targets]
  · intro oid hne
    obtain ⟨target, htarget⟩ := List.exists_mem_of_ne_nil _ hne
    obtain ⟨version, hcurrent, _⟩ := mem_targets_iff.mp htarget
    rw [List.mem_toFinset, Std.ExtTreeMap.mem_keys]
    exact Std.ExtTreeMap.mem_iff_isSome_getElem?.mpr (by simp [hcurrent])
  · exact le_of_le_of_eq (List.toFinset_card_le _) Std.ExtTreeMap.length_keys

theorem ReachesUpto.reaches {store : MemoryStore} {bound : Tid} {source target : Oid}
    (hreaches : store.ReachesUpto bound source target) : store.Reaches source target :=
  Relation.ReflTransGen.mono
    (fun _ _ ⟨version, hcurrent, _, hmem⟩ => ⟨version, hcurrent, hmem⟩) _ _ hreaches

/-- A path through versions up to a tid either keeps to the versions up to a
lower one, or leads on from an object whose version lies between the two. -/
theorem ReachesUpto.below_or {store : MemoryStore} {upper : Tid} (lower : Tid)
    {source target : Oid} (hreaches : store.ReachesUpto upper source target) :
    store.ReachesUpto lower source target ∨
      ∃ between version, store.current[between]? = some version ∧ lower < version.tid ∧
        version.tid ≤ upper ∧ store.Reaches between target := by
  induction hreaches with
  | refl => exact Or.inl .refl
  | @tail last target _ hedge ih =>
      obtain ⟨version, hcurrent, hle, hmem⟩ := hedge
      have hrefers : store.RefersTo last target := ⟨version, hcurrent, hmem⟩
      rcases ih with hbelow | ⟨between, passed, hbetween, hlower, hupper, hon⟩
      · rcases le_or_gt version.tid lower with hlow | hhigh
        · exact Or.inl (hbelow.tail ⟨version, hcurrent, hlow, hmem⟩)
        · exact Or.inr ⟨last, version, hcurrent, hhigh, hle, .single hrefers⟩
      · exact Or.inr ⟨between, passed, hbetween, hlower, hupper, hon.tail hrefers⟩

/-- What any work on a store can do to its current versions: each one stays as
it is, goes, or gives way to one with a tid above all earlier ones. -/
structure Evolves (store later : MemoryStore) : Prop where
  keepsHistory : later.keepsHistory = store.keepsHistory
  passed {tid : Tid} : store.HasPassed tid → later.HasPassed tid
  current {oid : Oid} {version : Version} : later.current[oid]? = some version →
    store.current[oid]? = some version ∨ ∀ tid, store.HasPassed tid → tid < version.tid

theorem Evolves.of_current {store later : MemoryStore}
    (hkeeps : later.keepsHistory = store.keepsHistory) (hlast : later.lastTid = store.lastTid)
    (hcurrent : ∀ {oid : Oid} {version}, later.current[oid]? = some version →
      store.current[oid]? = some version) : Evolves store later where
  keepsHistory := hkeeps
  passed h := by rwa [HasPassed, hlast]
  current h := Or.inl (hcurrent h)

theorem Change.evolves {store after : MemoryStore} (hchange : Change store after) :
    Evolves store after := by
  cases hchange with
  | none => exact .of_current rfl rfl id
  | counted => exact .of_current rfl rfl id
  | committed now note writes hvalid =>
      refine ⟨(foldl_apply_frame _ store writes).1, ?_, ?_⟩
      · intro tid hpassed
        exact ⟨_, rfl, le_of_lt (lt_nextAfter_of_hasPassed hpassed)⟩
      · intro oid version h
        rcases applyAll_cases hvalid oid with ⟨_, hcurrent, _⟩ | ⟨write, _, rfl, _, hcurrent, _⟩
        · exact Or.inl (hcurrent.symm.trans h)
        · cases hcurrent.symm.trans h
          exact Or.inr fun _ => lt_nextAfter_of_hasPassed
  | deleted oids =>
      refine .of_current rfl rfl fun h => ?_
      rw [current_deleteAll, Option.ite_none_left_eq_some] at h
      exact h.2
  | pruned boundary =>
      obtain ⟨hkeeps, _, hlast, _⟩ := prune_frame store boundary
      exact .of_current hkeeps hlast (by simp)
  | dropped => exact .of_current rfl rfl id

theorem Evolves.refersUpto {store later : MemoryStore} (hevolves : Evolves store later)
    {bound : Tid} (hpassed : store.HasPassed bound) {source target : Oid}
    (hrefers : later.RefersUpto bound source target) : store.RefersUpto bound source target := by
  obtain ⟨version, hcurrent, hle, hmem⟩ := hrefers
  rcases hevolves.current hcurrent with hold | hnew
  · exact ⟨version, hold, hle, hmem⟩
  · exact absurd (hnew bound hpassed) (not_lt_of_ge hle)

theorem Evolves.reachesUpto {store later : MemoryStore} (hevolves : Evolves store later)
    {bound : Tid} (hpassed : store.HasPassed bound) {source target : Oid}
    (hreaches : later.ReachesUpto bound source target) :
    store.ReachesUpto bound source target :=
  Relation.ReflTransGen.mono (fun _ _ => hevolves.refersUpto hpassed) _ _ hreaches

end ObjectVault.MemoryStore
