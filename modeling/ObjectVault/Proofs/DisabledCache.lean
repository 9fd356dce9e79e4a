/-
Caches without room.  With a budget of zero nothing counts towards the resident
bytes, every version of some size is refused, and a vault reads its store.  Only
versions of size zero get in: what a cache of no room holds are empty states.
-/
import ObjectVault.Proofs.CacheOffers
import ObjectVault.Proofs.VaultReads

namespace ObjectVault

open LawfulStore (Valid Holds)

namespace Cache

variable {ν : Type}

/-- The cache has lost at most entries. -/
structure Sheds (cache later : Cache ν) : Prop where
  budget_eq : later.budget = cache.budget
  subset (oid : Oid) (found : Tid × ν) : later.find? oid = some found →
    cache.find? oid = some found

namespace Sheds

variable {cache later last : Cache ν}

theorem refl (cache : Cache ν) : cache.Sheds cache := ⟨rfl, fun _ _ => id⟩

theorem trans (hfirst : cache.Sheds later) (hsecond : later.Sheds last) : cache.Sheds last where
  budget_eq := hsecond.budget_eq.trans hfirst.budget_eq
  subset oid found hfound := hfirst.subset oid found (hsecond.subset oid found hfound)

theorem get (cache : Cache ν) (oid : Oid) : cache.Sheds (cache.get oid).2 where
  budget_eq := by
    rw [Cache.get]
    split <;> rfl
  subset other _ hfound := (cache.find?_get oid other).symm.trans hfound

theorem remove (cache : Cache ν) (oid : Oid) : cache.Sheds (cache.remove oid) where
  budget_eq := by
    rw [Cache.remove]
    split <;> rfl
  subset other found hfound := by
    rw [find?_remove, Option.ite_none_left_eq_some] at hfound
    exact hfound.2

theorem foldl_remove (cache : Cache ν) (oids : List Oid) :
    cache.Sheds (oids.foldl Cache.remove cache) := by
  induction oids generalizing cache with
  | nil => exact refl cache
  | cons oid rest ih => exact (remove cache oid).trans (ih (cache.remove oid))

theorem invalidate (cache : Cache ν) (oids : List Oid) : cache.Sheds (cache.invalidate oids) :=
  ⟨(foldl_remove cache oids).budget_eq, (foldl_remove cache oids).subset⟩

theorem clear (cache : Cache ν) : cache.Sheds cache.clear where
  budget_eq := rfl
  subset oid found hfound := by
    rw [find?_clear] at hfound
    cases hfound

theorem evictUpTo (bound : Nat) (cache : Cache ν) : cache.Sheds (cache.evictUpTo bound) where
  budget_eq := by
    induction bound generalizing cache with
    | zero => rfl
    | succ bound ih =>
        rw [Cache.evictUpTo]
        split
        · rfl
        · split
          · rename_i smaller hsmaller
            obtain ⟨_, _, rfl⟩ := Option.map_eq_some_iff.mp hsmaller
            exact ih _
          · rfl
  subset := (evictUpTo_subset bound cache).2

end Sheds

theorem budget_put (cache : Cache ν) (oid : Oid) (tid : Tid) (value : ν) (size : Nat) :
    (cache.put oid tid value size).2.budget = cache.budget := by
  rw [put]
  split
  · exact (Sheds.evictUpTo _ _).budget_eq.trans (Sheds.remove cache oid).budget_eq
  · rfl

theorem budget_putIfFresh (cache : Cache ν) (oid : Oid) (tid : Tid) (value : ν) (size : Nat)
    (ticket : FillTicket) :
    (cache.putIfFresh oid tid value size ticket).2.budget = cache.budget := by
  rw [putIfFresh]
  split
  · exact budget_put cache oid tid value size
  · rfl

end Cache

namespace CacheDesk

variable {ν : Type}

/-- What a run of calls leaves of a cache without room. -/
structure Disabled (desk : CacheDesk ν) (calls : List (CacheCall ν)) : Prop where
  resident_eq : desk.cache.resident = 0
  /-- Only what was offered with no size is held. -/
  missed (oid : Oid) : (∀ item ∈ CacheCall.offered calls, item.oid = oid → item.size ≠ 0) →
    (desk.call (.get oid)).1 = .found none ∧ (desk.call (.contains oid)).1 = .held false
  size_eq : (∀ item ∈ CacheCall.offered calls, item.size ≠ 0) → desk.cache.size = 0
  refused (item : CacheItem ν) : item.size ≠ 0 → desk.call (.put item) = (.stored false, desk)
  refusedFill (item : CacheItem ν) (place : Nat) : item.size ≠ 0 →
    (desk.call (.putIfFresh item place)).1 ≠ .stored true

theorem contains_eq (desk : CacheDesk ν) (oid : Oid) :
    (desk.call (.contains oid)).1 = .held (desk.cache.find? oid).isSome := by
  rw [Cache.find?, Option.isSome_map, Std.ExtTreeMap.isSome_getElem?_eq_contains]
  rfl

theorem disabled_ofRun (calls : List (CacheCall ν)) : (ofRun 0 calls).Disabled calls := by
  have hbudget := budget_ofRun 0 calls
  have hmissing : ∀ oid, (∀ item ∈ CacheCall.offered calls, item.oid = oid → item.size ≠ 0) →
      (ofRun 0 calls).cache.find? oid = none := by
    intro oid hsizes
    cases hfound : (ofRun 0 calls).cache.find? oid with
    | none => rfl
    | some found =>
        obtain ⟨item, hmem, hfits, hoid, _⟩ := offered_of_find? hfound
        exact absurd (Nat.le_zero.mp hfits) (hsizes item hmem hoid)
  constructor
  · have hresident := (agrees_ofRun 0 calls).resident_le
    rw [RecencyList.budget_ofRun] at hresident
    exact Nat.le_zero.mp hresident
  · intro oid hsizes
    rw [get_eq_found_iff, contains_eq, hmissing oid hsizes]
    exact ⟨rfl, rfl⟩
  · intro hsizes
    have hnone : (ofRun 0 calls).cache.entries = ∅ := by
      refine Std.ExtTreeMap.ext_getElem? fun oid => ?_
      rw [Std.ExtTreeMap.getElem?_empty]
      exact Option.map_eq_none_iff.mp (hmissing oid fun item hmem _ => hsizes item hmem)
    rw [Cache.size, hnone]
    rfl
  · intro item hsize
    have hlarge : (ofRun 0 calls).cache.budget < item.size :=
      hbudget.trans_lt (Nat.pos_of_ne_zero hsize)
    simp only [CacheDesk.call, Cache.put_of_oversize hlarge]
  · intro item place hsize
    have hlarge : (ofRun 0 calls).cache.budget < item.size :=
      hbudget.trans_lt (Nat.pos_of_ne_zero hsize)
    simp only [CacheDesk.call]
    split
    · simp only [Cache.putIfFresh, Cache.put_of_oversize hlarge]
      split <;> simp
    · simp

end CacheDesk

/-- A sweep takes entries out of the cache and puts none in. -/
theorem Sweep.sheds_run {α σ : Type} [ObjectStore σ] (settings : PackSettings) (cancelled : Bool)
    (sweep : Sweep) (store : σ) (cache : Cache α) :
    cache.Sheds (sweep.run settings cancelled store cache).cache := by
  fun_induction run settings cancelled sweep store cache with
  | case1 sweep store cache next store' cache' hgoing ih =>
      have hstep : cache.Sheds cache' := by
        cases touches_of_step hgoing with
        | nothing => exact .refl cache
        | deleted _ => exact .invalidate cache sweep.batch
        | stale _ => exact .refl cache
      exact hstep.trans ih
  | case2 sweep store cache report after hdone => exact .refl cache
  | case3 sweep store cache error hfailed => exact .refl cache

section Vaults

variable {α σ : Type} {codec : Codec α} {stored more : Version → Prop} {vault later : Vault α}

/-- The cache of a vault has no room, and what it holds for all that are empty
states that were stored. -/
structure Vault.Roomless (vault : Vault α) (codec : Codec α) (stored : Version → Prop) : Prop where
  budget_eq : vault.cache.budget = 0
  decoded {oid : Oid} {found : Tid × α} : vault.cache.find? oid = some found →
    ∃ version, stored version ∧ version.oid = oid ∧ version.state = [] ∧
      codec.decode [] = .ok found.2

namespace Vault

theorem Roomless.mono (h : vault.Roomless codec stored)
    (hmore : ∀ version, stored version → more version) : vault.Roomless codec more where
  budget_eq := h.budget_eq
  decoded hfound := by
    obtain ⟨version, hstored, hempty⟩ := h.decoded hfound
    exact ⟨version, hmore version hstored, hempty⟩

theorem Roomless.sheds (h : vault.Roomless codec stored) (hsheds : vault.cache.Sheds later.cache) :
    later.Roomless codec stored where
  budget_eq := hsheds.budget_eq.trans h.budget_eq
  decoded hfound := h.decoded (hsheds.subset _ _ hfound)

theorem Roomless.fill (h : vault.Roomless codec stored) {ticket : FillTicket} {version : Version}
    {object : α} (hstored : stored version)
    (hfill : vault.fill codec ticket version = .ok (object, later)) :
    later.Roomless codec stored := by
  rw [Vault.fill] at hfill
  cases hdecode : codec.decode version.state with
  | error error =>
      rw [hdecode] at hfill
      cases hfill
  | ok decoded =>
      rw [hdecode] at hfill
      cases hfill
      refine ⟨(Cache.budget_putIfFresh ..).trans h.budget_eq, ?_⟩
      intro oid found hfound
      rcases Cache.find?_of_offer hfound with ⟨hfits, hoid, rfl⟩ | hbefore
      · have hempty : version.state = [] := by
          rw [h.budget_eq] at hfits
          exact List.length_eq_zero_iff.mp (Nat.le_zero.mp hfits)
        exact ⟨version, hstored, hoid.symm, hempty, hempty ▸ hdecode⟩
      · exact h.decoded hbefore

variable [ObjectStore σ] {store : σ}

theorem Roomless.load (h : vault.Roomless codec stored) {oid : Oid}
    (hstored : ∀ version, ObjectStore.load store oid = .ok (some version) → stored version) :
    (vault.load codec store oid).2.Roomless codec stored := by
  have hlooked : ({ vault with cache := (vault.cache.get oid).2 } : Vault α).Roomless
      codec stored := h.sheds (Cache.Sheds.get vault.cache oid)
  simp only [Vault.load]
  split
  · exact hlooked
  · split
    · exact hlooked
    · exact hlooked
    · rename_i version hload
      split
      · exact hlooked
      · rename_i hfill
        exact hlooked.fill (hstored version hload) hfill

theorem sheds_lookUp (cache : Cache α) (oids : List Oid) : cache.Sheds (lookUp cache oids).2 := by
  induction oids generalizing cache with
  | nil => exact .refl cache
  | cons oid rest ih => exact (Cache.Sheds.get cache oid).trans (ih (cache.get oid).2)

theorem Roomless.fillGaps (h : vault.Roomless codec stored) (ticket : FillTicket)
    (found : List (Oid × Option (Tid × α))) {versions : List (Option Version)}
    (hstored : ∀ version, some version ∈ versions → stored version) :
    (fillGaps codec ticket vault found versions).2.Roomless codec stored := by
  fun_induction Vault.fillGaps codec ticket vault found versions with
  | case1 => exact h
  | case2 =>
      rename_i hrest ih
      rw [hrest] at ih
      exact ih h hstored
  | case3 => exact h
  | case4 =>
      rename_i hfill _ _ hrest ih
      rw [hrest] at ih
      exact ih (h.fill (hstored _ List.mem_cons_self) hfill)
        fun version hmem => hstored version (List.mem_cons_of_mem _ hmem)
  | case5 =>
      rename_i hrest ih
      rw [hrest] at ih
      exact ih h fun version hmem => hstored version (List.mem_of_mem_tail hmem)

theorem Roomless.loadMany (h : vault.Roomless codec stored) {oids : List Oid}
    (hstored : ∀ missing versions, ObjectStore.loadMany store missing = .ok versions →
      ∀ version, some version ∈ versions → stored version) :
    (vault.loadMany codec store oids).2.Roomless codec stored := by
  have hlooked : ({ vault with cache := (lookUp vault.cache oids).2 } : Vault α).Roomless
      codec stored := h.sheds (sheds_lookUp vault.cache oids)
  simp only [Vault.loadMany]
  split
  · exact hlooked
  · split
    · exact hlooked
    · rename_i versions hload
      exact hlooked.fillGaps _ _ (hstored _ versions hload)

/-- The vault is as it was, and its cache has lost at most entries. -/
structure Sheds (vault later : Vault α) : Prop where
  settings_eq : later.settings = vault.settings
  cache : vault.cache.Sheds later.cache

theorem sheds_pack (vault : Vault α) (store : σ) (before : Instant) (cancelled : Bool) :
    vault.Sheds (vault.pack store before cancelled).vault where
  settings_eq := rfl
  cache := by
    simp only [Vault.pack, Collector.pack]
    split
    · exact .refl vault.cache
    · exact .refl vault.cache
    · exact Sweep.sheds_run _ cancelled _ _ vault.cache

theorem sheds_dropHistory (vault : Vault α) (store : σ) :
    vault.Sheds (vault.dropHistory store).vault := by
  simp only [Vault.dropHistory]
  split
  · exact ⟨rfl, .refl vault.cache⟩
  · exact ⟨rfl, .clear vault.cache⟩

theorem sheds_sync {count : Nat} (h : vault.sync store = .ok (count, later)) :
    vault.Sheds later := by
  rw [Vault.sync] at h
  split at h
  · cases h
  · cases h
    refine ⟨rfl, ?_⟩
    dsimp only
    rw [withoutChanged]
    split
    · exact .clear vault.cache
    · split
      · exact .refl vault.cache
      · exact .invalidate vault.cache _

theorem sheds_answer (codec : Codec α) (vault : Vault α) (call : CommitCall α) (clock : Clock)
    (store : σ) : vault.Sheds (call.answer codec vault clock store).vault := by
  rcases call.answer_cases codec vault clock store with
    ⟨_, hvault, _⟩ | ⟨_, txn, _, _, _, _, hvault⟩
  · rw [hvault]
    exact ⟨rfl, .refl vault.cache⟩
  · rw [hvault]
    exact ⟨rfl, .invalidate vault.cache txn.touched⟩

/-- A vault is opened with an empty cache of the size that its settings say. -/
theorem cache_of_ofStore {settings : Settings} (h : Vault.ofStore settings store = .ok vault) :
    vault.cache = .ofMegabytes vault.settings.cacheMegabytes := by
  obtain ⟨checked, _, hrest⟩ := bind_eq_ok.mp h
  dsimp only at hrest
  split at hrest
  · cases hrest
  · obtain ⟨synced, _, hopened⟩ := bind_eq_ok.mp hrest
    cases hopened
    rfl

theorem settings_load [LawfulStore σ] (hvalid : Valid store) (vault : Vault α) (oid : Oid) :
    (vault.load codec store oid).2.settings = vault.settings := by
  have hleaves : Leaves codec store vault (vault.load codec store oid).2 :=
    (load_spec hvalid vault oid).1
  obtain ⟨cache, hframe⟩ := hleaves.frame
  rw [hframe]

theorem settings_loadMany [LawfulStore σ] (hvalid : Valid store) (vault : Vault α)
    (oids : List Oid) : (vault.loadMany codec store oids).2.settings = vault.settings := by
  have hleaves : Leaves codec store vault (vault.loadMany codec store oids).2 :=
    (loadMany_spec hvalid vault oids).1
  obtain ⟨cache, hframe⟩ := hleaves.frame
  rw [hframe]

end Vault

/-- If the settings give the vault no room, its cache has none. -/
def VaultSession.Roomless (session : VaultSession α) (stored : Version → Prop) : Prop :=
  session.vault.settings.cacheMegabytes = 0 → session.vault.Roomless session.codec stored

variable {session : VaultSession α}

namespace VaultSession.Roomless

variable (h : session.Roomless stored)

include h

theorem mono (hmore : ∀ version, stored version → more version) : session.Roomless more :=
  fun hnone => (h hnone).mono hmore

theorem sees (more : Oid → Tid → Prop) : (session.sees more).Roomless stored := h

theorem follow (hsettings : later.settings = session.vault.settings)
    (hlater : session.vault.Roomless session.codec stored → later.Roomless session.codec stored) :
    ({ session with vault := later } : VaultSession α).Roomless stored := by
  intro hnone
  have hbefore : session.vault.settings.cacheMegabytes = 0 := by
    rw [← hsettings]
    exact hnone
  exact hlater (h hbefore)

theorem sheds (hsheds : session.vault.Sheds later) :
    ({ session with vault := later } : VaultSession α).Roomless stored :=
  h.follow hsheds.settings_eq fun hroomless => hroomless.sheds hsheds.cache

end VaultSession.Roomless

namespace VaultScene

variable {scene : VaultScene α σ}

/-- Every vault whose settings give it no room has none. -/
def Roomless (scene : VaultScene α σ) : Prop :=
  ∀ session ∈ scene.sessions, session.Roomless scene.committed

theorem roomless_disturbed (h : scene.Roomless)
    (hmore : ∀ version, scene.committed version → more version) :
    ∀ session ∈ disturbed scene.sessions, session.Roomless more := by
  intro session hmem
  obtain ⟨before, hbefore, rfl⟩ := List.mem_map.mp hmem
  exact (h before hbefore).mono hmore

variable [ObjectStore σ] [LawfulStore σ] (hscene : scene.Coherent)

include hscene

theorem roomless_load (hsession : session.Roomless scene.committed) (oid : Oid) :
    ({ session with vault := (session.vault.load session.codec scene.store oid).2 }
      : VaultSession α).Roomless scene.committed := by
  refine hsession.follow (Vault.settings_load hscene.valid session.vault oid) fun hroomless => ?_
  refine hroomless.load fun version hload => ?_
  rw [LawfulStore.load_eq hscene.valid] at hload
  exact hscene.recorded oid version (Except.ok.inj hload)

theorem roomless_loadMany (hsession : session.Roomless scene.committed) (oids : List Oid) :
    ({ session with vault := (session.vault.loadMany session.codec scene.store oids).2 }
      : VaultSession α).Roomless scene.committed := by
  refine hsession.follow (Vault.settings_loadMany hscene.valid session.vault oids)
    fun hroomless => ?_
  refine hroomless.loadMany fun missing versions hload => ?_
  rw [LawfulStore.loadMany_eq hscene.valid] at hload
  cases hload
  intro version hmem
  obtain ⟨oid, _, hcurrent⟩ := List.mem_map.mp hmem
  exact hscene.recorded oid version hcurrent

/-- No call makes room. -/
theorem roomless_act (h : scene.Roomless) (hsession : session.Roomless scene.committed)
    (place : Nat) (call : VaultCall α) : (scene.act place session call).Roomless := by
  cases call with
  | load oid => exact mem_put h ((roomless_load hscene hsession oid).sees _)
  | loadMany oids => exact mem_put h ((roomless_loadMany hscene hsession oids).sees _)
  | commit clock call =>
      have hsheds := session.vault.sheds_answer session.codec call clock scene.store
      simp only [act]
      split
      · refine mem_put (roomless_disturbed h fun _ => Or.inl) ?_
        exact (hsession.sheds hsheds).mono fun _ => Or.inl
      · exact mem_put h (hsession.sheds hsheds)
  | pack before cancelled =>
      refine mem_put (roomless_disturbed h fun _ => id) ?_
      exact hsession.sheds (session.vault.sheds_pack scene.store before cancelled)
  | dropHistory => exact mem_put h (hsession.sheds (session.vault.sheds_dropHistory scene.store))
  | sync =>
      simp only [act]
      split
      · rename_i hsync
        exact mem_put h (hsession.sheds (Vault.sheds_sync hsync))
      · exact h
  | evict oid => exact mem_put h (hsession.sheds ⟨rfl, .remove session.vault.cache oid⟩)
  | newOid => exact h

omit [LawfulStore σ] hscene in
theorem roomless_open (h : scene.Roomless) (settings : Settings) (codec : Codec α) :
    (scene.move (.open settings codec)).Roomless := by
  simp only [move]
  split
  · rename_i vault hvault
    have hcache := Vault.cache_of_ofStore hvault
    intro session hmem
    rcases List.mem_append.mp hmem with hbefore | hlast
    · exact h session hbefore
    · cases List.mem_singleton.mp hlast
      intro hnone
      constructor
      · rw [hcache, hnone, Cache.ofMegabytes, Nat.zero_mul, Nat.zero_min]
      · intro oid found hfound
        simp [hcache, Cache.find?, Cache.ofMegabytes] at hfound
  · exact h

theorem roomless_move (h : scene.Roomless) (move : VaultMove α) : (scene.move move).Roomless := by
  cases move with
  | «open» settings codec => exact roomless_open h settings codec
  | call place call =>
      rw [VaultScene.move]
      split
      · rename_i session hplace
        exact roomless_act hscene h (h session (List.mem_of_getElem? hplace)) place call
      · exact h

theorem roomless_run (h : scene.Roomless) (moves : List (VaultMove α))
    (hholds : ∀ version, (scene.run moves).committed version → Holds σ version.tid) :
    (scene.run moves).Roomless := by
  induction moves generalizing scene with
  | nil => exact h
  | cons move rest ih =>
      refine ih (hscene.move move fun version hcommitted => ?_) (roomless_move hscene h move) hholds
      exact hholds version (committed_run (scene.move move) rest version hcommitted)

end VaultScene

end Vaults

/-- Without room a cache holds nothing but versions of size zero.  Whatever is
asked of it, no bytes are resident, and an object that was not offered at size
zero is missed.  Along any run of vaults over a store, a vault whose settings
give it no room answers each read of an object as its store does, unless its
codec decodes the empty state and that state was committed for the object. -/
theorem cache_without_room {ν α σ : Type} [ObjectStore σ] [LawfulStore σ]
    (calls : List (CacheCall ν)) {store : σ} (hvalid : Valid store) (moves : List (VaultMove α))
    (hholds : ∀ version, ((VaultScene.start store).run moves).committed version →
      Holds σ version.tid) :
    (CacheDesk.ofRun 0 calls).Disabled calls ∧
    ∀ session ∈ ((VaultScene.start store).run moves).sessions,
      session.vault.settings.cacheMegabytes = 0 → ∀ oid,
        ((∃ object, session.codec.decode [] = .ok object) →
          ∀ version, ((VaultScene.start store).run moves).committed version →
            version.oid = oid → version.state ≠ []) →
        (session.vault.load session.codec ((VaultScene.start store).run moves).store oid).1 =
          Vault.loadStored session.codec ((VaultScene.start store).run moves).store oid := by
  refine ⟨CacheDesk.disabled_ofRun calls, ?_⟩
  intro session hmem hnone oid hstates
  have hstart : (VaultScene.start store : VaultScene α σ).Roomless := nofun
  have hroomless := VaultScene.roomless_run (VaultScene.coherent_start hvalid) hstart moves hholds
    session hmem hnone
  refine Vault.load_of_missing ?_
  cases hfound : session.vault.cache.find? oid with
  | none => rfl
  | some found =>
      obtain ⟨version, hcommitted, hoid, hempty, hdecode⟩ := hroomless.decoded hfound
      exact absurd hempty (hstates ⟨found.2, hdecode⟩ version hcommitted hoid)

namespace RoomlessWitness

/-- Objects are their own states, and the empty state may be no object. -/
def codec (decodesEmpty : Bool) : Codec Bytes where
  encode object := .ok ⟨object, ∅⟩
  decode state := if state = [] ∧ !decodesEmpty then .error (.decode "empty") else .ok state

/-- The first of two vaults, which has no room, creates the root and loads it;
the second one replaces it. -/
def moves (decodesEmpty : Bool) (state : Bytes) : List (VaultMove Bytes) :=
  [.open { cacheMegabytes := 0 } (codec decodesEmpty), .open {} (codec decodesEmpty),
    .call 0 (.commit ⟨.ofMicros 10, 0⟩ (.objects {} [⟨.root, none, state, none⟩])),
    .call 0 (.load .root),
    .call 1 (.commit ⟨.ofMicros 20, 0⟩ (.objects {} [⟨.root, some ⟨10⟩, [2], none⟩]))]

def scene (decodesEmpty : Bool) (state : Bytes) : VaultScene Bytes MemoryStore :=
  (VaultScene.start (.empty false)).run (moves decodesEmpty state)

def calls (size : Nat) : List (CacheCall Unit) :=
  [.put ⟨⟨1⟩, ⟨1⟩, (), size⟩, .get ⟨1⟩]

theorem nonempty {decodesEmpty : Bool} {state : Bytes}
    (hlength : (scene decodesEmpty state).sessions.length = 2) :
    (scene decodesEmpty state).sessions ≠ [] := by
  intro hnil
  rw [hnil] at hlength
  cases hlength

/-- The first vault answers what the second one has committed. -/
theorem replaced_root_read :
    ((CacheDesk.ofRun 0 (calls 3)).call (.get ⟨1⟩)).1 = .found none ∧
    ∃ session ∈ (scene false [1]).sessions, session.vault.settings.cacheMegabytes = 0 ∧
      (session.vault.load session.codec (scene false [1]).store .root).1 = .ok ([2], ⟨20⟩) := by
  have hvalid : Valid (MemoryStore.empty false) := MemoryStore.sound_empty
  have hlength : (scene false [1]).sessions.length = 2 := by decide +kernel
  obtain ⟨hdisabled, hreads⟩ := cache_without_room (calls 3) hvalid (moves false [1])
    fun _ _ => trivial
  refine ⟨(hdisabled.missed ⟨1⟩ (by decide)).1, (scene false [1]).sessions.head (nonempty hlength),
    List.head_mem _, rfl, ?_⟩
  refine hreads _ (List.head_mem (nonempty hlength)) rfl .root ?_
  rintro ⟨object, hdecode⟩
  have hrefused : (codec false).decode [] = .error (.decode "empty") := rfl
  cases hrefused.symm.trans hdecode

/-- A version of size zero is held, and a vault answers with it when its store
has another one. -/
theorem empty_state_held :
    ((CacheDesk.ofRun 0 (calls 0)).call (.contains ⟨1⟩)).1 = .held true ∧
      ((CacheDesk.ofRun 0 (calls 0)).call (.get ⟨1⟩)).1 = .found (some (⟨1⟩, ())) ∧
      (CacheDesk.ofRun 0 (calls 0)).cache.size = 1 ∧
    ∃ session ∈ (scene true []).sessions, session.vault.settings.cacheMegabytes = 0 ∧
      (session.vault.load session.codec (scene true []).store .root).1 = .ok ([], ⟨10⟩) ∧
      Vault.loadStored session.codec (scene true []).store .root = .ok ([2], ⟨20⟩) := by
  have hlength : (scene true []).sessions.length = 2 := by decide +kernel
  exact ⟨rfl, rfl, rfl, (scene true []).sessions.head (nonempty hlength), List.head_mem _, rfl,
    rfl, rfl⟩

end RoomlessWitness

end ObjectVault
