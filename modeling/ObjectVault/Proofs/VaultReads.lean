/-
Reads of vaults over one store.  Any number of vaults are opened over a store,
and their calls come in any order.  A cached version may be out of date, but
never behind what its vault has shown, has committed or has synchronised with;
and it is current as long as all commits and packs go through its vault.
-/
import ObjectVault.Proofs.VaultCalls

namespace ObjectVault

open LawfulStore (Valid Holds)
open ObjectStore (current? last?)

/-- A vault in use, with what its users know. -/
structure VaultSession (α : Type) where
  vault : Vault α
  codec : Codec α
  /-- Whether every commit and pack since it was opened went through it. -/
  alone : Bool := true
  /-- The versions that it answered or committed, or that were current when it
  synchronised. -/
  seen : Oid → Tid → Prop := fun _ _ => False

/-- The session once its users know of more versions. -/
def VaultSession.sees (session : VaultSession α) (more : Oid → Tid → Prop) : VaultSession α :=
  { session with seen := fun oid tid => session.seen oid tid ∨ more oid tid }

/-- A call of a vault. -/
inductive VaultCall (α : Type) where
  | load (oid : Oid)
  | loadMany (oids : List Oid)
  | commit (clock : Clock) (call : CommitCall α)
  | pack (before : Instant) (cancelled : Bool)
  | dropHistory
  | sync
  /-- An entry leaves the cache. -/
  | evict (oid : Oid)
  | newOid

/-- What happens next.  Vaults are told apart by their places. -/
inductive VaultMove (α : Type) where
  | open (settings : Settings) (codec : Codec α)
  | call (place : Nat) (call : VaultCall α)

structure VaultScene (α σ : Type) where
  store : σ
  sessions : List (VaultSession α) := []
  /-- The versions that have been committed. -/
  committed : Version → Prop

namespace VaultScene

variable {α σ : Type} [ObjectStore σ]

/-- A store that no vault has been opened over. -/
def start (store : σ) : VaultScene α σ :=
  { store, committed := fun version => ∃ oid, current? store oid = some version }

def put (scene : VaultScene α σ) (place : Nat) (session : VaultSession α) : VaultScene α σ :=
  { scene with sessions := scene.sessions.set place session }

/-- The sessions once another vault has committed or packed. -/
def disturbed (sessions : List (VaultSession α)) : List (VaultSession α) :=
  sessions.map fun session => { session with alone := false }

/-- The scene after a call of the vault at a place. -/
def act (scene : VaultScene α σ) (place : Nat) (session : VaultSession α) :
    VaultCall α → VaultScene α σ
  | .load oid =>
      let (result, vault) := session.vault.load session.codec scene.store oid
      let session := { session with vault }
      scene.put place <| session.sees fun other tid =>
        other = oid ∧ ∃ object, result = .ok (object, tid)
  | .loadMany oids =>
      let (result, vault) := session.vault.loadMany session.codec scene.store oids
      let session := { session with vault }
      scene.put place <| session.sees fun oid tid =>
        ∃ answers object, result = .ok answers ∧ (oid, some (object, tid)) ∈ oids.zip answers
  | .commit clock call =>
      let outcome := call.answer session.codec session.vault clock scene.store
      let session' := { session with vault := outcome.vault }
      match outcome.result, call.staged session.codec session.vault clock scene.store with
      | .ok tid, .ok txn =>
          { store := outcome.store
            sessions := (disturbed scene.sessions).set place <|
              session'.sees fun oid seen => oid ∈ txn.touched ∧ seen = tid
            committed := fun version =>
              scene.committed version ∨ ∃ write ∈ txn.writes, version = write.version tid }
      | _, _ => { scene.put place session' with store := outcome.store }
  | .pack before cancelled =>
      let outcome := session.vault.pack scene.store before cancelled
      { scene with
        store := outcome.store
        sessions := (disturbed scene.sessions).set place { session with vault := outcome.vault } }
  | .dropHistory =>
      let outcome := session.vault.dropHistory scene.store
      { scene.put place { session with vault := outcome.vault } with store := outcome.store }
  | .sync =>
      match session.vault.sync scene.store with
      | .ok (_, vault) =>
          let session := { session with vault }
          scene.put place (session.sees (HasCurrent scene.store))
      | .error _ => scene
  | .evict oid =>
      scene.put place { session with
        vault := { session.vault with cache := session.vault.cache.remove oid } }
  | .newOid => { scene with store := perform scene.store .newOid }

def move (scene : VaultScene α σ) : VaultMove α → VaultScene α σ
  | .open settings codec =>
      match Vault.ofStore settings scene.store with
      | .ok vault => { scene with sessions := scene.sessions ++ [{ vault, codec }] }
      | .error _ => scene
  | .call place call =>
      match scene.sessions[place]? with
      | some session => scene.act place session call
      | none => scene

def run (scene : VaultScene α σ) (moves : List (VaultMove α)) : VaultScene α σ :=
  moves.foldl move scene

end VaultScene

section Sessions

variable {α σ : Type} [ObjectStore σ]

/-- What holds of a session at every point of a run. -/
structure VaultSession.Coherent (session : VaultSession α) (store : σ)
    (committed : Version → Prop) : Prop where
  decoded {oid : Oid} {found : Tid × α} : session.vault.cache.find? oid = some found →
    ∃ version, committed version ∧ version.oid = oid ∧ version.tid = found.1 ∧
      session.codec.decode version.state = .ok found.2
  synced_passed {tid : Tid} : session.vault.synced = some tid → Passed store tid
  le_current {oid : Oid} {found : Tid × α} {tid : Tid} :
    session.vault.cache.find? oid = some found → HasCurrent store oid tid → found.1 ≤ tid
  caught_up {oid : Oid} {found : Tid × α} {tid : Tid} :
    session.vault.cache.find? oid = some found → HasCurrent store oid tid →
      tid ≤ session.vault.synced.getD .zero → tid ≤ found.1
  seen_passed {oid : Oid} {tid : Tid} : session.seen oid tid → Passed store tid
  seen_le_current {oid : Oid} {old tid : Tid} :
    session.seen oid old → HasCurrent store oid tid → old ≤ tid
  seen_le_cached {oid : Oid} {old : Tid} {found : Tid × α} :
    session.seen oid old → session.vault.cache.find? oid = some found → old ≤ found.1
  exact {oid : Oid} {found : Tid × α} : session.alone →
    session.vault.cache.find? oid = some found → HasCurrent store oid found.1

namespace VaultSession.Coherent

variable {session : VaultSession α} {store after : σ} {committed more : Version → Prop}
  (h : session.Coherent store committed)

include h

/-- The store changes, and the cache may lose entries.  A vault that is not
alone need not have heard of the change. -/
theorem evolve {cache : Cache α} {alone : Bool} (hgrows : Grows store after)
    (hpassed : ∀ version, committed version → Passed store version.tid)
    (hmore : ∀ version, committed version → more version)
    (hsubset : ∀ oid found, cache.find? oid = some found →
      session.vault.cache.find? oid = some found)
    (halone : alone → session.alone ∧ ∀ oid found, cache.find? oid = some found →
      current? after oid = current? store oid) :
    ({ session with vault := { session.vault with cache }, alone } : VaultSession α).Coherent
      after more where
  decoded hfound := by
    obtain ⟨version, hversion, hdecoded⟩ := h.decoded (hsubset _ _ hfound)
    exact ⟨version, hmore version hversion, hdecoded⟩
  synced_passed hsynced := hgrows.passed (h.synced_passed hsynced)
  le_current {oid found tid} hfound hcurrent := by
    rcases hgrows.hasCurrent hcurrent with hold | hnew
    · exact h.le_current (hsubset oid found hfound) hold
    · obtain ⟨version, hversion, _, htid, _⟩ := h.decoded (hsubset oid found hfound)
      rw [← htid]
      exact le_of_lt (hnew _ (hpassed version hversion))
  caught_up {oid found tid} hfound hcurrent hle := by
    rcases hgrows.hasCurrent hcurrent with hold | hnew
    · exact h.caught_up (hsubset oid found hfound) hold hle
    · cases hsynced : session.vault.synced with
      | none =>
          simp only [hsynced, Option.getD_none] at hle
          exact le_trans hle (Nat.zero_le _)
      | some synced =>
          simp only [hsynced, Option.getD_some] at hle
          exact absurd (hnew synced (h.synced_passed hsynced)) (not_lt.mpr hle)
  seen_passed hseen := hgrows.passed (h.seen_passed hseen)
  seen_le_current hseen hcurrent := by
    rcases hgrows.hasCurrent hcurrent with hold | hnew
    · exact h.seen_le_current hseen hold
    · exact le_of_lt (hnew _ (h.seen_passed hseen))
  seen_le_cached hseen hfound := h.seen_le_cached hseen (hsubset _ _ hfound)
  exact {oid found} hsole hfound := by
    obtain ⟨hbefore, hkept⟩ := halone hsole
    obtain ⟨version, hversion, htid⟩ := h.exact hbefore (hsubset oid found hfound)
    exact ⟨version, (hkept oid found hfound).trans hversion, htid⟩

/-- The users may come to know of versions that nothing is behind. -/
theorem sees {more : Oid → Tid → Prop} (hpassed : ∀ oid tid, more oid tid → Passed store tid)
    (hcurrent : ∀ oid old tid, more oid old → HasCurrent store oid tid → old ≤ tid)
    (hcached : ∀ oid old found, more oid old → session.vault.cache.find? oid = some found →
      old ≤ found.1) : (session.sees more).Coherent store committed where
  decoded := h.decoded
  synced_passed := h.synced_passed
  le_current := h.le_current
  caught_up := h.caught_up
  seen_passed := by
    rintro oid tid (hseen | hmore)
    · exact h.seen_passed hseen
    · exact hpassed oid tid hmore
  seen_le_current := by
    rintro oid old tid (hseen | hmore) hnow
    · exact h.seen_le_current hseen hnow
    · exact hcurrent oid old tid hmore hnow
  seen_le_cached := by
    rintro oid old found (hseen | hmore) hfound
    · exact h.seen_le_cached hseen hfound
    · exact hcached oid old found hmore hfound
  exact := h.exact

variable [LawfulStore σ]

/-- A change that the vault's cache follows leaves it as alone as it was. -/
theorem follow {later : Cache α} (hfollows : Follows store session.vault.cache after later)
    (hpassed : ∀ version, committed version → Passed store version.tid)
    (hmore : ∀ version, committed version → more version) :
    ({ session with vault := { session.vault with cache := later } } : VaultSession α).Coherent
      after more := by
  apply h.evolve hfollows.grows hpassed hmore
  · intro oid found hfound
    exact (hfollows.kept oid found hfound).1
  · intro halone
    refine ⟨halone, ?_⟩
    intro oid found hfound
    exact (hfollows.kept oid found hfound).2

/-- A read may add current versions to the cache. -/
theorem read {later : Vault α} (hvalid : Valid store)
    (hrecorded : ∀ oid version, current? store oid = some version → committed version)
    (hleaves : Leaves session.codec store session.vault later) :
    ({ session with vault := later } : VaultSession α).Coherent store committed := by
  obtain ⟨cache, rfl⟩ := hleaves.frame
  have hcases : ∀ {oid : Oid} {found : Tid × α}, cache.find? oid = some found →
      session.vault.cache.find? oid = some found ∨ Decodes session.codec store oid found :=
    fun hfound => hleaves.fills _ _ hfound
  have hsame : ∀ {oid : Oid} {found : Tid × α} {tid : Tid},
      Decodes session.codec store oid found → HasCurrent store oid tid → found.1 = tid := by
    rintro oid found tid ⟨version, hversion, htid, _⟩ hcurrent
    exact HasCurrent.unique ⟨version, hversion, htid⟩ hcurrent
  constructor
  · intro oid found hfound
    rcases hcases hfound with hold | ⟨version, hversion, htid, hdecode⟩
    · exact h.decoded hold
    · exact ⟨version, hrecorded oid version hversion, LawfulStore.current_oid hvalid hversion,
        htid, hdecode⟩
  · exact h.synced_passed
  · intro oid found tid hfound hcurrent
    rcases hcases hfound with hold | hdecodes
    · exact h.le_current hold hcurrent
    · exact le_of_eq (hsame hdecodes hcurrent)
  · intro oid found tid hfound hcurrent hle
    rcases hcases hfound with hold | hdecodes
    · exact h.caught_up hold hcurrent hle
    · exact le_of_eq (hsame hdecodes hcurrent).symm
  · exact h.seen_passed
  · exact h.seen_le_current
  · intro oid old found hseen hfound
    rcases hcases hfound with hcached | ⟨version, hversion, htid, _⟩
    · exact h.seen_le_cached hseen hcached
    · exact h.seen_le_current hseen ⟨version, hversion, htid⟩
  · intro oid found halone hfound
    rcases hcases hfound with hold | ⟨version, hversion, htid, _⟩
    · exact h.exact halone hold
    · exact ⟨version, hversion, htid⟩

end VaultSession.Coherent

end Sessions

namespace VaultScene

variable {α σ : Type} [ObjectStore σ] [LawfulStore σ]

/-- What holds at every point of a run.  Committed versions are told apart by
object and tid. -/
structure Coherent (scene : VaultScene α σ) : Prop where
  valid : Valid scene.store
  recorded (oid : Oid) (version : Version) : current? scene.store oid = some version →
    scene.committed version
  passed (version : Version) : scene.committed version → Passed scene.store version.tid
  unique {version other : Version} : scene.committed version → scene.committed other →
    version.oid = other.oid → version.tid = other.tid → version = other
  sessions : ∀ session ∈ scene.sessions, session.Coherent scene.store scene.committed

theorem coherent_start {store : σ} (hvalid : Valid store) :
    (start store : VaultScene α σ).Coherent where
  valid := hvalid
  recorded oid version hcurrent := ⟨oid, hcurrent⟩
  passed version := by
    rintro ⟨oid, hcurrent⟩
    exact LawfulStore.current_passed hvalid hcurrent
  unique := by
    rintro version other ⟨oid, hversion⟩ ⟨oid', hother⟩ hoid _
    rw [LawfulStore.current_oid hvalid hversion, LawfulStore.current_oid hvalid hother] at hoid
    cases hoid
    exact Option.some.inj (hversion.symm.trans hother)
  sessions := nofun

variable {scene : VaultScene α σ}

/-- What a read may answer. -/
structure Answers (scene : VaultScene α σ) (session : VaultSession α) (oid : Oid) (object : α)
    (tid : Tid) : Prop where
  /-- The object is what was committed for that object and tid. -/
  decoded : ∃ version, scene.committed version ∧ version.oid = oid ∧ version.tid = tid ∧
    session.codec.decode version.state = .ok object
  /-- It is not behind what the vault has shown before. -/
  recent {old : Tid} : session.seen oid old → old ≤ tid
  /-- It is current if all commits and packs go through the vault. -/
  exact : session.alone → ∃ version, current? scene.store oid = some version ∧
    version.tid = tid ∧ session.codec.decode version.state = .ok object

theorem Coherent.answers (h : scene.Coherent) {session : VaultSession α}
    (hsession : session.Coherent scene.store scene.committed) {oid : Oid} {object : α} {tid : Tid}
    (hreads : Reads session.codec session.vault.cache scene.store oid (some (object, tid))) :
    scene.Answers session oid object tid := by
  cases hreads with
  | cached hfound =>
      obtain ⟨version, hcommitted, hoid, htid, hdecode⟩ := hsession.decoded hfound
      refine ⟨⟨version, hcommitted, hoid, htid, hdecode⟩, ?_, ?_⟩
      · intro old hseen
        exact hsession.seen_le_cached hseen hfound
      · intro halone
        obtain ⟨current, hcurrent, hsame⟩ := hsession.exact halone hfound
        have heq : current = version := by
          apply h.unique (h.recorded oid current hcurrent) hcommitted
          · rw [LawfulStore.current_oid h.valid hcurrent, hoid]
          · exact hsame.trans htid.symm
        exact ⟨current, hcurrent, hsame, heq ▸ hdecode⟩
  | current hmiss hcurrent hdecode =>
      rename_i version
      have hoid := LawfulStore.current_oid h.valid hcurrent
      refine ⟨⟨version, h.recorded oid version hcurrent, hoid, rfl, hdecode⟩, ?_, ?_⟩
      · intro old hseen
        exact hsession.seen_le_current hseen ⟨version, hcurrent, rfl⟩
      · exact fun _ => ⟨version, hcurrent, rfl, hdecode⟩

section Reading

variable (h : scene.Coherent) {session : VaultSession α}
  (hsession : session.Coherent scene.store scene.committed)

include h hsession

/-- What is read is not behind later answers of the vault. -/
theorem Coherent.reading {later : Vault α} {more : Oid → Tid → Prop}
    (hleaves : Leaves session.codec scene.store session.vault later)
    (hmore : ∀ oid tid, more oid tid → ∃ object,
      Reads session.codec session.vault.cache scene.store oid (some (object, tid))) :
    (({ session with vault := later } : VaultSession α).sees more).Coherent
      scene.store scene.committed := by
  apply (hsession.read h.valid h.recorded hleaves).sees
  · intro oid tid hread
    obtain ⟨object, hreads⟩ := hmore oid tid hread
    obtain ⟨version, hcommitted, _, htid, _⟩ := (h.answers hsession hreads).decoded
    rw [← htid]
    exact h.passed version hcommitted
  · intro oid old tid hread hcurrent
    obtain ⟨object, hreads⟩ := hmore oid old hread
    cases hreads with
    | cached hfound => exact hsession.le_current hfound hcurrent
    | current _ hversion _ => exact le_of_eq (HasCurrent.unique ⟨_, hversion, rfl⟩ hcurrent)
  · intro oid old found hread hlater
    obtain ⟨object, hreads⟩ := hmore oid old hread
    have hcases := hleaves.fills oid found hlater
    cases hreads with
    | cached hfound =>
        rcases hcases with hcached | ⟨version, hversion, htid, _⟩
        · cases hfound.symm.trans hcached
          exact le_refl _
        · exact hsession.le_current hfound ⟨version, hversion, htid⟩
    | current hmiss hcurrent _ =>
        rcases hcases with hcached | ⟨version, hversion, htid, _⟩
        · cases hmiss.symm.trans hcached
        · cases hcurrent.symm.trans hversion
          exact le_of_eq htid

omit [LawfulStore σ] h hsession in
theorem mem_put {place : Nat} {sessions : List (VaultSession α)} {other : VaultSession α}
    {holds : VaultSession α → Prop} (hsessions : ∀ session ∈ sessions, holds session)
    (hother : holds other) : ∀ session ∈ sessions.set place other, holds session := by
  intro session hmem
  rcases List.mem_or_eq_of_mem_set hmem with hbefore | rfl
  · exact hsessions session hbefore
  · exact hother

omit hsession in
theorem Coherent.put {place : Nat} (hsession : session.Coherent scene.store scene.committed) :
    (scene.put place session).Coherent where
  valid := h.valid
  recorded := h.recorded
  passed := h.passed
  unique := h.unique
  sessions := mem_put h.sessions hsession

theorem Coherent.load (place : Nat) (oid : Oid) :
    (scene.act place session (.load oid)).Coherent := by
  obtain ⟨hleaves, hanswer, _⟩ := Vault.load_spec h.valid session.vault oid
  apply h.put
  apply h.reading hsession hleaves
  rintro _ tid ⟨rfl, object, hresult⟩
  exact ⟨object, hanswer object tid hresult⟩

theorem Coherent.loadMany (place : Nat) (oids : List Oid) :
    (scene.act place session (.loadMany oids)).Coherent := by
  obtain ⟨hleaves, hanswers⟩ := Vault.loadMany_spec h.valid session.vault oids
  apply h.put
  apply h.reading hsession hleaves
  rintro oid tid ⟨answers, object, hresult, hmem⟩
  exact ⟨object, (List.forall₂_iff_zip.mp (hanswers answers hresult)).2 hmem⟩

theorem Coherent.sync (place : Nat) : (scene.act place session .sync).Coherent := by
  simp only [act]
  split
  · rename_i count later hsync
    obtain ⟨⟨cache, hlater⟩, hkept⟩ :=
      Vault.sync_spec h.valid (fun _ => hsession.synced_passed) hsync
    subst hlater
    have hbehind : ∀ {oid : Oid} {found : Tid × α} {tid : Tid}, cache.find? oid = some found →
        HasCurrent scene.store oid tid → tid ≤ found.1 := by
      rintro oid found tid hfound ⟨version, hversion, rfl⟩
      obtain ⟨hcached, hsynced⟩ := hkept oid found hfound
      exact hsession.caught_up hcached ⟨version, hversion, rfl⟩ (hsynced version hversion)
    have hrefreshed : ({ session with vault := { session.vault with
        cache, synced := Tid.latest session.vault.synced (last? scene.store) } }
          : VaultSession α).Coherent scene.store scene.committed := by
      constructor
      · intro oid found hfound
        exact hsession.decoded (hkept oid found hfound).1
      · intro tid hsynced
        rcases MemoryStore.latest_eq_some hsynced with hold | hlast
        · exact hsession.synced_passed hold
        · exact ⟨tid, hlast, le_refl tid⟩
      · intro oid found tid hfound hcurrent
        exact hsession.le_current (hkept oid found hfound).1 hcurrent
      · intro oid found tid hfound hcurrent _
        exact hbehind hfound hcurrent
      · exact hsession.seen_passed
      · exact hsession.seen_le_current
      · intro oid old found hseen hfound
        exact hsession.seen_le_cached hseen (hkept oid found hfound).1
      · intro oid found halone hfound
        exact hsession.exact halone (hkept oid found hfound).1
    apply h.put
    apply hrefreshed.sees
    · rintro oid tid ⟨version, hversion, rfl⟩
      exact LawfulStore.current_passed h.valid hversion
    · intro oid old tid hcurrent hlater
      exact le_of_eq (hcurrent.unique hlater)
    · intro oid old found hcurrent hfound
      exact hbehind hfound hcurrent
  · exact h

theorem Coherent.evict (place : Nat) (oid : Oid) :
    (scene.act place session (.evict oid)).Coherent := by
  have hsubset : ∀ other found, (session.vault.cache.remove oid).find? other = some found →
      session.vault.cache.find? other = some found := by
    intro other found hfound
    rw [Cache.find?_remove, Option.ite_none_left_eq_some] at hfound
    exact hfound.2
  apply h.put
  apply hsession.evolve (.refl scene.store) h.passed (fun _ => id) hsubset
  exact fun halone => ⟨halone, fun _ _ _ => rfl⟩

end Reading

section Changing

variable (h : scene.Coherent) {after : σ}

include h

/-- Work that loses nothing keeps a scene coherent. -/
theorem Coherent.restore (hvalid : Valid after) (hloses : Loses scene.store [] after) :
    ({ scene with store := after } : VaultScene α σ).Coherent where
  valid := hvalid
  recorded oid version hcurrent := h.recorded oid version ((hloses.current oid).symm.trans hcurrent)
  passed version hcommitted := hloses.grows.passed (h.passed version hcommitted)
  unique := h.unique
  sessions := by
    intro session hmem
    apply (h.sessions session hmem).evolve hloses.grows h.passed (fun _ => id) (fun _ _ => id)
    exact fun halone => ⟨halone, fun oid _ _ => hloses.current oid⟩

theorem Coherent.newOid (place : Nat) (session : VaultSession α) :
    (scene.act place session .newOid).Coherent := by
  have hquiet : StoreAction.newOid.isQuiet := rfl
  obtain ⟨hvalid, hloses⟩ := loses_perform h.valid hquiet
  exact h.restore hvalid hloses

theorem Coherent.dropHistory {session : VaultSession α}
    (hsession : session.Coherent scene.store scene.committed) (place : Nat) :
    (scene.act place session .dropHistory).Coherent := by
  obtain ⟨hvalid, hloses, cache, hvault, hsubset⟩ :=
    Vault.dropHistory_spec h.valid session.vault
  have hrestored := h.restore hvalid hloses
  simp only [act, hvault]
  apply hrestored.put
  apply hsession.evolve hloses.grows h.passed (fun _ => id) hsubset
  exact fun halone => ⟨halone, fun oid _ _ => hloses.current oid⟩

/-- The other vaults are no longer alone after a commit or a pack. -/
theorem Coherent.disturbed (hgrows : Grows scene.store after) {more : Version → Prop}
    (hmore : ∀ version, scene.committed version → more version) :
    ∀ session ∈ disturbed scene.sessions, session.Coherent after more := by
  intro session hmem
  obtain ⟨before, hbefore, rfl⟩ := List.mem_map.mp hmem
  exact (h.sessions before hbefore).evolve hgrows h.passed hmore (fun _ _ => id) nofun

theorem Coherent.pack {session : VaultSession α}
    (hsession : session.Coherent scene.store scene.committed) (place : Nat) (before : Instant)
    (cancelled : Bool) : (scene.act place session (.pack before cancelled)).Coherent := by
  obtain ⟨⟨cache, hvault⟩, hfollows⟩ := Vault.pack_spec h.valid session.vault before cancelled
  rw [hvault] at hfollows
  simp only [act, hvault]
  constructor
  · exact hfollows.valid
  · intro oid version hcurrent
    exact h.recorded oid version (hfollows.current oid version hcurrent)
  · intro version hcommitted
    exact hfollows.grows.passed (h.passed version hcommitted)
  · exact h.unique
  · apply mem_put (h.disturbed hfollows.grows fun _ => id)
    exact hsession.follow hfollows h.passed fun _ => id

/-- The versions that a commit makes are new, and told apart by their
objects. -/
theorem Coherent.unique_commits {tid : Tid} {writes : List Write}
    (hcommits : Commits scene.store tid writes after) {version other : Version}
    (hversion : scene.committed version ∨ ∃ write ∈ writes, version = write.version tid)
    (hother : scene.committed other ∨ ∃ write ∈ writes, other = write.version tid)
    (hoid : version.oid = other.oid) (htid : version.tid = other.tid) : version = other := by
  rcases hversion with hold | ⟨write, hwrite, rfl⟩
  · rcases hother with hother | ⟨write, _, rfl⟩
    · exact h.unique hold hother hoid htid
    · exact absurd htid (ne_of_lt (hcommits.above (h.passed version hold)))
  · rcases hother with hold | ⟨write', hwrite', rfl⟩
    · exact absurd htid (ne_of_gt (hcommits.above (h.passed other hold)))
    · have hsame : write = write' := List.inj_on_of_nodup_map hcommits.distinct hwrite hwrite' hoid
      rw [hsame]

/-- A commit through a vault keeps a scene coherent.  The vault drops what it
wrote, and the others are no longer alone. -/
theorem Coherent.committing {session : VaultSession α}
    (hsession : session.Coherent scene.store scene.committed) (place : Nat) {tid : Tid}
    {writes : List Write} (hvalid : Valid after) (hcommits : Commits scene.store tid writes after) :
    ({ store := after
       sessions := (VaultScene.disturbed scene.sessions).set place <| VaultSession.sees
         { session with vault := { session.vault with
            cache := session.vault.cache.invalidate (writes.map Write.oid) } }
         fun oid seen => oid ∈ writes.map Write.oid ∧ seen = tid
       committed := fun version =>
         scene.committed version ∨ ∃ write ∈ writes, version = write.version tid }
      : VaultScene α σ).Coherent := by
  have hleft : ∀ oid found,
      (session.vault.cache.invalidate (writes.map Write.oid)).find? oid = some found →
        oid ∉ writes.map Write.oid ∧ session.vault.cache.find? oid = some found := by
    intro oid found hfound
    rw [Cache.find?_invalidate, Option.ite_none_left_eq_some] at hfound
    exact hfound
  constructor
  · exact hvalid
  · intro oid version hversion
    by_cases hmem : oid ∈ writes.map Write.oid
    · exact Or.inr (hcommits.current_written hmem hversion)
    · exact Or.inl (h.recorded oid version ((hcommits.others hmem).symm.trans hversion))
  · rintro version (hold | ⟨write, _, rfl⟩)
    · exact hcommits.grows.passed (h.passed version hold)
    · exact ⟨tid, hcommits.last, le_refl tid⟩
  · exact h.unique_commits hcommits
  · apply mem_put (h.disturbed hcommits.grows fun _ => Or.inl)
    apply VaultSession.Coherent.sees
    · apply hsession.evolve hcommits.grows h.passed (fun _ => Or.inl)
      · intro oid found hfound
        exact (hleft oid found hfound).2
      · intro halone
        refine ⟨halone, ?_⟩
        intro oid found hfound
        exact hcommits.others (hleft oid found hfound).1
    · rintro oid _ ⟨_, rfl⟩
      exact ⟨_, hcommits.last, le_refl _⟩
    · rintro oid _ other ⟨hmem, rfl⟩ ⟨version, hversion, rfl⟩
      obtain ⟨write, _, rfl⟩ := hcommits.current_written hmem hversion
      exact le_refl _
    · rintro oid _ found ⟨hmem, rfl⟩ hfound
      exact absurd hmem (hleft oid found hfound).1

theorem Coherent.commit {session : VaultSession α}
    (hsession : session.Coherent scene.store scene.committed) (place : Nat) (clock : Clock)
    (call : CommitCall α)
    (hholds : ∀ version, (scene.act place session (.commit clock call)).committed version →
      Holds σ version.tid) : (scene.act place session (.commit clock call)).Coherent := by
  rcases call.answer_cases session.codec session.vault clock scene.store with
    ⟨hstore, hvault, hempty⟩ | ⟨tid, txn, hresult, hstaged, hne, hcommit, hvault⟩
  · simp only [act, hstore, hvault]
    split
    · rename_i tid txn hresult hstaged
      have hnil : txn.writes = [] := hempty tid txn hresult hstaged
      simp only [Transaction.touched, hnil, List.map_nil, List.not_mem_nil, false_and, exists_false,
        or_false]
      constructor
      · exact h.valid
      · exact h.recorded
      · exact h.passed
      · exact h.unique
      · apply mem_put (h.disturbed (.refl scene.store) fun _ => id)
        exact hsession.sees nofun nofun nofun
    · exact h.put hsession
  · simp only [act, hresult, hstaged, hvault] at hholds ⊢
    obtain ⟨write, hwrite⟩ := List.exists_mem_of_ne_nil txn.writes hne
    have htid : Holds σ tid := hholds (write.version tid) (Or.inr ⟨write, hwrite, rfl⟩)
    obtain ⟨hvalid, hcommits⟩ := LawfulStore.commit_eq_ok h.valid htid hcommit
    exact h.committing hsession place hvalid hcommits

end Changing

/-- A vault just opened has synchronised with the last commit. -/
theorem ofStore_eq_ok {store : σ} (hvalid : Valid store) {settings : Settings} {vault : Vault α}
    (h : Vault.ofStore settings store = .ok vault) :
    (∀ oid, vault.cache.find? oid = none) ∧ vault.synced = last? store := by
  simp only [Vault.ofStore, LawfulStore.lastTid_eq hvalid] at h
  obtain ⟨checked, _, hrest⟩ := bind_eq_ok.mp h
  split at hrest
  · cases hrest
  · cases hrest
    constructor
    · intro oid
      simp [Cache.find?, Cache.ofMegabytes]
    · rfl

theorem Coherent.open (h : scene.Coherent) (settings : Settings) (codec : Codec α) :
    (scene.move (.open settings codec)).Coherent := by
  simp only [move]
  split
  · rename_i vault hvault
    obtain ⟨hempty, hsynced⟩ := ofStore_eq_ok h.valid hvault
    have hnone : ∀ {oid found}, vault.cache.find? oid ≠ some found := by
      intro oid found hfound
      rw [hempty] at hfound
      cases hfound
    have hopened : ({ vault, codec } : VaultSession α).Coherent scene.store scene.committed := by
      constructor
      · exact fun hfound => absurd hfound hnone
      · intro tid hlast
        exact ⟨tid, hsynced.symm.trans hlast, le_refl tid⟩
      · exact fun hfound => absurd hfound hnone
      · exact fun hfound => absurd hfound hnone
      · nofun
      · nofun
      · nofun
      · exact fun _ hfound => absurd hfound hnone
    refine ⟨h.valid, h.recorded, h.passed, h.unique, ?_⟩
    intro session hmem
    rcases List.mem_append.mp hmem with hbefore | hlast
    · exact h.sessions session hbefore
    · cases List.mem_singleton.mp hlast
      exact hopened
  · exact h

theorem Coherent.move (h : scene.Coherent) (move : VaultMove α)
    (hholds : ∀ version, (scene.move move).committed version → Holds σ version.tid) :
    (scene.move move).Coherent := by
  cases move with
  | «open» settings codec => exact h.open settings codec
  | call place call =>
      simp only [VaultScene.move] at hholds ⊢
      split
      · rename_i session hplace
        simp only [hplace] at hholds
        have hsession := h.sessions session (List.mem_of_getElem? hplace)
        cases call with
        | load oid => exact h.load hsession place oid
        | loadMany oids => exact h.loadMany hsession place oids
        | commit clock call => exact h.commit hsession place clock call hholds
        | pack before cancelled => exact h.pack hsession place before cancelled
        | dropHistory => exact h.dropHistory hsession place
        | sync => exact h.sync hsession place
        | evict oid => exact h.evict hsession place oid
        | newOid => exact h.newOid place session
      · exact h

omit [LawfulStore σ] in
/-- What was committed stays so. -/
theorem committed_move (scene : VaultScene α σ) (move : VaultMove α) (version : Version)
    (hcommitted : scene.committed version) : (scene.move move).committed version := by
  cases move with
  | «open» =>
      simp only [VaultScene.move]
      split <;> exact hcommitted
  | call place call =>
      simp only [VaultScene.move]
      split
      · cases call with
        | commit clock call =>
            simp only [act]
            split
            · exact Or.inl hcommitted
            · exact hcommitted
        | sync =>
            simp only [act]
            split <;> exact hcommitted
        | load | loadMany | pack | dropHistory | evict | newOid => exact hcommitted
      · exact hcommitted

omit [LawfulStore σ] in
theorem committed_run (scene : VaultScene α σ) (moves : List (VaultMove α)) (version : Version)
    (hcommitted : scene.committed version) : (scene.run moves).committed version := by
  induction moves generalizing scene with
  | nil => exact hcommitted
  | cons move rest ih => exact ih (scene.move move) (committed_move scene move version hcommitted)

theorem Coherent.run (h : scene.Coherent) (moves : List (VaultMove α))
    (hholds : ∀ version, (scene.run moves).committed version → Holds σ version.tid) :
    (scene.run moves).Coherent := by
  induction moves generalizing scene with
  | nil => exact h
  | cons move rest ih =>
      apply ih
      · apply h.move
        intro version hcommitted
        exact hholds version (committed_run (scene.move move) rest version hcommitted)
      · exact hholds

end VaultScene

/-- Reads are coherent across the vaults of one store.  Whatever a vault
answers was committed under the tid that it answers, is not behind what the
vault has shown, committed or synchronised with, and is current if all commits
and packs go through the vault.  It answers nothing only for objects that do
not exist. -/
theorem vault_reads_coherent {α σ : Type} [ObjectStore σ] [LawfulStore σ] {store : σ}
    (hvalid : Valid store) (moves : List (VaultMove α))
    (hholds : ∀ version, ((VaultScene.start store).run moves).committed version →
      Holds σ version.tid) :
    let scene := (VaultScene.start store).run moves
    ∀ session ∈ scene.sessions,
      (∀ oid object tid, (session.vault.load session.codec scene.store oid).1 = .ok (object, tid) →
        scene.Answers session oid object tid) ∧
      (∀ oid, (session.vault.load session.codec scene.store oid).1 = .error (.notFound oid) →
        current? scene.store oid = none) ∧
      (session.alone → ∀ oid, current? scene.store oid = none →
        (session.vault.load session.codec scene.store oid).1 = .error (.notFound oid)) ∧
      ∀ oids answers, (session.vault.loadMany session.codec scene.store oids).1 = .ok answers →
        List.Forall₂ (fun oid answer => match answer with
          | some (object, tid) => scene.Answers session oid object tid
          | none => current? scene.store oid = none) oids answers := by
  intro scene session hmem
  have hscene : scene.Coherent := (VaultScene.coherent_start hvalid).run moves hholds
  have hsession := hscene.sessions session hmem
  refine ⟨?_, ?_, ?_, ?_⟩
  · intro oid object tid hanswer
    obtain ⟨_, hreads, _⟩ := Vault.load_spec hscene.valid session.vault oid
    exact hscene.answers hsession (hreads object tid hanswer)
  · intro oid hmissing
    obtain ⟨_, _, habsent⟩ := Vault.load_spec hscene.valid session.vault oid
    cases habsent.mp hmissing with
    | absent _ hnone => exact hnone
  · intro halone oid hnone
    obtain ⟨_, _, habsent⟩ := Vault.load_spec hscene.valid session.vault oid
    refine habsent.mpr (.absent ?_ hnone)
    cases hfound : session.vault.cache.find? oid with
    | none => rfl
    | some found =>
        obtain ⟨version, hversion, _⟩ := hsession.exact halone hfound
        cases hnone.symm.trans hversion
  · intro oids answers hanswer
    obtain ⟨_, hanswers⟩ := Vault.loadMany_spec hscene.valid session.vault oids
    refine (hanswers answers hanswer).imp ?_
    rintro oid (_ | ⟨object, tid⟩) hreads
    · cases hreads with
      | absent _ hnone => exact hnone
    · exact hscene.answers hsession hreads

namespace ReadsWitness

/-- Objects are their own states. -/
def codec : Codec Bytes where
  encode object := .ok ⟨object, ∅⟩
  decode state := .ok state

def clock (micros : Int) : Clock := ⟨.ofMicros micros, 0⟩

/-- The first of two vaults creates the root and loads it; the second replaces
it, and the first synchronises. -/
def moves : List (VaultMove Bytes) :=
  [.open {} codec, .open {} codec,
    .call 0 (.commit (clock 10) (.objects {} [⟨.root, none, [1], none⟩])),
    .call 0 (.load .root),
    .call 1 (.commit (clock 20) (.objects {} [⟨.root, some ⟨10⟩, [2], none⟩])),
    .call 0 .sync]

def scene : VaultScene Bytes MemoryStore := (VaultScene.start (.empty false)).run moves

theorem nonempty : scene.sessions ≠ [] := by
  have hlength : scene.sessions.length = 2 := by decide +kernel
  intro hnil
  rw [hnil] at hlength
  cases hlength

/-- The first vault then answers what the second has committed. -/
theorem reads_after_sync :
    let session := scene.sessions.head nonempty
    (session.vault.load session.codec scene.store .root).1 = .ok ([2], ⟨20⟩) ∧
      scene.Answers session .root [2] ⟨20⟩ := by
  have hvalid : Valid (MemoryStore.empty false) := MemoryStore.sound_empty
  have hanswer : ((scene.sessions.head nonempty).vault.load (scene.sessions.head nonempty).codec
      scene.store .root).1 = .ok ([2], ⟨20⟩) := rfl
  obtain ⟨hload, _⟩ := vault_reads_coherent hvalid moves (fun _ _ => trivial) _
    (List.head_mem nonempty)
  exact ⟨hanswer, hload _ _ _ hanswer⟩

end ReadsWitness

end ObjectVault
