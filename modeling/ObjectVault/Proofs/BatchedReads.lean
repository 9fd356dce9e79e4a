/-
Reads of several objects at once.  The cache is asked first, the store is then
asked for all the gaps together, and what it answers is put into the gaps one by
one, while each fill may evict entries that were found before.  What comes out
at each place is what a read of that object alone would answer.
-/
import ObjectVault.Proofs.VaultReads

namespace ObjectVault

open ObjectStore (current?)

namespace Vault

variable {α : Type}

/-- What a read of the object alone answers, or none if there is no object. -/
def answerAt [ObjectStore σ] (codec : Codec α) (vault : Vault α) (store : σ) (oid : Oid) :
    Except VaultError (Option (α × Tid)) :=
  match (vault.load codec store oid).1 with
  | .ok found => .ok (some found)
  | .error (.notFound _) => .ok none
  | .error error => .error error

/-- What is put into a gap, by what the store has of the object. -/
def decoded (codec : Codec α) : Option Version → Except VaultError (Option (α × Tid))
  | none => .ok none
  | some version => match codec.decode version.state with
    | .error fault => .error (.codec fault)
    | .ok object => .ok (some (object, version.tid))

/-- The object is not cached, and its current version does not decode. -/
def Undecodable [ObjectStore σ] (codec : Codec α) (vault : Vault α) (store : σ) (oid : Oid)
    (fault : CodecError) : Prop :=
  vault.cache.find? oid = none ∧ ∃ version, ObjectStore.load store oid = .ok (some version) ∧
    codec.decode version.state = .error fault

section

variable {σ : Type} [ObjectStore σ] {codec : Codec α} {vault : Vault α} {store : σ} {oid : Oid}

theorem answerAt_of_cached {tid : Tid} {object : α}
    (hfound : vault.cache.find? oid = some (tid, object)) :
    vault.answerAt codec store oid = .ok (some (object, tid)) := by
  rw [← Cache.get_fst] at hfound
  simp only [answerAt, load, hfound]

theorem answerAt_of_missing (hmissing : vault.cache.find? oid = none) {found : Option Version}
    (hload : ObjectStore.load store oid = .ok found) :
    vault.answerAt codec store oid = decoded codec found := by
  rw [← Cache.get_fst] at hmissing
  cases found with
  | none => simp only [answerAt, load, hmissing, hload, decoded]
  | some version =>
      simp only [answerAt, load, hmissing, hload, fill, decoded]
      cases codec.decode version.state <;> rfl

theorem decoded_eq_error_iff {found : Option Version} {error : VaultError} :
    decoded codec found = .error error ↔ ∃ fault version, error = .codec fault ∧
      found = some version ∧ codec.decode version.state = .error fault := by
  cases found with
  | none => simp [decoded]
  | some version =>
      rw [decoded]
      cases hdecode : codec.decode version.state <;> simp [hdecode, eq_comm]

/-- A read of one object fails if and only if it finds what does not decode. -/
theorem answerAt_eq_error_iff
    (hanswer : vault.cache.find? oid = none → ∃ found, ObjectStore.load store oid = .ok found)
    {error : VaultError} : vault.answerAt codec store oid = .error error ↔
      ∃ fault, error = .codec fault ∧ Undecodable codec vault store oid fault := by
  cases hcached : vault.cache.find? oid with
  | some found =>
      rw [answerAt_of_cached hcached]
      refine iff_of_false nofun ?_
      rintro ⟨fault, _, hmissing, _⟩
      cases hcached.symm.trans hmissing
  | none =>
      obtain ⟨found, hload⟩ := hanswer hcached
      rw [answerAt_of_missing hcached hload, decoded_eq_error_iff]
      simp only [Undecodable, hcached, hload, true_and, Except.ok.injEq, exists_and_left]

/-- The gaps are filled with what single reads answer, whatever the cache holds
by then. -/
theorem fillGaps_fst (ticket : FillTicket) (later : Vault α) (oids : List Oid)
    (hanswers : ∀ oid ∈ oids, vault.cache.find? oid = none →
      ∃ found, ObjectStore.load store oid = .ok found) :
    (fillGaps codec ticket later (oids.map fun oid => (oid, vault.cache.find? oid))
        ((oids.filter fun oid => (vault.cache.find? oid).isNone).map (current? store))).1 =
      oids.mapM (vault.answerAt codec store) := by
  induction oids generalizing later with
  | nil => rfl
  | cons oid rest ih =>
      obtain ⟨hanswer, hrest⟩ := List.forall_mem_cons.mp hanswers
      rw [List.map_cons]
      cases hcached : vault.cache.find? oid with
      | some found =>
          rw [mapM_cons_of_ok (answerAt_of_cached hcached),
            List.filter_cons_of_neg (by simp [hcached]), fillGaps, ← ih later hrest]
      | none =>
          obtain ⟨found, hload⟩ := hanswer hcached
          have hsingle : vault.answerAt codec store oid = decoded codec found :=
            answerAt_of_missing hcached hload
          have hcurrent : current? store oid = found := by rw [current?, hload]
          rw [List.filter_cons_of_pos (by simp [hcached]), List.map_cons, hcurrent]
          cases found with
          | none =>
              rw [mapM_cons_of_ok hsingle, ← ih later hrest]
              rfl
          | some version =>
              rw [fillGaps, fill]
              rw [decoded] at hsingle
              cases hdecode : codec.decode version.state with
              | error fault =>
                  rw [hdecode] at hsingle
                  rw [mapM_cons_of_error hsingle]
              | ok object =>
                  rw [hdecode] at hsingle
                  rw [mapM_cons_of_ok hsingle, ← ih _ hrest]

end

end Vault

/-- Either store answers a request for several objects with their current
versions, if it answers a request for each. -/
theorem Backend.loadMany_eq (backend : Backend) {oids : List Oid} (hne : oids ≠ [])
    (hanswers : ∀ oid ∈ oids, ∃ found, ObjectStore.load backend oid = .ok found) :
    ObjectStore.loadMany backend oids = .ok (oids.map (current? backend)) := by
  have hload : ∀ oid ∈ oids, ObjectStore.load backend oid = .ok (current? backend oid) := by
    intro oid hmem
    obtain ⟨found, hfound⟩ := hanswers oid hmem
    rw [current?, hfound]
  cases backend with
  | memory store =>
      obtain ⟨oid, hmem⟩ := List.exists_mem_of_ne_nil oids hne
      have honline : store.offline = false := (MemoryStore.online_eq_ok (hload oid hmem)).1
      have hcurrent : ∀ oid, current? (Backend.memory store) oid = store.current[oid]? := by
        intro oid
        have hanswer : ObjectStore.load (Backend.memory store) oid = .ok store.current[oid]? :=
          MemoryStore.online_eq honline _
        rw [current?, hanswer]
      have hmany : ObjectStore.loadMany (Backend.memory store) oids =
          .ok (oids.map (store.current[·]?)) := MemoryStore.online_eq honline _
      rw [hmany, funext hcurrent]
  | relational store => exact mapM_eq_pure (current? (Backend.relational store)) hload

namespace Vault

variable {α : Type}

theorem loadMany_fst (codec : Codec α) (vault : Vault α) (backend : Backend) {oids : List Oid}
    (hanswers : ∀ oid ∈ oids, vault.cache.find? oid = none →
      ∃ found, ObjectStore.load backend oid = .ok found) :
    (vault.loadMany codec backend oids).1 = oids.mapM (vault.answerAt codec backend) := by
  obtain ⟨hfound, _⟩ := lookUp_spec vault.cache oids
  simp only [loadMany, hfound, missing_eq]
  split
  · rename_i hnone
    -- all objects are cached
    have hcached : ∀ oid ∈ oids, vault.answerAt codec backend oid =
        .ok ((vault.cache.find? oid).map Prod.swap) := by
      intro oid hmem
      cases hentry : vault.cache.find? oid with
      | some found => exact answerAt_of_cached hentry
      | none =>
          have hmissing : oid ∈ oids.filter fun oid => (vault.cache.find? oid).isNone := by
            rw [List.mem_filter, hentry]
            exact ⟨hmem, rfl⟩
          rw [List.isEmpty_iff.mp hnone] at hmissing
          cases hmissing
    rw [mapM_eq_pure _ hcached, List.map_map]
    rfl
  · rename_i hsome
    have hmissing : ∀ oid ∈ oids.filter fun oid => (vault.cache.find? oid).isNone,
        ∃ found, ObjectStore.load backend oid = .ok found := by
      intro oid hmem
      obtain ⟨hlisted, hnone⟩ := List.mem_filter.mp hmem
      exact hanswers oid hlisted (Option.isNone_iff_eq_none.mp hnone)
    rw [backend.loadMany_eq (fun hnil => hsome (List.isEmpty_iff.mpr hnil)) hmissing]
    exact fillGaps_fst _ _ oids hanswers

end Vault

/-- A batch of reads answers at each place what a read of the object alone
would answer, and none where there is no object.  It fails if and only if an
object is neither cached nor decodes, as the first such object does.  The store
stays as it is. -/
theorem batch_answers_as_single_reads {α : Type} (codec : Codec α) (vault : Vault α)
    (backend : Backend) (oids : List Oid)
    (hanswers : ∀ oid ∈ oids, vault.cache.find? oid = none →
      ∃ found, ObjectStore.load backend oid = .ok found) :
    (∀ answers, (vault.loadMany codec backend oids).1 = .ok answers ↔
      List.Forall₂ (fun oid answer => vault.answerAt codec backend oid = .ok answer)
        oids answers) ∧
    (∀ error, (vault.loadMany codec backend oids).1 = .error error ↔
      ∃ earlier oid later fault, oids = earlier ++ oid :: later ∧ error = .codec fault ∧
        vault.Undecodable codec backend oid fault ∧
        ∀ other ∈ earlier, ∀ fault, ¬ vault.Undecodable codec backend other fault) ∧
    ∀ (scene : VaultScene α Backend) (place : Nat),
      (scene.move (.call place (.loadMany oids))).store = scene.store := by
  have hfails : ∀ oid ∈ oids, ∀ error, vault.answerAt codec backend oid = .error error ↔
      ∃ fault, error = .codec fault ∧ vault.Undecodable codec backend oid fault :=
    fun oid hmem error => Vault.answerAt_eq_error_iff (hanswers oid hmem)
  have hsucceeds : ∀ oid ∈ oids, (∃ answer, vault.answerAt codec backend oid = .ok answer) ↔
      ∀ fault, ¬ vault.Undecodable codec backend oid fault := by
    intro oid hmem
    have herror := hfails oid hmem
    cases hanswer : vault.answerAt codec backend oid with
    | ok answer =>
        refine iff_of_true ⟨answer, rfl⟩ fun fault hfault => ?_
        cases hanswer.symm.trans ((herror _).mpr ⟨fault, rfl, hfault⟩)
    | error error =>
        obtain ⟨fault, _, hfault⟩ := (herror error).mp hanswer
        exact iff_of_false nofun fun hnone => hnone fault hfault
  rw [Vault.loadMany_fst codec vault backend hanswers]
  refine ⟨fun answers => mapM_eq_ok_iff, fun error => mapM_eq_error_iff.trans ?_, ?_⟩
  · constructor
    · rintro ⟨earlier, oid, later, rfl, hanswer, hearlier⟩
      obtain ⟨fault, rfl, hfault⟩ := (hfails oid (by simp) error).mp hanswer
      refine ⟨earlier, oid, later, fault, rfl, rfl, hfault, fun other hmem => ?_⟩
      exact (hsucceeds other (List.mem_append_left _ hmem)).mp (hearlier other hmem)
    · rintro ⟨earlier, oid, later, fault, rfl, rfl, hfault, hearlier⟩
      refine ⟨earlier, oid, later, rfl, (hfails oid (by simp) _).mpr ⟨fault, rfl, hfault⟩, ?_⟩
      intro other hmem
      exact (hsucceeds other (List.mem_append_left _ hmem)).mpr (hearlier other hmem)
  · intro scene place
    rw [VaultScene.move]
    split <;> rfl

namespace BatchReadWitness

/-- Objects are their own states, and zero is no object. -/
def codec : Codec Bytes where
  encode object := .ok ⟨object, ∅⟩
  decode state := if state = [0] then .error (.decode "zero") else .ok state

/-- Object 7 is replaced, objects 6 and 8 are created, and there is no 9. -/
def actions : List StoreAction :=
  [.commit (.ofMicros 10) {} [⟨⟨7⟩, none, [1], ∅, none⟩],
    .commit (.ofMicros 20) {} [⟨⟨7⟩, some ⟨10⟩, [2], ∅, none⟩, ⟨⟨8⟩, none, [3], ∅, none⟩,
      ⟨⟨6⟩, none, [0], ∅, none⟩]]

def store : MemoryStore := performAll (MemoryStore.empty true) actions

/-- The vault has read the first version of object 7. -/
def vault : Vault Bytes where
  settings := {}
  cache := (Cache.put { budget := 100 } ⟨7⟩ ⟨10⟩ [1] 1).2
  synced := some ⟨10⟩

theorem batches_with_gaps :
    (vault.loadMany codec (Backend.memory store) [⟨8⟩, ⟨7⟩, ⟨9⟩, ⟨8⟩]).1 =
        .ok [some ([3], ⟨20⟩), some ([1], ⟨10⟩), none, some ([3], ⟨20⟩)] ∧
      (vault.loadMany codec (Backend.memory store) [⟨8⟩, ⟨6⟩, ⟨7⟩]).1 =
        .error (.codec (.decode "zero")) := by
  have honline : store.offline = false :=
    (MemoryStore.sound_performAll MemoryStore.sound_empty).online
  have hanswers : ∀ oids : List Oid, ∀ oid ∈ oids, vault.cache.find? oid = none →
      ∃ found, ObjectStore.load (Backend.memory store) oid = .ok found :=
    fun _ oid _ _ => ⟨_, MemoryStore.online_eq honline _⟩
  constructor
  · refine ((batch_answers_as_single_reads codec vault (.memory store) _ (hanswers _)).1 _).mpr ?_
    exact .cons (by rfl) (.cons (by rfl) (.cons (by rfl) (.cons (by rfl) .nil)))
  · refine ((batch_answers_as_single_reads codec vault (.memory store) _ (hanswers _)).2.1 _).mpr ?_
    refine ⟨[⟨8⟩], ⟨6⟩, [⟨7⟩], .decode "zero", rfl, rfl, ⟨rfl, _, rfl, rfl⟩, ?_⟩
    rintro other hmem fault ⟨_, version, hload, hdecode⟩
    rw [List.mem_singleton.mp hmem] at hload
    cases hload
    cases hdecode

end BatchReadWitness

end ObjectVault
