/-
Exact undos.  An undo goes through if and only if every object of the commit is
still at it and comes after a version that is stored.  It puts that version on
top of the undone one and touches nothing else, so another undo takes it back.
-/
import ObjectVault.Proofs.UndoneCommits
import ObjectVault.Proofs.CacheEntries
import ObjectVault.Proofs.VoteAndCommit

namespace ObjectVault

namespace MemoryStore

variable {store : MemoryStore} {oid : Oid} {version other : Version}

/-- An object has one stored version of a tid. -/
theorem Sound.eq_of_tid_eq (hsound : store.Sound) (hstored : store.Stores oid version)
    (hother : store.Stores oid other) (htid : version.tid = other.tid) : version = other :=
  (storedVersions_ascending hsound.keyed).eq_of_tid_eq ((stores_iff hsound).mp hstored)
    ((stores_iff hsound).mp hother) htid

theorem loadVersion_of_stores (hsound : store.Sound) (hstored : store.Stores oid version) :
    ObjectStore.loadVersion store oid version.tid = .ok (some version) := by
  have hstill := (archived_iff_stored hsound.keyed).mpr ((stores_iff hsound).mp hstored)
  rw [loadVersion_eq hsound, hstill]

theorem oidsInTransaction_nodup {tid : Tid} {oids : List Oid}
    (h : ObjectStore.oidsInTransaction store tid = .ok oids) : oids.Nodup := by
  rw [← Except.ok.inj (online_eq_ok h).2]
  exact OidSet.nodup_toList _

end MemoryStore

namespace Transaction

variable {store : MemoryStore} {txn : Transaction} {clock : Clock}

/-- A batch that the store takes passes the vote. -/
theorem vote_of_valid (hsound : store.Sound) (hopened : txn.state = .opened)
    (hlapse : txn.lapse? clock = none) (hvalid : store.refusal? ∅ txn.writes = none) :
    txn.vote clock store = (.ok (), { txn with state := .voting }) := by
  have hdistinct : txn.touched.Nodup := (MemoryStore.refusal?_eq_none_iff.mp hvalid).1
  have hvote : (txn.vote clock store).1 = .ok () := by
    rw [vote_eq_commit hdistinct hopened hlapse store clock.wall txn.note,
      MemoryStore.commit_eq hsound, hvalid]
    rfl
  exact Prod.ext hvote (vote_snd hvote)

/-- In time, a batch that the store takes is committed. -/
theorem commit_of_valid [Invalidator κ] (hsound : store.Sound) (hopened : txn.state = .opened)
    (hlapse : txn.lapse? clock = none) (hne : txn.writes ≠ [])
    (hvalid : store.refusal? ∅ txn.writes = none) (cache : κ) :
    let tid := Tid.nextAfter store.lastTid clock.wall
    txn.commit clock store cache = ⟨.ok tid, { txn with state := .committed tid },
      store.applyAll tid clock.wall txn.note txn.writes,
      Invalidator.invalidate cache txn.touched⟩ := by
  intro tid
  have hcommit : ObjectStore.commit store clock.wall txn.note txn.writes =
      .ok (tid, store.applyAll tid clock.wall txn.note txn.writes) := by
    rw [MemoryStore.commit_eq hsound, hvalid]
  have hvoting : ({ txn with state := .voting } : Transaction).state = .voting := rfl
  unfold commit
  rw [vote_of_valid hsound hopened hlapse hvalid]
  exact finish_of_commit hvoting hlapse hne hcommit cache

/-- Only a timeout of zero has passed at once. -/
theorem lapse?_start {timeoutMs : Option Nat} (htime : timeoutMs ≠ some 0) (clock : Clock)
    (note : CommitNote) (writes : List Write) :
    lapse? { start clock timeoutMs note with writes } clock = none := by
  cases timeoutMs with
  | none => rfl
  | some timeoutMs =>
      have hlate : ¬ clock.steady + timeoutMs ≤ clock.steady := by
        have hpos : timeoutMs ≠ 0 := fun hzero => htime (congrArg some hzero)
        omega
      simp [lapse?, start, hlate]

end Transaction

namespace MemoryStore

variable {store : MemoryStore} {tid : Tid} {oid : Oid} {write : Write} {preceding : Version}

/-- Version `tid` of the object is current, and the one before it is stored. -/
def Restorable (store : MemoryStore) (tid : Tid) (oid : Oid) (preceding : Version) : Prop :=
  ∃ undone, store.current[oid]? = some undone ∧ undone.tid = tid ∧
    undone.prev = some preceding.tid ∧ store.Stores oid preceding

/-- The write that puts a version on top of version `tid`. -/
def reversal (store : MemoryStore) (tid : Tid) (oid : Oid) (preceding : Version) : Write :=
  ⟨oid, some tid, preceding.state, preceding.refs, store.blobs[(oid, preceding.tid)]?⟩

theorem Restorable.currentTid? (hrestorable : store.Restorable tid oid preceding) :
    store.currentTid? oid = some tid := by
  obtain ⟨undone, hcurrent, htid, _⟩ := hrestorable
  rw [MemoryStore.currentTid?, hcurrent, Option.map_some, htid]

/-- A store takes any batch that puts versions on top of what is current. -/
theorem refusal?_reversals {writes : List Write} (hnodup : (writes.map Write.oid).Nodup)
    (hreversal : ∀ write ∈ writes, ∃ preceding, store.Restorable tid write.oid preceding ∧
      write = store.reversal tid write.oid preceding) :
    store.refusal? ∅ writes = none := by
  refine refusal?_eq_none_iff.mpr ⟨hnodup, by simp, fun write hwrite => ?_⟩
  obtain ⟨preceding, hrestorable, hshape⟩ := hreversal write hwrite
  rw [hrestorable.currentTid?, hshape]
  rfl

/-- What a write reverts is what it restores, if the object is still at `tid`. -/
theorem Reverts.restorable (hsound : store.Sound) (hreverts : store.Reverts tid write)
    (htid : store.currentTid? write.oid = some tid) :
    ∃ preceding, store.Restorable tid write.oid preceding ∧
      write = store.reversal tid write.oid preceding := by
  obtain ⟨undone, preceding, hundone, hsame, hpreceding, hprev, hwrite⟩ := hreverts
  obtain ⟨current, hcurrent, hcurrentTid⟩ := Option.map_eq_some_iff.mp htid
  obtain rfl := hsound.eq_of_tid_eq (Or.inl hcurrent) hundone (hcurrentTid.trans hsame.symm)
  exact ⟨preceding, ⟨current, hcurrent, hsame, hprev, hpreceding⟩, hwrite⟩

end MemoryStore

namespace History

variable {store : MemoryStore} {tid : Tid} {oid : Oid}

theorem restoring_of_restorable (hsound : store.Sound) {preceding : Version}
    (hrestorable : store.Restorable tid oid preceding) :
    restoring store tid oid = .ok (store.reversal tid oid preceding) := by
  obtain ⟨undone, hcurrent, rfl, hprev, hpreceding⟩ := hrestorable
  have hundone := MemoryStore.loadVersion_of_stores hsound (Or.inl hcurrent)
  have hrestored := MemoryStore.loadVersion_of_stores hsound hpreceding
  have hblob := MemoryStore.loadBlob_eq hsound oid preceding.tid
  refine bind_eq_ok.mpr ⟨some undone, mapError_eq_ok.mpr hundone, ?_⟩
  simp only [hprev]
  refine bind_eq_ok.mpr ⟨some preceding, mapError_eq_ok.mpr hrestored, ?_⟩
  exact bind_eq_ok.mpr ⟨_, mapError_eq_ok.mpr hblob, rfl⟩

theorem mapM_restoring_of_restorable (hsound : store.Sound) {oids : List Oid}
    (hall : ∀ oid ∈ oids, ∃ preceding, store.Restorable tid oid preceding) :
    ∃ writes, oids.mapM (restoring store tid) = .ok writes := by
  induction oids with
  | nil => exact ⟨[], rfl⟩
  | cons oid rest ih =>
      obtain ⟨⟨preceding, hrestorable⟩, hrest⟩ := List.forall_mem_cons.mp hall
      obtain ⟨writes, hwrites⟩ := ih hrest
      refine ⟨store.reversal tid oid preceding :: writes, ?_⟩
      rw [List.mapM_cons, restoring_of_restorable hsound hrestorable, hwrites]
      rfl

variable {ν : Type} {clock : Clock} {timeoutMs : Option Nat} {note : CommitNote} {oids : List Oid}

/-- The writes of an undo that is due put one version each on top. -/
theorem reverting_of_restorable (hsound : store.Sound) (hkeeps : store.keepsHistory)
    (hoids : ObjectStore.oidsInTransaction store tid = .ok oids) (hne : oids ≠ [])
    (hall : ∀ oid ∈ oids, ∃ preceding, store.Restorable tid oid preceding) :
    ∃ writes : List Write, reverting store tid = .ok writes ∧ writes.map Write.oid = oids ∧
      ∀ write ∈ writes, ∃ preceding, store.Restorable tid write.oid preceding ∧
        write = store.reversal tid write.oid preceding := by
  obtain ⟨writes, hwrites⟩ := mapM_restoring_of_restorable hsound hall
  obtain ⟨hmap, hreverts⟩ := mapM_restoring_eq_ok hsound hwrites
  refine ⟨writes, ?_, hmap, fun write hwrite => ?_⟩
  · have hhistory : ObjectStore.keepsHistory store = true := hkeeps
    have hsome : oids.isEmpty = false := by simpa using hne
    unfold reverting
    rw [hhistory, hoids]
    refine bind_eq_ok.mpr ⟨oids, rfl, ?_⟩
    rw [hsome]
    exact hwrites
  · obtain ⟨preceding, hrestorable⟩ := hall write.oid (hmap ▸ List.mem_map_of_mem hwrite)
    exact (hreverts write hwrite).restorable hsound hrestorable.currentTid?

/-- An undo that goes through commits what precedes the undone versions. -/
theorem undo_of_restorable (hsound : store.Sound) (hkeeps : store.keepsHistory)
    (htime : timeoutMs ≠ some 0) (hoids : ObjectStore.oidsInTransaction store tid = .ok oids)
    (hne : oids ≠ []) (hall : ∀ oid ∈ oids, ∃ preceding, store.Restorable tid oid preceding)
    (clock : Clock) (note : CommitNote) (cache : Cache ν) :
    ∃ writes : List Write, writes.map Write.oid = oids ∧ store.refusal? ∅ writes = none ∧
      (∀ write ∈ writes, ∃ preceding, store.Restorable tid write.oid preceding ∧
        write = store.reversal tid write.oid preceding) ∧
      undo clock timeoutMs note false tid store cache =
        ⟨.ok (Tid.nextAfter store.lastTid clock.wall),
          store.applyAll (Tid.nextAfter store.lastTid clock.wall) clock.wall note writes,
          cache.invalidate oids⟩ := by
  obtain ⟨writes, hreverting, hmap, hreversal⟩ :=
    reverting_of_restorable hsound hkeeps hoids hne hall
  have hnodup : (writes.map Write.oid).Nodup := hmap ▸ MemoryStore.oidsInTransaction_nodup hoids
  have hvalid : store.refusal? ∅ writes = none := MemoryStore.refusal?_reversals hnodup hreversal
  refine ⟨writes, hmap, hvalid, hreversal, ?_⟩
  have hwritten : writes ≠ [] := by
    rintro rfl
    exact hne hmap.symm
  rw [undo, hreverting]
  simp only
  rw [Transaction.commit_of_valid hsound rfl (Transaction.lapse?_start htime clock note writes)
    hwritten hvalid]
  simp only [Transaction.touched, hmap]
  rfl

/-- An undo that succeeds was due to go through. -/
theorem restorable_of_undo (hsound : store.Sound)
    (hoids : ObjectStore.oidsInTransaction store tid = .ok oids) {cancelled : Bool}
    {cache : Cache ν} {next : Tid}
    (hresult : (undo clock timeoutMs note cancelled tid store cache).result = .ok next) :
    oids ≠ [] ∧ ∀ oid ∈ oids, ∃ preceding, store.Restorable tid oid preceding := by
  rcases undo_cases clock timeoutMs note cancelled tid store cache with
    ⟨_, _, hnone⟩ | ⟨writes, _, hwrites, _, hcommit⟩
  · exact absurd rfl (reverting_eq_ok hsound (hnone next hresult)).1
  · obtain ⟨hne, hreverts, hmem⟩ := reverting_eq_ok hsound hwrites
    have hexpected := (MemoryStore.refusal?_eq_none_iff.mp (MemoryStore.commit_eq_ok hcommit).1).2.2
    have hsame (oid : Oid) : oid ∈ writes.map Write.oid ↔ oid ∈ oids :=
      (hmem oid).trans (MemoryStore.mem_oidsInTransaction hsound hoids oid).symm
    constructor
    · rintro rfl
      obtain ⟨first, hfirst⟩ := List.exists_mem_of_ne_nil writes hne
      exact List.not_mem_nil ((hsame first.oid).mp (List.mem_map_of_mem hfirst))
    · intro oid hoid
      obtain ⟨write, hwrite, rfl⟩ := List.mem_map.mp ((hsame oid).mpr hoid)
      have htid : store.currentTid? write.oid = some tid := by
        rw [hexpected write hwrite]
        obtain ⟨_, _, _, _, _, _, hwrite⟩ := hreverts write hwrite
        rw [hwrite]
      obtain ⟨preceding, hrestorable, _⟩ := (hreverts write hwrite).restorable hsound htid
      exact ⟨preceding, hrestorable⟩

end History

/-- What an undo that goes through makes of a store. -/
structure MemoryStore.Restored (store after : MemoryStore) (oids : List Oid) (tid next : Tid) :
    Prop where
  later {old : Tid} : store.HasPassed old → old < next
  restored {oid : Oid} : oid ∈ oids → ∃ preceding, store.Restorable tid oid preceding ∧
    after.current[oid]? = some ⟨oid, next, some tid, preceding.state, preceding.refs⟩ ∧
    after.blobs[(oid, next)]? = store.blobs[(oid, preceding.tid)]?
  /-- The undone versions stay, and so do all others. -/
  kept {oid : Oid} {version : Version} : store.Stores oid version →
    after.Stores oid version ∧
      after.blobs[(oid, version.tid)]? = store.blobs[(oid, version.tid)]?
  others {oid : Oid} : oid ∉ oids → after.current[oid]? = store.current[oid]? ∧
    ∀ old : Tid, after.history[(oid, old)]? = store.history[(oid, old)]? ∧
      after.blobs[(oid, old)]? = store.blobs[(oid, old)]?

namespace MemoryStore

variable {store : MemoryStore} {tid : Tid} {oids : List Oid} {writes : List Write}

theorem restored_applyAll (hstamped : store.Stamped) (hkeeps : store.keepsHistory)
    (now : Instant) (note : CommitNote) (hmap : writes.map Write.oid = oids)
    (hvalid : store.refusal? ∅ writes = none)
    (hreversal : ∀ write ∈ writes, ∃ preceding, store.Restorable tid write.oid preceding ∧
      write = store.reversal tid write.oid preceding) :
    store.Restored (store.applyAll (Tid.nextAfter store.lastTid now) now note writes) oids tid
      (Tid.nextAfter store.lastTid now) where
  later hpassed := lt_nextAfter_of_hasPassed hpassed
  restored {oid} hoid := by
    rw [← hmap] at hoid
    obtain ⟨write, hwrite, rfl⟩ := List.mem_map.mp hoid
    obtain ⟨preceding, hrestorable, hshape⟩ := hreversal write hwrite
    have hnodup := (refusal?_eq_none_iff.mp hvalid).1
    have hcurrent := (foldl_apply_of_mem (Tid.nextAfter store.lastTid now) store hnodup hwrite).1
    have hblob := blobs_applyAll_self hstamped now note hvalid hwrite
    refine ⟨preceding, hrestorable, hcurrent.trans ?_, hblob.trans (congrArg Write.blob hshape)⟩
    exact congrArg some (congrArg (Write.version · _) hshape)
  kept {oid version} hstored := by
    have hpassed := hstamped.stored_passed ((stores_iff hstamped.toSound).mp hstored)
    constructor
    · refine (stores_applyAll_iff hstamped.toSound now note hvalid).mpr (.inl ⟨hstored, ?_⟩)
      exact .inl hkeeps
    · exact (rows_applyAll_of_passed now note hvalid hpassed (.inl hkeeps)).1
  others {oid} hoid := by
    rw [← hmap] at hoid
    obtain ⟨hcurrent, hhistory⟩ :=
      foldl_apply_of_notMem (Tid.nextAfter store.lastTid now) store hoid
    exact ⟨hcurrent, fun old => ⟨hhistory old, blobs_foldl_apply_of_notMem _ store hoid old⟩⟩

/-- What a reader finds of an object: its state, its references and its blob. -/
def content? (store : MemoryStore) (oid : Oid) : Option (Bytes × OidSet × Option Bytes) :=
  store.current[oid]?.map fun version =>
    (version.state, version.refs, store.blobs[(oid, version.tid)]?)

namespace Restored

variable {after twice : MemoryStore} {others : List Oid} {next last : Tid} {oid : Oid}
variable (h : store.Restored after oids tid next)

include h

theorem congr (hmem : ∀ oid, oid ∈ others ↔ oid ∈ oids) : store.Restored after others tid next where
  later := h.later
  restored hoid := h.restored ((hmem _).mp hoid)
  kept := h.kept
  others hoid := h.others fun hold => hoid ((hmem _).mpr hold)

/-- The undone version precedes the one that an undo commits. -/
theorem restorable (hoid : oid ∈ oids) :
    ∃ undone, store.current[oid]? = some undone ∧ undone.tid = tid ∧
      after.Restorable next oid undone := by
  obtain ⟨preceding, ⟨undone, hundone, htid, _⟩, hcurrent, _⟩ := h.restored hoid
  refine ⟨undone, hundone, htid, _, hcurrent, rfl, ?_, (h.kept (Or.inl hundone)).1⟩
  rw [htid]

/-- An undo writes the objects that it undoes, and no other ones. -/
theorem mem_iff (hsound : store.Sound) :
    (∃ version, after.Stores oid version ∧ version.tid = next) ↔ oid ∈ oids := by
  constructor
  · rintro ⟨version, hstored, rfl⟩
    by_contra hoid
    obtain ⟨hcurrent, hrows⟩ := h.others hoid
    have hbefore : store.Stores oid version :=
      hstored.imp (hcurrent ▸ ·) fun ⟨old, hhistory⟩ => ⟨old, (hrows old).1 ▸ hhistory⟩
    have hpassed := hsound.stored_passed ((stores_iff hsound).mp hbefore)
    exact absurd (h.later hpassed) (lt_irrefl _)
  · intro hoid
    obtain ⟨preceding, _, hcurrent, _⟩ := h.restored hoid
    exact ⟨_, Or.inl hcurrent, rfl⟩

/-- Undoing the undo brings everything back. -/
theorem content?_eq (hsound : after.Sound) (hagain : after.Restored twice oids next last)
    (oid : Oid) : twice.content? oid = store.content? oid := by
  by_cases hoid : oid ∈ oids
  · obtain ⟨original, ⟨current, hcurrent, _, hprev, hstored⟩, htwice, hblob⟩ := hagain.restored hoid
    obtain ⟨undone, hundone, htid, top, htop, _, hbelow, hkept⟩ := h.restorable hoid
    cases hcurrent.symm.trans htop
    have hsame : original.tid = undone.tid := Option.some.inj (hprev.symm.trans hbelow)
    obtain rfl := hsound.eq_of_tid_eq hstored hkept hsame
    simp only [content?, htwice, hundone, Option.map_some, hblob,
      (h.kept (Or.inl hundone)).2]
  · obtain ⟨hcurrent, hrows⟩ := h.others hoid
    obtain ⟨hlater, hlaterRows⟩ := hagain.others hoid
    simp only [content?, hlater, hcurrent, hlaterRows, hrows]

end Restored

end MemoryStore

namespace History

variable {ν : Type} {store : MemoryStore} {tid : Tid} {oids : List Oid} {timeoutMs : Option Nat}

/-- What an undo that goes through leaves behind. -/
theorem undo_restored (hstamped : store.Stamped) (hkeeps : store.keepsHistory)
    (htime : timeoutMs ≠ some 0) (hoids : ObjectStore.oidsInTransaction store tid = .ok oids)
    (hne : oids ≠ []) (hall : ∀ oid ∈ oids, ∃ preceding, store.Restorable tid oid preceding)
    (clock : Clock) (note : CommitNote) (cache : Cache ν) :
    let undone := undo clock timeoutMs note false tid store cache
    ∃ next, undone.result = .ok next ∧ store.Restored undone.store oids tid next ∧
      undone.store.Stamped ∧ undone.store.keepsHistory ∧ undone.cache = cache.invalidate oids := by
  obtain ⟨writes, hmap, hvalid, hreversal, hundo⟩ :=
    undo_of_restorable hstamped.toSound hkeeps htime hoids hne hall clock note cache
  rw [hundo]
  refine ⟨_, rfl, MemoryStore.restored_applyAll hstamped hkeeps _ note hmap hvalid hreversal,
    hstamped.applyAll hvalid, ?_, rfl⟩
  exact (MemoryStore.foldl_apply_frame _ store writes).1.trans hkeeps

/-- An undo can be undone at once. -/
theorem undo_again {after : MemoryStore} {next : Tid} (hsound : store.Sound)
    (hrestored : store.Restored after oids tid next) (hne : oids ≠ []) (hstamped : after.Stamped)
    (hkeeps : after.keepsHistory) (htime : timeoutMs ≠ some 0) (clock : Clock) (note : CommitNote)
    (cache : Cache ν) :
    let again := undo clock timeoutMs note false next after cache
    ∃ last, again.result = .ok last ∧ after.Restored again.store oids next last := by
  obtain ⟨others, hothers⟩ : ∃ others, ObjectStore.oidsInTransaction after next = .ok others :=
    ⟨_, hstamped.online_eq _⟩
  have hmem (oid : Oid) : oid ∈ others ↔ oid ∈ oids :=
    (MemoryStore.mem_oidsInTransaction hstamped.toSound hothers oid).trans
      (hrestored.mem_iff hsound)
  have hsome : others ≠ [] := by
    obtain ⟨first, hfirst⟩ := List.exists_mem_of_ne_nil oids hne
    exact List.ne_nil_of_mem ((hmem first).mpr hfirst)
  have hall : ∀ oid ∈ others, ∃ undone, after.Restorable next oid undone := by
    intro oid hoid
    obtain ⟨undone, _, _, hrestorable⟩ := hrestored.restorable ((hmem oid).mp hoid)
    exact ⟨undone, hrestorable⟩
  obtain ⟨last, hlast, hagain, _⟩ :=
    undo_restored hstamped hkeeps htime hothers hsome hall clock note cache
  exact ⟨last, hlast, hagain.congr fun oid => (hmem oid).symm⟩

/-- An undo that does not succeed leaves everything as it was. -/
theorem undo_failed {clock : Clock} {note : CommitNote} {cancelled : Bool} {cache : Cache ν}
    (hresult : ∀ next, (undo clock timeoutMs note cancelled tid store cache).result ≠ .ok next) :
    (undo clock timeoutMs note cancelled tid store cache).store = store ∧
      (undo clock timeoutMs note cancelled tid store cache).cache = cache := by
  rcases undo_cases clock timeoutMs note cancelled tid store cache with
    ⟨hstore, hcache, _⟩ | ⟨_, next, _, hok, _⟩
  · exact ⟨hstore, hcache⟩
  · exact absurd hok (hresult next)

end History

/-- An undo goes through if and only if it finds an object to undo and every one
of them is still at `tid` and comes after a version that is stored.  Then that
version is current again, all stored ones stay, and the cache forgets what was
written; otherwise nothing changes.  Undoing the undo at once succeeds and brings
every object back as it was. -/
theorem undo_exact {ν : Type} (actions : List StoreAction) (clock : Clock)
    {timeoutMs : Option Nat} (htime : timeoutMs ≠ some 0) (note : CommitNote) (tid : Tid)
    (cache : Cache ν) :
    let store := performAll (MemoryStore.empty true) actions
    let undone := History.undo clock timeoutMs note false tid store cache
    ∃ oids, ObjectStore.oidsInTransaction store tid = .ok oids ∧
      ((∃ next, undone.result = .ok next) ↔
        oids ≠ [] ∧ ∀ oid ∈ oids, ∃ preceding, store.Restorable tid oid preceding) ∧
      (∀ next, undone.result = .ok next →
        store.Restored undone.store oids tid next ∧
        (∀ oid, undone.cache.find? oid = if oid ∈ oids then none else cache.find? oid) ∧
        ∀ (clock : Clock) (timeoutMs : Option Nat) (note : CommitNote) (cache : Cache ν),
          timeoutMs ≠ some 0 →
          let again := History.undo clock timeoutMs note false next undone.store cache
          (∃ last, again.result = .ok last ∧
            undone.store.Restored again.store oids next last) ∧
          ∀ oid, again.store.content? oid = store.content? oid) ∧
      ((∀ next, undone.result ≠ .ok next) → undone.store = store ∧ undone.cache = cache) := by
  intro store undone
  have hstamped : store.Stamped := (Documented.ofRun true actions).toStamped
  have hkeeps : store.keepsHistory := MemoryStore.keepsHistory_performAll _ actions
  obtain ⟨oids, hoids⟩ : ∃ oids, ObjectStore.oidsInTransaction store tid = .ok oids :=
    ⟨_, hstamped.online_eq _⟩
  refine ⟨oids, hoids, ⟨?_, ?_⟩, ?_, History.undo_failed⟩
  · rintro ⟨next, hresult⟩
    exact History.restorable_of_undo hstamped.toSound hoids hresult
  · rintro ⟨hne, hall⟩
    obtain ⟨next, hresult, _⟩ :=
      History.undo_restored hstamped hkeeps htime hoids hne hall clock note cache
    exact ⟨next, hresult⟩
  · intro next hresult
    obtain ⟨hne, hall⟩ := History.restorable_of_undo hstamped.toSound hoids hresult
    obtain ⟨_, hok, hrestored, hafter, hstill, hcache⟩ :=
      History.undo_restored hstamped hkeeps htime hoids hne hall clock note cache
    cases hok.symm.trans hresult
    refine ⟨hrestored, fun oid => ?_, fun clock timeoutMs note cache htime => ?_⟩
    · rw [hcache]
      exact cache.find?_invalidate oids oid
    · obtain ⟨last, hlast, hagain⟩ :=
        History.undo_again hstamped.toSound hrestored hne hafter hstill htime clock note cache
      exact ⟨⟨last, hlast, hagain⟩, hrestored.content?_eq hafter.toSound hagain⟩

namespace RestoredWitness

def write (word : UInt64) (expected : Option Tid) (blob : Option Bytes) : Write :=
  ⟨⟨word⟩, expected, [], ∅, blob⟩

/-- The second commit takes the blob of an object away. -/
def actions : List StoreAction :=
  [.commit (.ofMicros 10) {} [write 0 none (some [7]), write 1 none none],
    .commit (.ofMicros 20) {} [write 0 (some ⟨10⟩) none]]

def store : MemoryStore := performAll (MemoryStore.empty true) actions

/-- The clock has gone back in between. -/
def undone : History.Undone MemoryStore (Cache Unit) :=
  History.undo ⟨.ofMicros 5, 0⟩ none {} false ⟨20⟩ store (.ofMegabytes 1)

theorem blob_restored :
    undone.result = .ok ⟨21⟩ ∧ store.Restored undone.store [⟨0⟩] ⟨20⟩ ⟨21⟩ ∧
      undone.store.blobs[((⟨0⟩, ⟨21⟩) : VersionKey)]? = some [7] := by
  have hresult : undone.result = .ok ⟨21⟩ := by decide +kernel
  have hfound : ObjectStore.oidsInTransaction store ⟨20⟩ = .ok [⟨0⟩] := by decide +kernel
  have hblob : undone.store.blobs[((⟨0⟩, ⟨21⟩) : VersionKey)]? = some [7] := by decide +kernel
  have hinTime : (none : Option Nat) ≠ some 0 := by decide
  obtain ⟨oids, hoids, _, hthen, _⟩ :=
    undo_exact actions ⟨.ofMicros 5, 0⟩ hinTime {} ⟨20⟩ (.ofMegabytes 1 : Cache Unit)
  cases hfound.symm.trans hoids
  exact ⟨hresult, (hthen ⟨21⟩ hresult).1, hblob⟩

end RestoredWitness

end ObjectVault
