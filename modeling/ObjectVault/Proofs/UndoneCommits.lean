/-
Undone commits.  An undo finds the objects of a commit by the versions that are
still stored.  Prunes and drops hide none of them from it: what they take is
older than every version that has a predecessor left.  Only an object that was
deleted since is passed over.  Earlier undos are commits like others, and packs
delete and prune.
-/
import ObjectVault.Proofs.Provenance
import ObjectVault.Proofs.TransactionRun

namespace ObjectVault

namespace Ledger

variable {ledger : Ledger} {oid : Oid} {version : Version}

theorem mem_record {tid : Tid} {writes : List Write} :
    version ∈ ledger.record tid writes oid ↔ version ∈ ledger oid ∨
      ∃ write ∈ writes, write.oid = oid ∧ write.version tid = version := by
  simp only [record, List.mem_append, List.mem_map, List.mem_filter, decide_eq_true_eq, and_assoc]

theorem mem_erase {oids : List Oid} :
    version ∈ ledger.erase oids oid ↔ oid ∉ oids ∧ version ∈ ledger oid := by
  by_cases hmem : oid ∈ oids <;> simp [erase, hmem]

variable {store : MemoryStore} (hsound : store.Sound)

include hsound

theorem enter_commit (now : Instant) (note : CommitNote) (writes : List Write) :
    ledger.enter store (.commit now note writes) =
      match store.refusal? ∅ writes with
      | some _ => ledger
      | none => ledger.record (Tid.nextAfter store.lastTid now) writes := by
  rw [enter, MemoryStore.commit_eq hsound]
  cases store.refusal? ∅ writes <;> rfl

theorem enter_deleteObjects (oids : List Oid) (guardTid : Tid) :
    ledger.enter store (.deleteObjects oids guardTid) =
      if store.lastTid.any (guardTid < ·) then ledger else ledger.erase oids := by
  have hanswer : ObjectStore.deleteObjects store oids guardTid = _ := hsound.online_eq _
  rw [enter, hanswer]
  cases store.lastTid with
  | none => rfl
  | some last =>
      by_cases hstale : guardTid < last <;> simp [hstale, MemoryStore.deleteAll]

end Ledger

/-- A store with history sheds its oldest versions only.  What it has lost of
the ledger is older than every version that has an older one beside it. -/
structure Shed (store : MemoryStore) (ledger : Ledger) : Prop extends store.Sound where
  keeps : store.keepsHistory
  passed {oid : Oid} {version : Version} : version ∈ ledger oid → store.HasPassed version.tid
  lost_lt {oid : Oid} {lost : Version} : lost ∈ ledger oid → ¬ store.Stores oid lost →
    ∀ {other : Oid} {older newer : Version}, store.Stores other older → store.Stores other newer →
      older.tid < newer.tid → lost.tid < newer.tid

namespace Shed

variable {store : MemoryStore} {ledger : Ledger}

theorem blank : Shed (.empty true) Ledger.blank where
  toSound := MemoryStore.sound_empty
  keeps := rfl
  passed := by simp [Ledger.blank]
  lost_lt := by simp [Ledger.blank]

/-- Versions may go, if each of them is older than those that keep a
predecessor. -/
theorem removal (h : Shed store ledger) {after : MemoryStore} {left : Ledger}
    (hsound : after.Sound) (hkeeps : after.keepsHistory = store.keepsHistory)
    (hlast : after.lastTid = store.lastTid) (hstores : ∀ {oid version},
      after.Stores oid version → store.Stores oid version)
    (hleft : ∀ {oid version}, version ∈ left oid → version ∈ ledger oid)
    (hgone : ∀ {oid gone}, gone ∈ left oid → store.Stores oid gone → ¬ after.Stores oid gone →
      ∀ {other older newer}, after.Stores other older → after.Stores other newer →
        older.tid < newer.tid → gone.tid < newer.tid) : Shed after left where
  toSound := hsound
  keeps := hkeeps.trans h.keeps
  passed hmem := by
    rw [MemoryStore.HasPassed, hlast]
    exact h.passed (hleft hmem)
  lost_lt {oid lost} hmem hlost _ _ _ holder hnewer hlt := by
    by_cases hbefore : store.Stores oid lost
    · exact hgone hmem hbefore hlost holder hnewer hlt
    · exact h.lost_lt (hleft hmem) hbefore (hstores holder) (hstores hnewer) hlt

theorem delete (h : Shed store ledger) (oids : List Oid) :
    Shed (store.deleteAll (.ofOids oids)).2 (ledger.erase oids) := by
  have hstores := fun oid version =>
    @MemoryStore.stores_deleteAll_iff store oid version h.toSound oids
  apply h.removal (h.toSound.change (.deleted oids)) rfl rfl
  · intro oid version hstored
    exact ((hstores oid version).mp hstored).2
  · intro oid version hmem
    exact (Ledger.mem_erase.mp hmem).2
  · intro oid gone hmem hbefore hgone
    exact absurd ((hstores oid gone).mpr ⟨(Ledger.mem_erase.mp hmem).1, hbefore⟩) hgone

/-- A version that a prune takes is below its boundary, and a version with a
predecessor left is not. -/
theorem prune (h : Shed store ledger) (boundary : Tid) : Shed (store.prune boundary).2 ledger := by
  have hstores := fun oid version =>
    @MemoryStore.stores_prune_iff store oid version h.toSound boundary
  obtain ⟨hkeeps, _, hlast, _⟩ := MemoryStore.prune_frame store boundary
  apply h.removal (h.toSound.change (.pruned boundary)) hkeeps hlast
  · intro oid version hstored
    exact ((hstores oid version).mp hstored).1
  · exact id
  · intro oid gone _ hbefore hgone other older newer holder hnewer hlt
    have houtdated : store.isOutdated boundary (oid, gone.tid) := by
      by_contra hkept
      exact hgone ((hstores oid gone).mpr ⟨hbefore, fun hboth => hkept hboth.2⟩)
    obtain ⟨next, _, hgonelt, hnext⟩ := MemoryStore.isOutdated_iff.mp houtdated
    have hbound : boundary ≤ newer.tid := by
      by_contra hlow
      apply ((hstores other older).mp holder).2
      have hbeside := (MemoryStore.stores_iff h.toSound).mp ((hstores other newer).mp hnewer).1
      exact ⟨h.keeps, MemoryStore.isOutdated_iff.mpr ⟨newer, hbeside, hlt, not_le.mp hlow⟩⟩
    exact lt_of_lt_of_le (lt_trans hgonelt hnext) hbound

theorem drop (h : Shed store ledger) : Shed store.dropAll.2 ledger := by
  apply h.removal (h.toSound.change .dropped) rfl rfl
  · intro oid version hstored
    exact Or.inl (MemoryStore.stores_dropAll_iff.mp hstored)
  · exact id
  · intro _ _ _ _ _ other older newer holder hnewer hlt
    -- only one version of each object is left
    have hsame := (MemoryStore.stores_dropAll_iff.mp holder).symm.trans
      (MemoryStore.stores_dropAll_iff.mp hnewer)
    cases hsame
    exact absurd hlt (lt_irrefl _)

theorem commit (h : Shed store ledger) (now : Instant) (note : CommitNote) {writes : List Write}
    (hvalid : store.refusal? ∅ writes = none) :
    Shed (store.applyAll (Tid.nextAfter store.lastTid now) now note writes)
      (ledger.record (Tid.nextAfter store.lastTid now) writes) := by
  have hstores := fun oid version =>
    @MemoryStore.stores_applyAll_iff store oid version h.toSound now note writes hvalid
  have hbelow : ∀ {oid version}, store.Stores oid version →
      version.tid < Tid.nextAfter store.lastTid now := by
    intro oid version hstored
    have hmem := (MemoryStore.stores_iff h.toSound).mp hstored
    exact MemoryStore.lt_nextAfter_of_hasPassed (h.toSound.stored_passed hmem)
  refine ⟨h.toSound.applyAll hvalid, ?_, ?_, ?_⟩
  · exact (MemoryStore.foldl_apply_frame _ store writes).1.trans h.keeps
  · intro oid version hmem
    refine ⟨_, rfl, ?_⟩
    rcases Ledger.mem_record.mp hmem with hold | ⟨write, _, _, rfl⟩
    · exact le_of_lt (MemoryStore.lt_nextAfter_of_hasPassed (h.passed hold))
    · exact le_refl _
  · intro oid lost hmem hlost other older newer holder hnewer hlt
    rcases Ledger.mem_record.mp hmem with hold | hnew
    · have hbefore : ¬ store.Stores oid lost := fun hstored =>
        hlost ((hstores oid lost).mpr (Or.inl ⟨hstored, Or.inl h.keeps⟩))
      rcases (hstores other newer).mp hnewer with ⟨hnewer, _⟩ | ⟨write, _, _, rfl⟩
      · rcases (hstores other older).mp holder with ⟨holder, _⟩ | ⟨write, _, _, rfl⟩
        · exact h.lost_lt hold hbefore holder hnewer hlt
        · exact absurd (hbelow hnewer) (lt_asymm hlt)
      · exact MemoryStore.lt_nextAfter_of_hasPassed (h.passed hold)
    · exact absurd ((hstores oid lost).mpr (Or.inr hnew)) hlost

/-- A call and its entry into the ledger go together. -/
theorem perform (h : Shed store ledger) (action : StoreAction) :
    Shed (perform store action) (ledger.enter store action) := by
  cases action with
  | newOid =>
      rw [MemoryStore.perform_newOid h.toSound]
      exact h.removal (h.toSound.change (.counted _)) rfl rfl id id
        fun _ hbefore hgone => absurd hbefore hgone
  | commit now note writes =>
      rw [MemoryStore.perform_commit h.toSound, Ledger.enter_commit h.toSound]
      cases hvalid : store.refusal? ∅ writes with
      | some error => exact h
      | none => exact h.commit now note hvalid
  | deleteObjects oids guardTid =>
      rw [MemoryStore.perform_deleteObjects h.toSound, Ledger.enter_deleteObjects h.toSound]
      split
      · exact h
      · exact h.delete oids
  | pruneHistory boundary =>
      rw [MemoryStore.perform_pruneHistory h.toSound]
      exact h.prune boundary
  | dropHistory =>
      rw [MemoryStore.perform_dropHistory h.toSound]
      exact h.drop

theorem performAll (h : Shed store ledger) (actions : List StoreAction) :
    Shed (performAll store actions) (ledger.enterAll store actions) := by
  induction actions generalizing store ledger with
  | nil => exact h
  | cons action rest ih => exact ih (h.perform action)

/-- What holds after every run from an empty store with history. -/
theorem ofRun (actions : List StoreAction) :
    Shed (ObjectVault.performAll (MemoryStore.empty true) actions) (Ledger.ofRun true actions) :=
  blank.performAll actions

end Shed

namespace MemoryStore

variable {store : MemoryStore} {tid : Tid}

/-- The write makes a stored predecessor of version `tid` current again, blob
included. -/
def Reverts (store : MemoryStore) (tid : Tid) (write : Write) : Prop :=
  ∃ undone preceding, store.Stores write.oid undone ∧ undone.tid = tid ∧
    store.Stores write.oid preceding ∧ undone.prev = some preceding.tid ∧
    write = ⟨write.oid, some tid, preceding.state, preceding.refs,
      store.blobs[(write.oid, preceding.tid)]?⟩

theorem loadVersion_eq_some (hsound : store.Sound) {oid : Oid} {version : Version}
    (h : ObjectStore.loadVersion store oid tid = .ok (some version)) :
    store.Stores oid version ∧ version.tid = tid := by
  rw [loadVersion_eq hsound] at h
  have hfound := Except.ok.inj h
  split at hfound
  · rename_i htid
    rw [currentTid?, hfound] at htid
    exact ⟨Or.inl hfound, Option.some.inj htid⟩
  · exact ⟨Or.inr ⟨tid, hfound⟩, (hsound.history_key hfound).2⟩

theorem mem_oidsInTransaction (hsound : store.Sound) {oids : List Oid}
    (h : ObjectStore.oidsInTransaction store tid = .ok oids) (oid : Oid) :
    oid ∈ oids ↔ ∃ version, store.Stores oid version ∧ version.tid = tid := by
  have hanswer := Except.ok.inj (online_eq_ok h).2
  rw [← hanswer, Std.ExtTreeSet.mem_toList, OidSet.mem_ofOids, List.mem_append, List.mem_map,
    List.mem_filterMap]
  constructor
  · rintro (⟨⟨_, _⟩, hmem, rfl⟩ | ⟨⟨_, _⟩, hmem, hkey⟩)
    · obtain ⟨version, hcurrent, rfl, htest⟩ := mem_currentWhere_iff.mp hmem
      exact ⟨version, Or.inl hcurrent, of_decide_eq_true htest⟩
    · obtain ⟨rfl, hoid⟩ := Option.ite_none_right_eq_some.mp hkey
      cases hoid
      obtain ⟨version, hhistory⟩ := mem_table_iff.mp (Std.ExtTreeMap.mem_keys.mp hmem)
      exact ⟨version, Or.inr ⟨_, hhistory⟩, (hsound.history_key hhistory).2⟩
  · rintro ⟨version, hcurrent | ⟨old, hhistory⟩, rfl⟩
    · refine Or.inl ⟨(oid, version.tid), ?_, rfl⟩
      exact mem_currentWhere_iff.mpr ⟨version, hcurrent, rfl, decide_eq_true rfl⟩
    · refine Or.inr ⟨(oid, old), ?_, if_pos (hsound.history_key hhistory).2.symm⟩
      exact Std.ExtTreeMap.mem_keys.mpr (mem_table_iff.mpr ⟨version, hhistory⟩)

end MemoryStore

namespace History

variable {store : MemoryStore} {tid : Tid}

theorem restoring_eq_ok (hsound : store.Sound) {oid : Oid} {write : Write}
    (h : restoring store tid oid = .ok write) : write.oid = oid ∧ store.Reverts tid write := by
  obtain ⟨found, hload, h⟩ := bind_eq_ok.mp h
  cases found with
  | none => cases h
  | some undone =>
      obtain ⟨hundone, htid⟩ :=
        MemoryStore.loadVersion_eq_some hsound (mapError_eq_ok.mp hload)
      cases hprev : undone.prev with
      | none =>
          simp only [hprev] at h
          cases h
      | some prev =>
          simp only [hprev] at h
          obtain ⟨found, hload, h⟩ := bind_eq_ok.mp h
          cases found with
          | none => cases h
          | some preceding =>
              obtain ⟨hpreceding, rfl⟩ :=
                MemoryStore.loadVersion_eq_some hsound (mapError_eq_ok.mp hload)
              obtain ⟨blob, hblob, h⟩ := bind_eq_ok.mp h
              have hfound := Except.ok.inj (MemoryStore.online_eq_ok (mapError_eq_ok.mp hblob)).2
              cases h
              refine ⟨rfl, undone, preceding, hundone, htid, hpreceding, hprev, ?_⟩
              rw [hfound]

/-- An undo makes a write for each object that still has a version of the
commit, or none at all. -/
theorem mapM_restoring_eq_ok (hsound : store.Sound) {oids : List Oid} {writes : List Write}
    (h : oids.mapM (restoring store tid) = .ok writes) :
    writes.map Write.oid = oids ∧ ∀ write ∈ writes, store.Reverts tid write := by
  induction oids generalizing writes with
  | nil =>
      cases h
      exact ⟨rfl, by simp⟩
  | cons oid rest ih =>
      rw [List.mapM_cons] at h
      obtain ⟨write, hwrite, h⟩ := bind_eq_ok.mp h
      obtain ⟨others, hothers, h⟩ := bind_eq_ok.mp h
      cases h
      obtain ⟨hoid, hreverts⟩ := restoring_eq_ok hsound hwrite
      obtain ⟨hoids, hall⟩ := ih hothers
      exact ⟨by rw [List.map_cons, hoid, hoids], List.forall_mem_cons.mpr ⟨hreverts, hall⟩⟩

theorem reverting_eq_ok (hsound : store.Sound) {writes : List Write}
    (h : reverting store tid = .ok writes) :
    writes ≠ [] ∧ (∀ write ∈ writes, store.Reverts tid write) ∧
      ∀ oid, oid ∈ writes.map Write.oid ↔ ∃ version, store.Stores oid version ∧
        version.tid = tid := by
  unfold reverting at h
  split at h
  · cases h
  · obtain ⟨oids, hoids, h⟩ := bind_eq_ok.mp h
    split at h
    · cases h
    · rename_i hsome
      obtain ⟨hmap, hreverts⟩ := mapM_restoring_eq_ok hsound h
      refine ⟨?_, hreverts, ?_⟩
      · rintro rfl
        rw [← hmap] at hsome
        exact hsome rfl
      · rw [hmap]
        exact MemoryStore.mem_oidsInTransaction hsound (mapError_eq_ok.mp hoids)

/-- An undo either fails and leaves the store and the cache alone, or it makes
one commit of all its writes. -/
theorem undo_cases [ObjectStore σ] [Invalidator κ] (clock : Clock) (timeoutMs : Option Nat)
    (note : CommitNote) (cancelled : Bool) (tid : Tid) (store : σ) (cache : κ) :
    ((undo clock timeoutMs note cancelled tid store cache).store = store ∧
        (undo clock timeoutMs note cancelled tid store cache).cache = cache ∧
        ∀ next, (undo clock timeoutMs note cancelled tid store cache).result = .ok next →
          reverting store tid = .ok []) ∨
      ∃ writes next, reverting store tid = .ok writes ∧
        (undo clock timeoutMs note cancelled tid store cache).result = .ok next ∧
        ObjectStore.commit store clock.wall note writes =
          .ok (next, (undo clock timeoutMs note cancelled tid store cache).store) := by
  unfold undo
  cases hwrites : reverting store tid with
  | error error => exact Or.inl ⟨rfl, rfl, nofun⟩
  | ok writes =>
      let txn : Transaction := { Transaction.start clock timeoutMs note cancelled with writes }
      rcases txn.commit_cases clock store cache with
        ⟨hstore, hcache, hnone⟩ | ⟨_, next, hresult, hcommit, _⟩
      · refine Or.inl ⟨hstore, hcache, fun next hresult => ?_⟩
        rw [show writes = [] from hnone next hresult]
      · exact Or.inr ⟨writes, next, rfl, hresult, hcommit⟩

end History

section

variable {store : MemoryStore} {ledger : Ledger} {tid : Tid} {write : Write}

/-- Where a version of a commit has its predecessor left, no version of the
commit is lost. -/
theorem Shed.stores_of_reverts (hshed : Shed store ledger)
    (hkept : ∀ oid, Kept store oid (ledger oid)) (hreverts : store.Reverts tid write) {oid : Oid}
    {version : Version} (hmem : version ∈ ledger oid) (htid : version.tid = tid) :
    store.Stores oid version := by
  by_contra hlost
  obtain ⟨undone, preceding, hundone, rfl, hpreceding, hprev, _⟩ := hreverts
  have hlisted : undone ∈ ledger write.oid :=
    (hkept write.oid).suffix.mem ((MemoryStore.stores_iff hshed.toSound).mp hundone)
  have hlt : preceding.tid < undone.tid := (hkept write.oid).chained.prev_lt hlisted hprev
  exact absurd htid (ne_of_lt (hshed.lost_lt hmem hlost hpreceding hundone hlt))

/-- If the undone version is current, what the write restores comes right
before it. -/
theorem MemoryStore.Reverts.preceding (hreverts : store.Reverts tid write) (hsound : store.Sound)
    {committed : List Version} (hkept : Kept store write.oid committed)
    (hexpected : store.currentTid? write.oid = write.expected) :
    ∃ older preceding undone, committed = older ++ [preceding, undone] ∧ undone.tid = tid ∧
      store.Stores write.oid preceding ∧ write = ⟨write.oid, some tid, preceding.state,
        preceding.refs, store.blobs[(write.oid, preceding.tid)]?⟩ := by
  obtain ⟨undone, preceding, hundone, htid, hpreceding, hprev, hwrite⟩ := hreverts
  have hmem : ∀ {version}, store.Stores write.oid version → version ∈ committed := fun hstored =>
    hkept.suffix.mem ((stores_iff hsound).mp hstored)
  have hascending := hkept.chained.ascending
  rw [show write.expected = some tid from congrArg Write.expected hwrite] at hexpected
  obtain ⟨current, hfound, hsame⟩ := Option.map_eq_some_iff.mp hexpected
  obtain rfl : current = undone :=
    hascending.eq_of_tid_eq (hmem (Or.inl hfound)) (hmem hundone) (hsame.trans htid.symm)
  obtain ⟨front, rfl⟩ := List.getLast?_eq_some_iff.mp (hkept.newest.trans hfound)
  obtain ⟨older, last, rfl, hlast⟩ := hkept.chained.preceding hprev
  obtain rfl : last = preceding :=
    hascending.eq_of_tid_eq (by simp) (hmem hpreceding) hlast
  exact ⟨older, last, current, by simp, htid, hpreceding, hwrite⟩

/-- A commit of such a write makes current what came right before, with the
blob that it was written with. -/
theorem Documented.restored {record : List Committed} (h : Documented store record) (now : Instant)
    (note : CommitNote) {writes : List Write} (hvalid : store.refusal? ∅ writes = none)
    (hwrite : write ∈ writes) (hreverts : store.Reverts tid write) {committed : List Version}
    (hkept : Kept store write.oid committed) :
    ∃ older preceding undone, committed = older ++ [preceding, undone] ∧ undone.tid = tid ∧
      (store.applyAll (Tid.nextAfter store.lastTid now) now note writes).current[write.oid]? =
        some ⟨write.oid, Tid.nextAfter store.lastTid now, some tid, preceding.state,
          preceding.refs⟩ ∧
      ∃ source ∈ record, source.Wrote write.oid preceding
        (store.applyAll (Tid.nextAfter store.lastTid now) now note writes).blobs[(write.oid,
          Tid.nextAfter store.lastTid now)]? := by
  obtain ⟨hnodup, _, hexpected⟩ := MemoryStore.refusal?_eq_none_iff.mp hvalid
  obtain ⟨older, preceding, undone, hcommitted, htid, hpreceding, hshape⟩ :=
    hreverts.preceding h.toSound hkept (hexpected write hwrite)
  refine ⟨older, preceding, undone, hcommitted, htid, ?_, ?_⟩
  · have hcurrent := (MemoryStore.foldl_apply_of_mem (Tid.nextAfter store.lastTid now) store hnodup
      hwrite).1
    exact hcurrent.trans (congrArg some (congrArg (Write.version · _) hshape))
  · obtain ⟨source, hsource, hwrote, _⟩ := h.written hpreceding
    have hblob : write.blob = store.blobs[(write.oid, preceding.tid)]? :=
      congrArg Write.blob hshape
    rw [MemoryStore.blobs_applyAll_self h.toStamped now note hvalid hwrite, hblob]
    exact ⟨source, hsource, hwrote⟩

/-- A stored version is the one that its commit wrote. -/
theorem Documented.version_of_commit {record : List Committed} (h : Documented store record)
    {commit : Committed} (hcommit : commit ∈ record) (hwrite : write ∈ commit.writes)
    {version : Version} (hstored : store.Stores write.oid version)
    (htid : version.tid = commit.tid) : version = write.version commit.tid := by
  obtain ⟨source, hsource, ⟨other, hother, hoid, rfl, _⟩, _⟩ := h.written hstored
  obtain rfl := h.eq_of_tid_eq hsource hcommit htid
  rw [h.eq_of_oid_eq hsource hother hwrite hoid]

end

/-- A successful undo restores every object of the commit that was not deleted
since: it is current again as it was right before, blob included.  A deleted
object is left as it is.  An undo that fails changes nothing. -/
theorem undo_restores [Invalidator κ] (actions : List StoreAction) (clock : Clock)
    (timeoutMs : Option Nat) (note : CommitNote) (cancelled : Bool) (tid : Tid) (cache : κ) :
    let store := performAll (MemoryStore.empty true) actions
    let record := Committed.ofRun true actions
    let ledger := Ledger.ofRun true actions
    let undone := History.undo clock timeoutMs note cancelled tid store cache
    (∀ next, undone.result = .ok next →
      ∀ commit ∈ record, commit.tid = tid → ∀ write ∈ commit.writes,
        (write.version tid ∈ ledger write.oid →
          ∃ older preceding, ledger write.oid = older ++ [preceding, write.version tid] ∧
            undone.store.current[write.oid]? =
              some ⟨write.oid, next, some tid, preceding.state, preceding.refs⟩ ∧
            ∃ source ∈ record,
              source.Wrote write.oid preceding undone.store.blobs[(write.oid, next)]?) ∧
        (write.version tid ∉ ledger write.oid →
          undone.store.current[write.oid]? = store.current[write.oid]?)) ∧
    ∀ error, undone.result = .error error → undone.store = store ∧ undone.cache = cache := by
  intro store record ledger undone
  have hrun : Documented store record := Documented.ofRun true actions
  have hshed : Shed store ledger := Shed.ofRun actions
  have hkept : ∀ oid, Kept store oid (ledger oid) := kept_run true actions
  rcases History.undo_cases clock timeoutMs note cancelled tid store cache with
    ⟨hstore, hcache, hnone⟩ | ⟨writes, next, hwrites, hresult, hcommit⟩
  · refine ⟨fun next hresult => ?_, fun _ _ => ⟨hstore, hcache⟩⟩
    exact absurd rfl (History.reverting_eq_ok hrun.toSound (hnone next hresult)).1
  · refine ⟨?_, fun error herror => by cases herror.symm.trans hresult⟩
    obtain ⟨hne, hreverts, hoids⟩ := History.reverting_eq_ok hrun.toSound hwrites
    obtain ⟨hvalid, rfl, hafter⟩ := MemoryStore.commit_eq_ok hcommit
    change undone.store = _ at hafter
    rintro _ hok commit hmem rfl write hwrite
    cases hok.symm.trans hresult
    rw [hafter]
    constructor
    · intro hlisted
      obtain ⟨first, hfirst⟩ := List.exists_mem_of_ne_nil writes hne
      have hstored : store.Stores write.oid (write.version commit.tid) :=
        hshed.stores_of_reverts hkept (hreverts first hfirst) hlisted rfl
      obtain ⟨restoring, hrestoring, hoid⟩ :=
        List.mem_map.mp ((hoids write.oid).mpr ⟨_, hstored, rfl⟩)
      rw [← hoid] at hlisted ⊢
      obtain ⟨older, preceding, last, hledger, hlast, hrestored⟩ :=
        hrun.restored clock.wall note hvalid hrestoring (hreverts restoring hrestoring)
          (hkept restoring.oid)
      have hsame : last = write.version commit.tid :=
        (hkept restoring.oid).chained.ascending.eq_of_tid_eq (by simp [hledger]) hlisted hlast
      exact ⟨older, preceding, hsame ▸ hledger, hrestored⟩
    · intro hdeleted
      have hout : write.oid ∉ writes.map Write.oid := by
        intro hin
        obtain ⟨version, hstored, htid⟩ := (hoids write.oid).mp hin
        apply hdeleted
        rw [← hrun.version_of_commit hmem hwrite hstored htid]
        exact (hkept write.oid).suffix.mem ((MemoryStore.stores_iff hrun.toSound).mp hstored)
      exact (MemoryStore.foldl_apply_of_notMem _ store hout).1

namespace UndoWitness

def write (word : UInt64) (expected : Option Tid) (refs : List Oid) : Write :=
  ⟨⟨word⟩, expected, [], .ofOids refs, none⟩

/-- The second commit writes an object that the root refers to, and one that
nothing refers to. -/
def actions : List StoreAction :=
  [.commit (.ofMicros 10) {} [write 0 none [⟨1⟩], write 1 none [], write 2 none []],
    .commit (.ofMicros 20) {} [write 1 (some ⟨10⟩) [], write 2 (some ⟨10⟩) []]]

/-- A pack. -/
def moves : List PackMove :=
  [.mark .zero, .proceed false, .proceed false, .proceed false, .sweep 0 .zero, .proceed false,
    .proceed false, .proceed false, .proceed false]

/-- The store and the cache after a run and a pack. -/
def packed (actions : List StoreAction) (moves : List PackMove) :
    PackScene MemoryStore (Cache Unit) :=
  (PackScene.start (performAll (MemoryStore.empty true) actions) (.ofMegabytes 1)).run {} moves

def undone (actions : List StoreAction) (moves : List PackMove) (clock : Clock) (tid : Tid) :
    History.Undone MemoryStore (Cache Unit) :=
  History.undo clock none {} false tid (packed actions moves).store (packed actions moves).cache

/-- Not every object of the commit is restored: the pack took one that nothing
refers to, and the undo succeeds without it. -/
theorem packed_object_not_restored :
    ¬ ∀ (actions : List StoreAction) (moves : List PackMove) (clock : Clock) (tid next : Tid)
      (report : PackReport), (packed actions moves).stage = .ended (.ok report) →
      (undone actions moves clock tid).result = .ok next →
      ∀ commit ∈ Committed.ofRun true actions, commit.tid = tid → ∀ write ∈ commit.writes,
        (undone actions moves clock tid).store.currentTid? write.oid = some next := by
  intro h
  let clock : Clock := ⟨.ofMicros 30, 0⟩
  let report : PackReport :=
    { objectsRemoved := 1, historyRemoved := 1, reachable := 2, batches := 1 }
  have hended : (packed actions moves).stage = .ended (.ok report) := by decide +kernel
  have hresult : (undone actions moves clock ⟨20⟩).result = .ok ⟨30⟩ := by decide +kernel
  have hgone : (undone actions moves clock ⟨20⟩).store.currentTid? ⟨2⟩ = none := by decide +kernel
  have hwrote : ∃ commit ∈ Committed.ofRun true actions, commit.tid = ⟨20⟩ ∧
      ∃ write ∈ commit.writes, write.oid = ⟨2⟩ := by decide +kernel
  obtain ⟨commit, hcommit, htid, write, hwrite, hoid⟩ := hwrote
  have hrestored := h actions moves clock ⟨20⟩ ⟨30⟩ report hended hresult commit hcommit htid write
    hwrite
  rw [hoid, hgone] at hrestored
  cases hrestored

end UndoWitness

end ObjectVault
