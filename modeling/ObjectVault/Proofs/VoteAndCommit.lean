/-
Votes foresee commits.  A transaction keeps one write for each object, the last
one staged.  With such a batch the vote, which compares the writes with current
tids that it has read, and the commit, which checks the batch once more against
the tables, come to one verdict.  It stands until another commit or a deletion
lands.
-/
import ObjectVault.Backend
import ObjectVault.Proofs.StoreAgreement
import ObjectVault.Proofs.TransactionCalls
import Mathlib.Data.List.Induction

namespace ObjectVault

theorem eraseDups_concat {α : Type} [DecidableEq α] (items : List α) (item : α) :
    (items ++ [item]).eraseDups =
      if item ∈ items then items.eraseDups else items.eraseDups ++ [item] := by
  rw [List.eraseDups_append, List.removeAll, List.filter_singleton]
  by_cases hmem : item ∈ items <;> simp [hmem, List.eraseDups_cons]

namespace Transaction

variable {writes : List Write} {write other : Write}

/-- A list of writes as those calls to stage leave it, the first call first: one
write for each object, in the order in which the objects were first staged, and
each the last one staged for its object. -/
structure Staged (calls writes : List Write) : Prop where
  distinct : (writes.map Write.oid).Nodup
  order : writes.map Write.oid = (calls.map Write.oid).eraseDups
  last : ∀ write ∈ writes, ∃ earlier later, calls = earlier ++ write :: later ∧
    write.oid ∉ later.map Write.oid

/-- Stage one write after another. -/
def stageAll (writes calls : List Write) : List Write :=
  calls.foldl (fun writes write => stageInto write writes) writes

theorem map_oid_stageInto (write : Write) (writes : List Write) :
    (stageInto write writes).map Write.oid =
      if write.oid ∈ writes.map Write.oid then writes.map Write.oid
      else writes.map Write.oid ++ [write.oid] := by
  induction writes with
  | nil => rfl
  | cons head rest ih =>
      rw [stageInto]
      by_cases hhead : head.oid = write.oid
      · simp [hhead]
      · simp only [if_neg hhead, List.map_cons, ih, List.mem_cons, Ne.symm hhead, false_or]
        split <;> rfl

/-- The staged write replaces its object's earlier one. -/
theorem mem_stageInto (hnodup : (writes.map Write.oid).Nodup)
    (hmem : other ∈ stageInto write writes) :
    other = write ∨ other ∈ writes ∧ other.oid ≠ write.oid := by
  induction writes with
  | nil => exact Or.inl (List.mem_singleton.mp hmem)
  | cons head rest ih =>
      obtain ⟨hfresh, hrest⟩ := List.nodup_cons.mp hnodup
      rw [stageInto] at hmem
      split at hmem
      · rename_i hhead
        rcases List.mem_cons.mp hmem with rfl | hlater
        · exact Or.inl rfl
        · refine Or.inr ⟨List.mem_cons_of_mem head hlater, ?_⟩
          intro hsame
          exact hfresh (List.mem_map.mpr ⟨other, hlater, hsame.trans hhead.symm⟩)
      · rename_i hhead
        rcases List.mem_cons.mp hmem with rfl | hlater
        · exact Or.inr ⟨List.mem_cons_self, hhead⟩
        · rcases ih hrest hlater with hself | ⟨hstill, hne⟩
          · exact Or.inl hself
          · exact Or.inr ⟨List.mem_cons_of_mem head hstill, hne⟩

theorem Staged.stageInto {calls : List Write} (h : Staged calls writes) (write : Write) :
    Staged (calls ++ [write]) (stageInto write writes) where
  distinct := by
    rw [map_oid_stageInto]
    split
    · exact h.distinct
    · rename_i hnew
      exact List.concat_eq_append ▸ h.distinct.concat hnew
  order := by
    simp only [map_oid_stageInto, List.map_append, List.map_cons, List.map_nil, eraseDups_concat,
      h.order, List.mem_eraseDups]
  last := by
    intro other hother
    rcases mem_stageInto h.distinct hother with rfl | ⟨hold, hne⟩
    · exact ⟨calls, [], rfl, List.not_mem_nil⟩
    · obtain ⟨earlier, later, hsplit, hnot⟩ := h.last other hold
      refine ⟨earlier, later ++ [write], by rw [hsplit, List.append_assoc]; rfl, ?_⟩
      rw [List.map_append, List.mem_append, not_or]
      exact ⟨hnot, fun hsame => hne (List.mem_singleton.mp hsame)⟩

theorem staged_stageAll (calls : List Write) : Staged calls (stageAll [] calls) := by
  induction calls using List.reverseRecOn with
  | nil => exact ⟨List.nodup_nil, rfl, fun _ hmem => absurd hmem List.not_mem_nil⟩
  | append_singleton calls write ih =>
      rw [stageAll, List.foldl_append]
      exact ih.stageInto write

end Transaction

/-- What a call finds beside its transaction. -/
structure Occasion (σ κ : Type) where
  clock : Clock
  store : σ
  cache : κ

/-- The write that a call stages, if it is not refused. -/
def TxnCall.accepted (call : TxnCall) (txn : Transaction) : List Write :=
  match call with
  | .stage write => if (txn.stage write).isOk then [write] else []
  | .vote | .finish | .commit | .abort | .setNote _ | .setTimeout _ | .cancel => []

namespace Transaction

section

variable {σ κ : Type} [ObjectStore σ] [Invalidator κ]

/-- The transaction after one call. -/
def afterCall (txn : Transaction) (call : TxnCall × Occasion σ κ) : Transaction :=
  (call.1.make txn call.2.clock call.2.store call.2.cache).txn

/-- The transaction after a run of calls, with whatever store and cache each of
them finds. -/
def afterCalls (txn : Transaction) (calls : List (TxnCall × Occasion σ κ)) : Transaction :=
  calls.foldl afterCall txn

/-- The writes that a run of calls stages, the first one first. -/
def acceptedFrom (txn : Transaction) : List (TxnCall × Occasion σ κ) → List Write
  | [] => []
  | call :: rest => call.1.accepted txn ++ acceptedFrom (txn.afterCall call) rest

theorem writes_afterCall (txn : Transaction) (call : TxnCall × Occasion σ κ) :
    (txn.afterCall call).writes = stageAll txn.writes (call.1.accepted txn) := by
  rw [afterCall, TxnCall.writes_make]
  cases call.1 with
  | stage write =>
      rw [TxnCall.staged, TxnCall.accepted, stage]
      split <;> rfl
  | vote | finish | commit | abort | setNote | setTimeout | cancel => rfl

theorem writes_afterCalls (txn : Transaction) (calls : List (TxnCall × Occasion σ κ)) :
    (txn.afterCalls calls).writes = stageAll txn.writes (txn.acceptedFrom calls) := by
  induction calls generalizing txn with
  | nil => rfl
  | cons call rest ih =>
      rw [acceptedFrom, stageAll, List.foldl_append]
      exact (ih (txn.afterCall call)).trans (congrArg (stageAll · _) (writes_afterCall txn call))

end

variable {txn : Transaction} {clock : Clock} {writes : List Write}

/-- With the current tids of a store at hand, the vote finds what its commit
would find in distinct writes. -/
theorem conflict?_eq_refusal? {current : OidMap Tid} {store : MemoryStore}
    (hcurrent : ∀ write ∈ writes, current[write.oid]? = store.currentTid? write.oid)
    {seen : OidSet} (hnodup : (writes.map Write.oid).Nodup)
    (hseen : ∀ write ∈ writes, write.oid ∉ seen) :
    conflict? current writes = (store.refusal? seen writes).map TxnError.ofFailure := by
  induction writes generalizing seen with
  | nil => rfl
  | cons head rest ih =>
      obtain ⟨hhead, hrest⟩ := List.forall_mem_cons.mp hcurrent
      have hnew := hseen head List.mem_cons_self
      have hlater := ih hrest (List.nodup_cons.mp hnodup).2
        (RelationalStore.notMem_insert_seen hnodup hseen)
      simp only [conflict?, MemoryStore.refusal?, Std.ExtTreeSet.contains_iff_mem, hnew, hhead,
        ↓reduceIte, ne_eq, ite_not, hlater]
      split <;> rfl

theorem conflict?_eq_conflict? {current : OidMap Tid} {database : Database}
    (hcurrent : ∀ write ∈ writes, current[write.oid]? = database.currentTid? write.oid) :
    conflict? current writes =
      (RelationalStore.conflict? database writes).map TxnError.ofFailure := by
  induction writes with
  | nil => rfl
  | cons head rest ih =>
      obtain ⟨hhead, hrest⟩ := List.forall_mem_cons.mp hcurrent
      rw [conflict?, RelationalStore.conflict?, hhead, ih hrest]
      split <;> rfl

end Transaction

/-- Looking up current tids one by one, beside those already found. -/
theorem getElem?_foldl_currentTids (currentTid? : Oid → Option Tid) (found : OidMap Tid)
    (oids : List Oid) (oid : Oid) :
    (oids.foldl (fun tids oid => match currentTid? oid with
      | some tid => tids.insert oid tid
      | none => tids) found)[oid]? =
        if oid ∈ oids then (currentTid? oid).or found[oid]? else found[oid]? := by
  induction oids generalizing found with
  | nil => rfl
  | cons head rest ih =>
      rw [List.foldl_cons, ih]
      by_cases hhead : head = oid
      · subst hhead
        cases currentTid? head <;> simp
      · have hinsert (tid : Tid) : (found.insert head tid)[oid]? = found[oid]? := by
          simp [Std.ExtTreeMap.getElem?_insert, hhead]
        cases currentTid? head <;> simp [hinsert, Ne.symm hhead]

theorem MemoryStore.currentTids_answer {store : MemoryStore} (honline : store.offline = false)
    (oids : List Oid) :
    ∃ current : OidMap Tid, ObjectStore.currentTids store oids = .ok current ∧
      ∀ oid ∈ oids, current[oid]? = store.currentTid? oid := by
  refine ⟨_, online_eq honline _, fun oid hmem => ?_⟩
  refine (getElem?_foldl_currentTids store.currentTid? ∅ oids oid).trans ?_
  rw [if_pos hmem, Std.ExtTreeMap.getElem?_empty, Option.or_none]

theorem RelationalStore.currentTids_answer (store : RelationalStore) (oids : List Oid) :
    ∃ current : OidMap Tid, ObjectStore.currentTids store oids = .ok current ∧
      ∀ oid ∈ oids, current[oid]? = store.database.currentTid? oid := by
  refine ⟨_, rfl, fun oid hmem => ?_⟩
  refine (getElem?_foldl_currentTids store.database.currentTid? ∅ oids oid).trans ?_
  rw [if_pos hmem, Std.ExtTreeMap.getElem?_empty, Option.or_none]

namespace Transaction

variable {txn : Transaction} {clock : Clock}

/-- A live transaction is voted on by comparing its writes with current tids. -/
theorem vote_eq [ObjectStore σ] (hopened : txn.state = .opened)
    (hlapse : txn.lapse? clock = none) (store : σ) : (txn.vote clock store).1 =
      match ObjectStore.currentTids store txn.touched with
      | .error error => .error (.ofFailure error)
      | .ok current => match conflict? current txn.writes with
        | some error => .error error
        | none => .ok () := by
  unfold vote
  rw [if_neg (not_not.mpr hopened), hlapse]
  cases ObjectStore.currentTids store txn.touched with
  | error => rfl
  | ok current =>
      dsimp only
      cases conflict? current txn.writes <;> rfl

/-- After a successful vote the transaction is voting. -/
theorem vote_snd [ObjectStore σ] {store : σ} (h : (txn.vote clock store).1 = .ok ()) :
    (txn.vote clock store).2 = { txn with state := .voting } := by
  have hvotes := txn.votes_vote clock store
  generalize txn.vote clock store = voted at hvotes h ⊢
  cases hvotes with
  | misplaced | failed => cases h
  | passed => rfl

/-- The vote answers what a commit of the writes would answer, whatever the
state of the store. -/
theorem vote_eq_commit (hdistinct : txn.touched.Nodup) (hopened : txn.state = .opened)
    (hlapse : txn.lapse? clock = none) (store : MemoryStore) (now : Instant) (note : CommitNote) :
    (txn.vote clock store).1 =
      ((ObjectStore.commit store now note txn.writes).mapError TxnError.ofFailure).map
        fun _ => () := by
  rw [vote_eq hopened hlapse]
  cases honline : store.offline with
  | true =>
      have hrefuses : ∀ {α : Type} (answer : Except StoreError α),
          store.online answer = .error (.unavailable .offline) := fun _ => if_pos honline
      simp only [ObjectStore.currentTids, ObjectStore.commit, hrefuses]
      rfl
  | false =>
      obtain ⟨current, hanswer, hcurrent⟩ := MemoryStore.currentTids_answer honline txn.touched
      have hcommit : ObjectStore.commit store now note txn.writes = _ :=
        MemoryStore.online_eq honline _
      have hverdict : conflict? current txn.writes =
          (store.refusal? ∅ txn.writes).map TxnError.ofFailure :=
        conflict?_eq_refusal? (fun write hmem => hcurrent write.oid (List.mem_map_of_mem hmem))
          hdistinct fun _ _ => Std.ExtTreeSet.not_mem_empty
      simp only [hanswer, hverdict, hcommit]
      cases store.refusal? ∅ txn.writes <;> rfl

end Transaction

/-- The answer is no other error than a fault of the database. -/
def FailsAsBackend {α : Type} (answer : Except StoreError α) : Prop :=
  ∀ error, answer = .error error → ∃ fault, error = .backend fault

theorem failsAsBackend_ok {α : Type} (value : α) : FailsAsBackend (.ok value) := by
  intro error herror
  cases herror

theorem FailsAsBackend.bind {α β : Type} {answer : Except StoreError α}
    {next : α → Except StoreError β} (h : FailsAsBackend answer)
    (hnext : ∀ value, FailsAsBackend (next value)) : FailsAsBackend (answer >>= next) := by
  intro error herror
  cases hanswer : answer with
  | error first =>
      rw [hanswer] at herror
      cases herror
      exact h error hanswer
  | ok value =>
      rw [hanswer] at herror
      exact hnext value error herror

namespace RelationalStore

theorem insertNew_failsAsBackend {κ α : Type} {order : κ → κ → Ordering} [Std.TransCmp order]
    (name : String) (table : Std.ExtTreeMap κ α order) (key : κ) (row : α) :
    FailsAsBackend (insertNew name table key row) := by
  intro error herror
  rw [insertNew] at herror
  split at herror
  · cases herror
    exact ⟨_, rfl⟩
  · cases herror

theorem apply_failsAsBackend (keepsHistory : Bool) (tid : Tid) (database : Database)
    (write : Write) : FailsAsBackend (apply keepsHistory tid database write) := by
  refine .bind ?_ fun history => .bind ?_ fun blobs => failsAsBackend_ok _
  · unfold archive
    split
    · split
      · exact insertNew_failsAsBackend _ _ _ _
      · exact failsAsBackend_ok _
    · exact failsAsBackend_ok _
  · unfold addBlob
    dsimp only
    split
    · exact insertNew_failsAsBackend _ _ _ _
    · exact failsAsBackend_ok _

theorem foldlM_apply_failsAsBackend (keepsHistory : Bool) (tid : Tid) (database : Database)
    (writes : List Write) : FailsAsBackend (writes.foldlM (apply keepsHistory tid) database) := by
  induction writes generalizing database with
  | nil => exact failsAsBackend_ok database
  | cons head rest ih =>
      rw [List.foldlM_cons]
      exact (apply_failsAsBackend keepsHistory tid database head).bind ih

/-- A commit of distinct writes fails for the first wrong expectation, or else
as the database does. -/
theorem commit_of_distinct (store : RelationalStore) (now : Instant) (note : CommitNote)
    {writes : List Write} (hdistinct : (writes.map Write.oid).Nodup) :
    match conflict? store.database writes with
    | some error => ObjectStore.commit store now note writes = .error error
    | none => FailsAsBackend (ObjectStore.commit store now note writes) := by
  have hnone : repeated? ∅ writes = none :=
    repeated?_eq_none hdistinct fun _ _ => Std.ExtTreeSet.not_mem_empty
  cases hconflict : conflict? store.database writes with
  | some error =>
      simp only [ObjectStore.commit, commit, hnone, hconflict]
      rfl
  | none =>
      simp only [ObjectStore.commit, commit, hnone, hconflict]
      exact (insertNew_failsAsBackend _ _ _ _).bind fun log =>
        (foldlM_apply_failsAsBackend _ _ _ _).bind fun written => failsAsBackend_ok _

end RelationalStore

theorem TxnError.ofFailure_eq_conflict {error : StoreError} {oid : Oid}
    {expected actual : Option Tid} : ofFailure error = .conflict oid expected actual ↔
      error = .conflict oid expected actual := by
  cases error <;> simp [ofFailure]

theorem TxnError.ofFailure_eq_duplicateWrite {error : StoreError} {oid : Oid} :
    ofFailure error = .store (.duplicateWrite oid) ↔ error = .duplicateWrite oid := by
  cases error <;> simp [ofFailure]

theorem RelationalStore.eq_conflict_of_conflict? {database : Database} {writes : List Write}
    {error : StoreError} (h : conflict? database writes = some error) :
    ∃ oid expected actual, error = .conflict oid expected actual := by
  induction writes with
  | nil => cases h
  | cons head rest ih =>
      rw [conflict?] at h
      split at h
      · exact ih h
      · exact ⟨_, _, _, (Option.some.inj h).symm⟩

theorem MemoryStore.eq_conflict_of_refusal? {store : MemoryStore} {seen : OidSet}
    {writes : List Write} (hnodup : (writes.map Write.oid).Nodup)
    (hseen : ∀ write ∈ writes, write.oid ∉ seen) {error : StoreError}
    (h : store.refusal? seen writes = some error) :
    ∃ oid expected actual, error = .conflict oid expected actual := by
  induction writes generalizing seen with
  | nil => cases h
  | cons head rest ih =>
      have hnew : ¬ seen.contains head.oid :=
        mt Std.ExtTreeSet.contains_iff_mem.mp (hseen head List.mem_cons_self)
      rw [refusal?, if_neg hnew] at h
      split at h
      · exact ⟨_, _, _, (Option.some.inj h).symm⟩
      · exact ih (List.nodup_cons.mp hnodup).2 (RelationalStore.notMem_insert_seen hnodup hseen) h

/-- Distinct writes are no duplicates to either store. -/
theorem Backend.commit_ne_duplicateWrite (backend : Backend) (now : Instant) (note : CommitNote)
    {writes : List Write} (hdistinct : (writes.map Write.oid).Nodup) (oid : Oid) :
    ObjectStore.commit backend now note writes ≠ .error (.duplicateWrite oid) := by
  intro hcommit
  cases backend with
  | memory store =>
      have hanswer : ObjectStore.commit store now note writes = .error (.duplicateWrite oid) :=
        map_eq_error.mp hcommit
      simp only [ObjectStore.commit, MemoryStore.online] at hanswer
      split at hanswer
      · cases hanswer
      · split at hanswer
        · rename_i error hrefusal
          obtain ⟨_, _, _, rfl⟩ := MemoryStore.eq_conflict_of_refusal? hdistinct
            (fun _ _ => Std.ExtTreeSet.not_mem_empty) hrefusal
          cases hanswer
        · cases hanswer
  | relational store =>
      have hanswer : ObjectStore.commit store now note writes = .error (.duplicateWrite oid) :=
        map_eq_error.mp hcommit
      have hcases := store.commit_of_distinct now note hdistinct
      split at hcases
      · rename_i error hconflict
        obtain ⟨_, _, _, rfl⟩ := RelationalStore.eq_conflict_of_conflict? hconflict
        cases hcases.symm.trans hanswer
      · obtain ⟨fault, hfault⟩ := hcases _ hanswer
        cases hfault

namespace Transaction

variable {txn : Transaction} {clock : Clock}

/-- The vote reports a conflict if and only if a commit of the writes would
report that conflict, in either store and whatever its state. -/
theorem vote_conflict_iff (hdistinct : txn.touched.Nodup) (hopened : txn.state = .opened)
    (hlapse : txn.lapse? clock = none) (backend : Backend) (now : Instant) (note : CommitNote)
    {oid : Oid} {expected actual : Option Tid} :
    (txn.vote clock backend).1 = .error (.conflict oid expected actual) ↔
      ObjectStore.commit backend now note txn.writes = .error (.conflict oid expected actual) := by
  cases backend with
  | memory store =>
      have hvote : (txn.vote clock (Backend.memory store)).1 = (txn.vote clock store).1 := rfl
      have hcommit : ObjectStore.commit (Backend.memory store) now note txn.writes =
          (ObjectStore.commit store now note txn.writes).map _ := rfl
      rw [hvote, hcommit, map_eq_error, vote_eq_commit hdistinct hopened hlapse store now note,
        map_eq_error]
      cases ObjectStore.commit store now note txn.writes with
      | ok => simp [Except.mapError]
      | error error => simp [Except.mapError, TxnError.ofFailure_eq_conflict]
  | relational store =>
      have hvote : (txn.vote clock (Backend.relational store)).1 = (txn.vote clock store).1 := rfl
      have hcommit : ObjectStore.commit (Backend.relational store) now note txn.writes =
          (ObjectStore.commit store now note txn.writes).map _ := rfl
      obtain ⟨current, hanswer, hcurrent⟩ := store.currentTids_answer txn.touched
      have hverdict := conflict?_eq_conflict? fun write hmem =>
        hcurrent write.oid (List.mem_map_of_mem hmem)
      have hcases := store.commit_of_distinct now note hdistinct
      rw [hvote, hcommit, map_eq_error, vote_eq hopened hlapse, hanswer]
      simp only [hverdict]
      cases hconflict : RelationalStore.conflict? store.database txn.writes with
      | some error =>
          simp only [hconflict] at hcases
          simp [hcases, TxnError.ofFailure_eq_conflict]
      | none =>
          simp only [hconflict] at hcases
          refine iff_of_false nofun fun hfails => ?_
          obtain ⟨fault, hfault⟩ := hcases _ hfails
          cases hfault

theorem lapse?_eq_some {reason : AbortReason} {error : TxnError}
    (h : txn.lapse? clock = some (reason, error)) :
    error = .cancelled ∨ ∃ timeoutMs, error = .timedOut timeoutMs := by
  unfold lapse? at h
  split at h
  · cases h
    exact Or.inl rfl
  · split at h
    · split at h
      · cases h
        exact Or.inr ⟨_, rfl⟩
      · cases h
    · cases h

/-- The second phase never fails for a duplicate write. -/
theorem finish_ne_duplicateWrite [Invalidator κ] (hdistinct : txn.touched.Nodup) (clock : Clock)
    (backend : Backend) (cache : κ) (oid : Oid) :
    (txn.finish clock backend cache).result ≠ .error (.store (.duplicateWrite oid)) := by
  intro hresult
  unfold finish at hresult
  split at hresult
  · cases hresult
  · split at hresult
    · rename_i hlapse
      rcases lapse?_eq_some hlapse with rfl | ⟨_, rfl⟩ <;> cases hresult
    · split at hresult
      · split at hresult
        · rename_i error hlast
          have herror := TxnError.ofFailure_eq_duplicateWrite.mp (Except.error.inj hresult)
          subst herror
          cases backend with
          | memory store =>
              simp only [ObjectStore.lastTid, Backend.ask, MemoryStore.online] at hlast
              split at hlast <;> cases hlast
          | relational store => cases hlast
        · cases hresult
      · split at hresult
        · rename_i error hcommit
          have herror := TxnError.ofFailure_eq_duplicateWrite.mp (Except.error.inj hresult)
          exact backend.commit_ne_duplicateWrite _ _ hdistinct oid (herror ▸ hcommit)
        · cases hresult

end Transaction

/-- A call lands if it changes current versions: a commit that succeeds does, and
so does a deletion that is carried out. -/
def Lands [ObjectStore σ] (store : σ) : StoreAction → Prop
  | .commit now note writes => ∃ answer, ObjectStore.commit store now note writes = .ok answer
  | .deleteObjects oids guardTid => ∃ objects history blobs after,
      ObjectStore.deleteObjects store oids guardTid = .ok (.deleted objects history blobs, after)
  | .newOid | .pruneHistory _ | .dropHistory => False

/-- No call of a run lands. -/
def NoneLands [ObjectStore σ] (store : σ) : List StoreAction → Prop
  | [] => True
  | action :: rest => ¬ Lands store action ∧ NoneLands (perform store action) rest

namespace MemoryStore

variable {store : MemoryStore}

theorem perform_of_not_lands {action : StoreAction} (hquiet : ¬ Lands store action) :
    (perform store action).current = store.current ∧
      (perform store action).offline = store.offline := by
  cases action with
  | newOid =>
      rw [perform]
      cases hanswer : ObjectStore.newOid store with
      | error => exact ⟨rfl, rfl⟩
      | ok answer =>
          cases (online_eq_ok hanswer).2
          exact ⟨rfl, rfl⟩
  | commit now note writes =>
      rw [perform]
      cases hanswer : ObjectStore.commit store now note writes with
      | error => exact ⟨rfl, rfl⟩
      | ok answer => exact absurd ⟨answer, hanswer⟩ hquiet
  | deleteObjects oids guardTid =>
      rw [perform]
      cases hanswer : ObjectStore.deleteObjects store oids guardTid with
      | error => exact ⟨rfl, rfl⟩
      | ok answer =>
          obtain ⟨outcome, after⟩ := answer
          cases outcome with
          | deleted objects history blobs =>
              exact absurd ⟨objects, history, blobs, after, hanswer⟩ hquiet
          | stale last =>
              obtain ⟨_, _, rfl⟩ := deleteObjects_eq_stale hanswer
              exact ⟨rfl, rfl⟩
  | pruneHistory boundary =>
      rw [perform]
      cases hanswer : ObjectStore.pruneHistory store boundary with
      | error => exact ⟨rfl, rfl⟩
      | ok answer =>
          cases (online_eq_ok hanswer).2
          exact ⟨current_prune, (prune_frame store boundary).2.1⟩
  | dropHistory =>
      rw [perform]
      cases hanswer : ObjectStore.dropHistory store with
      | error => exact ⟨rfl, rfl⟩
      | ok answer =>
          cases (online_eq_ok hanswer).2
          exact ⟨rfl, rfl⟩

theorem performAll_of_noneLands {actions : List StoreAction} (hquiet : NoneLands store actions) :
    (performAll store actions).current = store.current ∧
      (performAll store actions).offline = store.offline := by
  induction actions generalizing store with
  | nil => exact ⟨rfl, rfl⟩
  | cons action rest ih =>
      obtain ⟨hfirst, hrest⟩ := hquiet
      obtain ⟨hcurrent, hoffline⟩ := perform_of_not_lands hfirst
      obtain ⟨hcurrent', hoffline'⟩ := ih hrest
      exact ⟨hcurrent'.trans hcurrent, hoffline'.trans hoffline⟩

/-- A batch is as valid as its objects' current versions make it. -/
theorem refusal?_of_current_eq {after : MemoryStore} (hcurrent : after.current = store.current)
    {writes : List Write} (hvalid : store.refusal? ∅ writes = none) :
    after.refusal? ∅ writes = none := by
  obtain ⟨hnodup, hseen, hexpected⟩ := refusal?_eq_none_iff.mp hvalid
  refine refusal?_eq_none_iff.mpr ⟨hnodup, hseen, fun write hmem => ?_⟩
  rw [currentTid?, hcurrent]
  exact hexpected write hmem

end MemoryStore

namespace Transaction

variable {κ : Type} [Invalidator κ] {txn : Transaction} {clock : Clock}

/-- The second phase commits the transaction under `tid`.  The whole batch is one
commit of the store, after which each write is the current version of its object,
and the cache drops the objects.  An empty batch takes the tid of the last
commit, or zero, and changes neither of them. -/
structure Concluded [ObjectStore σ] (txn : Transaction) (clock : Clock) (store : σ) (cache : κ)
    (tid : Tid) (finished : Finished σ κ) : Prop where
  result : finished.result = .ok tid
  txn_eq : finished.txn = { txn with state := .committed tid }
  batch : txn.writes ≠ [] →
    ObjectStore.commit store clock.wall txn.note txn.writes = .ok (tid, finished.store) ∧
      finished.cache = Invalidator.invalidate cache txn.touched
  current : ∀ write ∈ txn.writes,
    ObjectStore.load finished.store write.oid = .ok (some (write.version tid))
  empty : txn.writes = [] →
    (∃ last, ObjectStore.lastTid store = .ok last ∧ tid = last.getD .zero) ∧
      finished.store = store ∧ finished.cache = cache

/-- In time, the second phase of an empty batch takes the last tid. -/
theorem finish_of_nil [ObjectStore σ] {store : σ} (hvoting : txn.state = .voting)
    (hlapse : txn.lapse? clock = none) (hnil : txn.writes = []) {last : Option Tid}
    (hlast : ObjectStore.lastTid store = .ok last) (cache : κ) :
    let tid := last.getD .zero
    txn.finish clock store cache =
      ⟨.ok tid, { txn with state := .committed tid }, store, cache⟩ := by
  have hempty : txn.isEmpty := List.isEmpty_iff.mpr hnil
  rw [finish, if_neg (not_not.mpr hvoting), hlapse]
  dsimp only
  rw [if_pos hempty, hlast]

/-- In time, the second phase of any other batch is the store's commit of it. -/
theorem finish_of_commit [ObjectStore σ] {store after : σ} (hvoting : txn.state = .voting)
    (hlapse : txn.lapse? clock = none) (hne : txn.writes ≠ []) {tid : Tid}
    (hcommit : ObjectStore.commit store clock.wall txn.note txn.writes = .ok (tid, after))
    (cache : κ) :
    txn.finish clock store cache = ⟨.ok tid, { txn with state := .committed tid }, after,
      Invalidator.invalidate cache txn.touched⟩ := by
  have hsome : ¬ txn.isEmpty := mt List.isEmpty_iff.mp hne
  rw [finish, if_neg (not_not.mpr hvoting), hlapse]
  dsimp only
  rw [if_neg hsome, hcommit]

/-- In time, the second phase goes through with what the store takes. -/
theorem concluded_of_valid {store : MemoryStore} (honline : store.offline = false)
    (hvoting : txn.state = .voting) (hlapse : txn.lapse? clock = none)
    (hvalid : store.refusal? ∅ txn.writes = none) (cache : κ) :
    ∃ tid, txn.Concluded clock store cache tid (txn.finish clock store cache) := by
  by_cases hnil : txn.writes = []
  · have hlast : ObjectStore.lastTid store = .ok store.lastTid := MemoryStore.online_eq honline _
    rw [finish_of_nil hvoting hlapse hnil hlast cache]
    refine ⟨_, rfl, rfl, fun hne => absurd hnil hne, ?_, fun _ => ⟨⟨_, hlast, rfl⟩, rfl, rfl⟩⟩
    simp [hnil]
  · have hcommit : ObjectStore.commit store clock.wall txn.note txn.writes = _ :=
      MemoryStore.online_eq honline _
    rw [hvalid] at hcommit
    rw [finish_of_commit hvoting hlapse hnil hcommit cache]
    exact ⟨_, rfl, rfl, fun _ => ⟨hcommit, rfl⟩,
      fun write hmem => MemoryStore.load_of_commit hcommit hmem, fun hempty => absurd hempty hnil⟩

/-- What a vote on an open and live transaction is worth. -/
structure Foresight (κ : Type) [Invalidator κ] (txn : Transaction) (clock : Clock) : Prop where
  /-- It answers what a commit of the staged writes would, whatever the state of
  the store. -/
  verdict (store : MemoryStore) (now : Instant) (note : CommitNote) :
    (txn.vote clock store).1 =
      ((ObjectStore.commit store now note txn.writes).mapError TxnError.ofFailure).map fun _ => ()
  conflict (backend : Backend) (now : Instant) (note : CommitNote) (oid : Oid)
      (expected actual : Option Tid) :
    (txn.vote clock backend).1 = .error (.conflict oid expected actual) ↔
      ObjectStore.commit backend now note txn.writes = .error (.conflict oid expected actual)
  /-- If nothing lands, the second phase commits in time. -/
  stands {store : MemoryStore} (hvote : (txn.vote clock store).1 = .ok ())
      {actions : List StoreAction} (hquiet : NoneLands store actions) {voted : Transaction}
      (hvoting : voted.state = .voting) (hwrites : voted.writes = txn.writes) {later : Clock}
      (hlapse : voted.lapse? later = none) (cache : κ) :
    ∃ tid, voted.Concluded later (performAll store actions) cache tid
      (voted.finish later (performAll store actions) cache)

theorem foresight (hdistinct : txn.touched.Nodup) (hopened : txn.state = .opened)
    (hlapse : txn.lapse? clock = none) : Foresight κ txn clock where
  verdict := vote_eq_commit hdistinct hopened hlapse
  conflict backend now note _ _ _ := vote_conflict_iff hdistinct hopened hlapse backend now note
  stands {store} hvote actions hquiet voted hvoting hwrites later hlater cache := by
    rw [vote_eq_commit hdistinct hopened hlapse store later.wall voted.note] at hvote
    cases hcommit : ObjectStore.commit store later.wall voted.note txn.writes with
    | error error =>
        rw [hcommit] at hvote
        cases hvote
    | ok answer =>
        have hvalid := (MemoryStore.commit_eq_ok hcommit).1
        obtain ⟨hcurrent, hoffline⟩ := MemoryStore.performAll_of_noneLands hquiet
        have honline := hoffline.trans (MemoryStore.online_eq_ok hcommit).1
        have hstill := MemoryStore.refusal?_of_current_eq hcurrent hvalid
        exact concluded_of_valid honline hvoting hlater (hwrites ▸ hstill) cache

/-- What the second phase leaves over a database mirrors what it leaves over the
memory store. -/
structure Finished.Mirrors (finished : Finished RelationalStore κ)
    (other : Finished MemoryStore κ) : Prop where
  result : finished.result = other.result
  txn : finished.txn = other.txn
  store : finished.store.Mirrors other.store
  cache : finished.cache = other.cache

end Transaction

namespace RelationalStore.Mirrors

variable {store : RelationalStore} {memory : MemoryStore} (h : store.Mirrors memory)
  (txn : Transaction) (clock : Clock)

include h

theorem vote_eq (hsound : memory.Sound) : txn.vote clock store = txn.vote clock memory := by
  rw [Transaction.vote, Transaction.vote, h.currentTids_eq hsound]

/-- Both stores finish the transaction alike. -/
theorem finish_mirrors {κ : Type} [Invalidator κ] (hdated : memory.Dated)
    (hrange : (StoreCall.act (.commit clock.wall txn.note txn.writes)).InRange memory) (cache : κ) :
    (txn.finish clock store cache).Mirrors (txn.finish clock memory cache) := by
  have hlast := h.lastTid_eq hdated.toInColumns
  have hcommit := h.commit_agree_of_fits hdated.toInColumns hrange.fits.1
  rw [Transaction.finish, Transaction.finish, hlast]
  split
  · exact ⟨rfl, rfl, h, rfl⟩
  · cases txn.lapse? clock with
    | some lapse => exact ⟨rfl, rfl, h, rfl⟩
    | none =>
        dsimp only
        split
        · cases ObjectStore.lastTid memory <;> exact ⟨rfl, rfl, h, rfl⟩
        · generalize ObjectStore.commit store clock.wall txn.note txn.writes = answer at hcommit ⊢
          generalize ObjectStore.commit memory clock.wall txn.note txn.writes = other at hcommit ⊢
          cases answer with
          | error =>
              cases other with
              | error => exact hcommit ▸ ⟨rfl, rfl, h, rfl⟩
              | ok => exact hcommit.elim
          | ok answer =>
              cases other with
              | error => exact hcommit.elim
              | ok other =>
                  obtain ⟨tid, written⟩ := answer
                  obtain ⟨rfl, hwritten⟩ := hcommit
                  exact ⟨rfl, rfl, hwritten, rfl⟩

end RelationalStore.Mirrors

/-- The vote and the store agree.  Whatever calls a transaction receives, its
writes are as staging leaves them, so the second phase never fails for a
duplicate write.  As long as the transaction is open and live, a vote on it
answers what a commit of its writes would answer.  After a success the second
phase makes that commit, unless another commit or a deletion lands first.  After
any run of calls in range, a store over a database votes and commits as the
memory store does. -/
theorem vote_foresees_commit {σ κ : Type} [ObjectStore σ] [Invalidator κ] (begun : Clock)
    (timeoutMs : Option Nat) (note : CommitNote) (cancelled : Bool)
    (calls : List (TxnCall × Occasion σ κ)) :
    let fresh := Transaction.start begun timeoutMs note cancelled
    let txn := fresh.afterCalls calls
    Transaction.Staged (fresh.acceptedFrom calls) txn.writes ∧
    (∀ clock backend oid, ∀ cache : κ,
      (txn.finish clock (backend : Backend) cache).result ≠ .error (.store (.duplicateWrite oid))) ∧
    (∀ clock, txn.state = .opened → txn.lapse? clock = none → txn.Foresight κ clock) ∧
    ∀ keepsHistory settings store storeCalls,
      RelationalStore.open {} keepsHistory settings = .ok store →
      StoreCall.AllInRange (MemoryStore.empty keepsHistory) storeCalls →
      let database := StoreCall.afterAll store storeCalls
      let memory := StoreCall.afterAll (MemoryStore.empty keepsHistory) storeCalls
      ∀ clock, txn.vote clock database = txn.vote clock memory ∧ ∀ cache : κ,
        (∀ tid, assigned? memory (.commit clock.wall txn.note txn.writes) = some tid → tid.IsDated) →
        (txn.finish clock database cache).Mirrors (txn.finish clock memory cache) := by
  intro fresh txn
  have hstaged : Transaction.Staged (fresh.acceptedFrom calls) txn.writes := by
    rw [show txn.writes = _ from fresh.writes_afterCalls calls]
    exact Transaction.staged_stageAll (fresh.acceptedFrom calls)
  have hdistinct : txn.touched.Nodup := hstaged.distinct
  refine ⟨hstaged, ?_, fun clock => Transaction.foresight hdistinct, ?_⟩
  · intro clock backend oid cache
    exact txn.finish_ne_duplicateWrite hdistinct clock backend cache oid
  · intro keepsHistory settings store storeCalls hopen hrange database memory clock
    obtain ⟨hmirrors, _⟩ := RelationalStore.mirrors_open hopen
    obtain ⟨hlater, hdated⟩ :=
      StoreCall.afterAll_mirrors hmirrors (MemoryStore.dated_empty keepsHistory) hrange
    refine ⟨hlater.vote_eq txn clock hdated.toSound, fun cache hassigned => ?_⟩
    exact hlater.finish_mirrors txn clock hdated ⟨hdistinct, hassigned⟩ cache

namespace VoteWitness

def first : Write := ⟨⟨7⟩, none, [1], .ofOids [.root], none⟩

def second : Write := ⟨⟨8⟩, none, [2], ∅, none⟩

def again : Write := ⟨⟨7⟩, none, [3], ∅, none⟩

def clock : Clock := ⟨.ofMicros 10, 0⟩

def cache : Cache Nat := { budget := 100 }

/-- Three writes are staged, the third one in place of the first. -/
def calls : List (TxnCall × Occasion MemoryStore (Cache Nat)) :=
  [first, second, again].map fun write => (.stage write, ⟨clock, .empty true, cache⟩)

def txn : Transaction := (Transaction.start clock none).afterCalls calls

/-- An oid is handed out and history is pruned meanwhile. -/
def between : List StoreAction := [.newOid, .pruneHistory ⟨5⟩]

/-- The write staged again takes its first place.  The vote on the two writes
succeeds, and so does the second phase after it: the first object is then read as
it was staged last. -/
theorem staged_again_and_committed :
    let voted := txn.vote clock (MemoryStore.empty true)
    let finished := voted.2.finish clock (performAll (MemoryStore.empty true) between) cache
    txn.writes = [again, second] ∧ voted.1 = .ok () ∧
      ∃ tid, finished.result = .ok tid ∧ finished.txn.state = .committed tid ∧
        ObjectStore.load finished.store ⟨7⟩ = .ok (some (again.version tid)) := by
  intro voted finished
  have hvote : voted.1 = .ok () := by decide +kernel
  have hforesight : txn.Foresight (Cache Nat) clock :=
    (vote_foresees_commit clock none {} false calls).2.2.1 clock rfl rfl
  have hquiet : NoneLands (MemoryStore.empty true) between := ⟨nofun, nofun, trivial⟩
  have hvoted : voted.2 = { txn with state := .voting } := Transaction.vote_snd hvote
  have hlapse : voted.2.lapse? clock = none := by
    rw [hvoted]
    rfl
  obtain ⟨tid, hconcluded⟩ :=
    hforesight.stands hvote hquiet (by rw [hvoted]) (by rw [hvoted]) hlapse cache
  refine ⟨rfl, hvote, tid, hconcluded.result, by rw [hconcluded.txn_eq], ?_⟩
  exact hconcluded.current again (by rw [hvoted]; exact List.mem_cons_self)

end VoteWitness

end ObjectVault
