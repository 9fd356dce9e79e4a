/-
The stores agree.  A memory store and a store over a fresh database, both
empty and of one mode, answer every call of a run alike: the database mirrors
the memory store throughout, so each question reads the same rows and each
change is carried out, or refused, in both.  The counters of oids are followed
apart, for the database compares them with oids as signed numbers.
-/
import ObjectVault.Proofs.MirroredCalls

namespace ObjectVault

/-- A question to a store. -/
inductive StoreQuery where
  | keepsHistory
  | lastTid
  | load (oid : Oid)
  | loadMany (oids : List Oid)
  | currentTids (oids : List Oid)
  | loadBefore (oid : Oid) (before : Tid)
  | loadVersion (oid : Oid) (tid : Tid)
  | loadBlob (oid : Oid) (tid : Tid)
  | versions (oid : Oid) (before : Option Tid) (limit : Nat)
  | oidsInTransaction (tid : Tid)
  | packedBefore
  | changesSince (since : Tid)
  | reachableFrom (roots : List Oid)
  | committedUpto (snapshot : Tid)

/-- What a store answers to a question. -/
def StoreQuery.Answer : StoreQuery → Type
  | keepsHistory => Bool
  | lastTid | packedBefore => Option Tid
  | load _ | loadVersion .. => Option Version
  | loadMany _ => List (Option Version)
  | currentTids _ => OidMap Tid
  | loadBefore .. => Option PastVersion
  | loadBlob .. => Option Bytes
  | versions .. => List VersionSummary
  | oidsInTransaction _ => List Oid
  | changesSince _ => Option Tid × List Oid
  | reachableFrom _ => OidSet
  | committedUpto _ => List (Oid × Tid)

def StoreQuery.ask [ObjectStore σ] (store : σ) :
    (query : StoreQuery) → Except StoreError query.Answer
  | keepsHistory => .ok (ObjectStore.keepsHistory store)
  | lastTid => ObjectStore.lastTid store
  | load oid => ObjectStore.load store oid
  | loadMany oids => ObjectStore.loadMany store oids
  | currentTids oids => ObjectStore.currentTids store oids
  | loadBefore oid before => ObjectStore.loadBefore store oid before
  | loadVersion oid tid => ObjectStore.loadVersion store oid tid
  | loadBlob oid tid => ObjectStore.loadBlob store oid tid
  | versions oid before limit => ObjectStore.versions store oid before limit
  | oidsInTransaction tid => ObjectStore.oidsInTransaction store tid
  | packedBefore => ObjectStore.packedBefore store
  | changesSince since => ObjectStore.changesSince store since
  | reachableFrom roots => ObjectStore.reachableFrom store roots
  | committedUpto snapshot => ObjectStore.committedUpto store snapshot

/-- What a store answers to a call that may change it. -/
def StoreAction.Answer : StoreAction → Type
  | newOid => Oid
  | commit .. => Tid
  | deleteObjects .. => SweepOutcome
  | pruneHistory _ | dropHistory => PruneCounts

def StoreAction.answer [ObjectStore σ] (store : σ) :
    (action : StoreAction) → Except StoreError action.Answer
  | newOid => (ObjectStore.newOid store).map Prod.fst
  | commit now note writes => (ObjectStore.commit store now note writes).map Prod.fst
  | deleteObjects oids guardTid => (ObjectStore.deleteObjects store oids guardTid).map Prod.fst
  | pruneHistory boundary => (ObjectStore.pruneHistory store boundary).map Prod.fst
  | dropHistory => (ObjectStore.dropHistory store).map Prod.fst

/-- Any call of a store. -/
inductive StoreCall where
  | ask (query : StoreQuery)
  | act (action : StoreAction)

namespace StoreCall

def Answer : StoreCall → Type
  | ask query => query.Answer
  | act action => action.Answer

def answer [ObjectStore σ] (store : σ) : (call : StoreCall) → Except StoreError call.Answer
  | ask query => query.ask store
  | act action => action.answer store

/-- The store that a call leaves. -/
def after [ObjectStore σ] (store : σ) : StoreCall → σ
  | ask _ => store
  | act action => perform store action

def afterAll [ObjectStore σ] (store : σ) (calls : List StoreCall) : σ := calls.foldl after store

def change? : StoreCall → Option StoreAction
  | ask _ => none
  | act action => some action

/-- The calls of a run that may change the store. -/
def changes (calls : List StoreCall) : List StoreAction := calls.filterMap change?

/-- The calls for which tids and columns are in one order: batches of distinct
objects, tid arguments that fit their columns, and assigned tids that encode
instants before the year 10000. -/
def InRange [ObjectStore σ] (store : σ) : StoreCall → Prop
  | ask (.versions _ before _) => ∀ tid, before = some tid → tid.FitsColumn
  | ask (.changesSince since) => since.FitsColumn
  | ask (.committedUpto snapshot) => snapshot.FitsColumn
  | ask _ => True
  | act (.commit now note writes) =>
      (writes.map Write.oid).Nodup ∧
        ∀ tid, assigned? store (.commit now note writes) = some tid → tid.IsDated
  | act (.pruneHistory boundary) => boundary.FitsColumn
  | act _ => True

/-- Each call of a run is in range for the store it meets. -/
def AllInRange [ObjectStore σ] (store : σ) : List StoreCall → Prop
  | [] => True
  | call :: rest => call.InRange store ∧ AllInRange (call.after store) rest

/-- The objects that a run has committed. -/
def committed [ObjectStore σ] (store : σ) : List StoreCall → List Oid
  | [] => []
  | call :: rest =>
      let oids := match call with
        | act (.commit now note writes) =>
            if (assigned? store (.commit now note writes)).isSome then writes.map Write.oid else []
        | _ => []
      oids ++ committed (call.after store) rest

end StoreCall

namespace RelationalStore.Mirrors

variable {store : RelationalStore} {memory : MemoryStore} (h : store.Mirrors memory)
  (hdated : memory.Dated)

include h hdated

theorem ask_eq {query : StoreQuery} (hrange : (StoreCall.ask query).InRange memory) :
    query.ask store = query.ask memory := by
  have hsound := hdated.toSound
  have hfits := hdated.toInColumns
  cases query with
  | keepsHistory => exact congrArg Except.ok h.keepsHistory
  | lastTid => exact h.lastTid_eq hfits
  | load oid => exact h.load_eq hsound oid
  | loadMany oids => exact h.loadMany_eq hsound oids
  | currentTids oids => exact h.currentTids_eq hsound oids
  | loadBefore oid before => exact h.loadBefore_eq hsound oid before
  | loadVersion oid tid => exact h.loadVersion_eq hsound oid tid
  | loadBlob oid tid => exact h.loadBlob_eq hsound oid tid
  | versions oid before limit => exact h.versions_eq hdated oid hrange limit
  | oidsInTransaction tid => exact h.oidsInTransaction_eq hsound tid
  | packedBefore => exact h.packedBefore_eq hfits
  | changesSince since => exact h.changesSince_eq hfits hrange
  | reachableFrom roots => exact h.reachableFrom_eq hsound roots
  | committedUpto snapshot => exact h.committedUpto_eq hfits hrange

/-- Calls that commit nothing new but an oid are answered alike. -/
theorem answer_eq {action : StoreAction} (hfits : action.Fits memory)
    (hcounter : action ≠ .newOid) : action.answer store = action.answer memory := by
  have hcolumns := hdated.toInColumns
  cases action with
  | newOid => exact absurd rfl hcounter
  | commit => exact (h.commit_agree_of_fits hcolumns hfits).answer
  | deleteObjects oids guardTid => exact (h.deleteObjects_agree hcolumns oids guardTid).answer
  | pruneHistory => exact (h.pruneHistory_agree hcolumns (hfits.boundary rfl)).answer
  | dropHistory => exact (h.dropHistory_agree hcolumns).answer

end RelationalStore.Mirrors

theorem StoreCall.InRange.fits {store : MemoryStore} {action : StoreAction}
    (hrange : (act action).InRange store) :
    action.Fits store ∧ ∀ tid, assigned? store action = some tid → tid.IsDated := by
  cases action with
  | commit now note writes =>
      refine ⟨⟨?_, nofun, fun hassigned => (hrange.2 _ hassigned).succ_fitsColumn⟩, hrange.2⟩
      rintro _ _ _ ⟨⟩
      exact hrange.1
  | pruneHistory boundary =>
      refine ⟨⟨nofun, ?_, nofun⟩, nofun⟩
      rintro _ ⟨⟩
      exact hrange
  | newOid | deleteObjects | dropHistory => exact ⟨⟨nofun, nofun, nofun⟩, nofun⟩

/-- The counters name the same next oid. -/
structure RelationalStore.Counts (store : RelationalStore) (memory : MemoryStore) : Prop where
  next : store.database.nextOid.getD 1 = memory.nextOid
  pos : 1 ≤ memory.nextOid

/-- Counting past every number is counting past the largest. -/
theorem foldl_max_succ (numbers : List Nat) (next largest : Nat) :
    numbers.foldl (fun next n => max next (n + 1)) (max next (largest + 1)) =
      max next (numbers.foldl max largest + 1) := by
  induction numbers generalizing largest with
  | nil => rfl
  | cons n rest ih =>
      have hmerge : max (max next (largest + 1)) (n + 1) = max next (max largest n + 1) := by omega
      rw [List.foldl_cons, List.foldl_cons, hmerge, ih]

theorem MemoryStore.nextOid_foldl_apply {tid : Tid} {store : MemoryStore} {writes : List Write}
    (hsmall : ∀ write ∈ writes, write.oid.toNat < Oid.maxWord) :
    (writes.foldl (apply tid) store).nextOid =
      (writes.map fun write => write.oid.toNat).foldl (fun next n => max next (n + 1))
        store.nextOid := by
  induction writes generalizing store with
  | nil => rfl
  | cons head rest ih =>
      obtain ⟨hhead, hrest⟩ := List.forall_mem_cons.mp hsmall
      have hstep : (apply tid store head).nextOid = max store.nextOid (head.oid.toNat + 1) := by
        rw [apply]
        dsimp only
        rw [Nat.min_eq_left hhead]
      rw [List.foldl_cons, ih hrest, hstep]
      rfl

theorem foldl_max_lt {numbers : List Nat} {bound start : Nat} (hstart : start < bound)
    (hsmall : ∀ n ∈ numbers, n < bound) : numbers.foldl max start < bound := by
  induction numbers generalizing start with
  | nil => exact hstart
  | cons n rest ih =>
      obtain ⟨hhead, hrest⟩ := List.forall_mem_cons.mp hsmall
      exact ih (Nat.max_lt.mpr ⟨hstart, hhead⟩) hrest

theorem Oid.ofColumn_natCast (n : Nat) : ofColumn n = ofNat n := by
  have hword : ((n : Int) % UInt64.size).toNat = n % UInt64.size := rfl
  rw [ofColumn, hword, ofNat, ofNat]
  exact congrArg Oid.mk (UInt64.toNat_inj.mp (by simp))

/-- Oids below the largest column less one leave room for a column above
them. -/
def Oid.HasRoom (oid : Oid) : Prop := oid.toNat < 0x7FFFFFFFFFFFFFFF

namespace RelationalStore

variable {store : RelationalStore} {memory : MemoryStore}

/-- The counter moves above the largest oid written, if there is room. -/
theorem nextOidAfter_eq {next : Option Int} {writes : List Write}
    (hroom : ∀ write ∈ writes, write.oid.HasRoom) :
    (nextOidAfter next writes).getD 1 =
      max (next.getD 1) ((writes.map fun write => write.oid.toNat).foldl max 0 + 1 : Nat) := by
  have hlargest : (writes.map fun write => write.oid.toNat).foldl max 0 < 0x7FFFFFFFFFFFFFFF :=
    foldl_max_lt (by decide) (List.forall_mem_map.mpr hroom)
  generalize hlargestEq : (writes.map fun write => write.oid.toNat).foldl max 0 = largest at *
  have hmin : min (largest + 1) Oid.maxWord = largest + 1 := by
    simp only [Oid.maxWord, UInt64.size]
    omega
  have hfloor : (Oid.ofNat (largest + 1)).column = (largest + 1 : Nat) := by
    rw [Oid.column, Oid.toNat_ofNat (by omega)]
    refine Column.ofInt_eq_self ?_
    simp only [Column.largest]
    omega
  rw [nextOidAfter, hlargestEq, hmin, hfloor]
  split
  · rw [Option.getD_some]
    omega
  · omega

/-- Below the largest column the counter moves on by one. -/
theorem nextOid_newOid {store : RelationalStore} (hpos : 0 ≤ store.database.nextOid.getD 1)
    (hroom : store.database.nextOid.getD 1 < Column.largest) :
    (perform store .newOid).database.nextOid = some (store.database.nextOid.getD 1 + 1) := by
  have hnumber : (((store.database.nextOid.getD 1 + 1).toNat : Nat) : Int) =
      store.database.nextOid.getD 1 + 1 := Int.toNat_of_nonneg (by omega)
  have hcolumn : Column.ofInt (store.database.nextOid.getD 1 + 1) =
      store.database.nextOid.getD 1 + 1 := by
    rw [← hnumber]
    exact Column.ofInt_eq_self (by omega)
  exact congrArg some hcolumn

theorem nextOid_deleteObjects (store : RelationalStore) (oids : List Oid) (guardTid : Tid) :
    (perform store (.deleteObjects oids guardTid)).database.nextOid = store.database.nextOid := by
  simp only [perform, ObjectStore.deleteObjects]
  split
  · split <;> rfl
  · rfl

theorem nextOid_pruneHistory (store : RelationalStore) (boundary : Tid) :
    (perform store (.pruneHistory boundary)).database.nextOid = store.database.nextOid := by
  simp only [perform, ObjectStore.pruneHistory, perform.left, prune]
  split <;> rfl

theorem nextOid_dropHistory (store : RelationalStore) :
    (perform store .dropHistory).database.nextOid = store.database.nextOid := by
  simp only [perform, ObjectStore.dropHistory, perform.left, dropAll]
  split <;> rfl

end RelationalStore

namespace RelationalStore.Counts

variable {store : RelationalStore} {memory : MemoryStore}

theorem commit (hcounts : store.Counts memory) {after : RelationalStore} {tid : Tid} {now : Instant}
    {note : CommitNote} {writes : List Write} (hroom : ∀ write ∈ writes, write.oid.HasRoom)
    (hnext : after.database.nextOid = nextOidAfter store.database.nextOid writes) :
    after.Counts (memory.applyAll tid now note writes) := by
  have hword : ∀ write ∈ writes, write.oid.toNat < Oid.maxWord := fun write hmem =>
    lt_of_lt_of_le (hroom write hmem) (by decide)
  have hmemory : (memory.applyAll tid now note writes).nextOid =
      max memory.nextOid ((writes.map fun write => write.oid.toNat).foldl max 0 + 1) := by
    rw [← foldl_max_succ, Nat.max_eq_left hcounts.pos]
    exact MemoryStore.nextOid_foldl_apply hword
  constructor
  · rw [hnext, nextOidAfter_eq hroom, hcounts.next, hmemory]
    omega
  · rw [hmemory]
    exact le_trans hcounts.pos (Nat.le_max_left _ _)

theorem newOid (hcounts : store.Counts memory) (hsound : memory.Sound)
    (hcount : store.database.nextOid.getD 1 < Column.largest) :
    (ObjectVault.perform store .newOid).Counts (ObjectVault.perform memory .newOid) := by
  have hnext := hcounts.next
  have hpos := hcounts.pos
  have hword : memory.nextOid < Oid.maxWord := by
    simp only [Column.largest, Oid.maxWord, UInt64.size] at hcount ⊢
    omega
  rw [MemoryStore.perform_newOid hsound, MemoryStore.following_eq hword]
  refine ⟨?_, Nat.le_add_left 1 _⟩
  rw [nextOid_newOid (by omega) hcount, Option.getD_some, hnext, Int.natCast_succ]

/-- Every call moves both counters alike, as long as the objects it commits
leave room and the counter does not overflow. -/
theorem perform (hcounts : store.Counts memory) (h : store.Mirrors memory) (hdated : memory.Dated)
    {action : StoreAction} (hfits : action.Fits memory)
    (hroom : ∀ oid ∈ StoreCall.committed memory [.act action], oid.HasRoom)
    (hcount : action.takesOid → store.database.nextOid.getD 1 < Column.largest) :
    (perform store action).Counts (perform memory action) := by
  have hsound := hdated.toSound
  cases action with
  | newOid => exact hcounts.newOid hsound (hcount rfl)
  | commit now note writes =>
      rw [MemoryStore.perform_commit hsound]
      cases hrefusal : memory.refusal? ∅ writes with
      | some error =>
          rw [ObjectVault.perform, h.commit_refused note (hfits.distinct rfl) hrefusal]
          exact hcounts
      | none =>
          have hassigned : assigned? memory (.commit now note writes) =
              some (Tid.nextAfter memory.lastTid now) := by
            rw [MemoryStore.assigned?_commit hsound, hrefusal]
          obtain ⟨after, hcommit, _, hnext⟩ := h.commit_applied hdated.toInColumns note hrefusal
            ((hfits.assigned hassigned).of_le (le_of_lt (Tid.lt_succ _)))
          rw [ObjectVault.perform, hcommit]
          refine hcounts.commit (fun write hmem => hroom write.oid ?_) hnext
          simpa [StoreCall.committed, hassigned] using ⟨write, hmem, rfl⟩
  | deleteObjects oids guardTid =>
      rw [MemoryStore.perform_deleteObjects hsound]
      refine ⟨(congrArg (Option.getD · 1) (nextOid_deleteObjects store oids guardTid)).trans ?_, ?_⟩
      · split <;> exact hcounts.next
      · split <;> exact hcounts.pos
  | pruneHistory boundary =>
      rw [MemoryStore.perform_pruneHistory hsound]
      constructor
      · rw [nextOid_pruneHistory, MemoryStore.nextOid_prune, hcounts.next]
      · rw [MemoryStore.nextOid_prune]
        exact hcounts.pos
  | dropHistory =>
      rw [MemoryStore.perform_dropHistory hsound]
      refine ⟨?_, hcounts.pos⟩
      rw [nextOid_dropHistory]
      exact hcounts.next

theorem newOid_eq (hcounts : store.Counts memory) (hsound : memory.Sound) :
    StoreAction.newOid.answer store = StoreAction.newOid.answer memory := by
  have hmemory : StoreAction.newOid.answer memory = .ok (Oid.ofNat memory.nextOid) :=
    congrArg (Except.map Prod.fst) (hsound.online_eq _)
  have hstore : StoreAction.newOid.answer store = .ok (Oid.ofColumn memory.nextOid) := by
    rw [← hcounts.next]
    rfl
  rw [hmemory, hstore, Oid.ofColumn_natCast]

end RelationalStore.Counts

namespace StoreCall

theorem allInRange_append [ObjectStore σ] {store : σ} {calls more : List StoreCall} :
    AllInRange store (calls ++ more) ↔
      AllInRange store calls ∧ AllInRange (afterAll store calls) more := by
  induction calls generalizing store with
  | nil => simp [AllInRange, afterAll]
  | cons call rest ih =>
      rw [List.cons_append, AllInRange, AllInRange, ih, and_assoc]
      rfl

theorem committed_cons [ObjectStore σ] (store : σ) (call : StoreCall) (rest : List StoreCall) :
    committed store (call :: rest) =
      committed store [call] ++ committed (call.after store) rest := by
  simp only [committed, List.append_nil]

variable {store : RelationalStore} {memory : MemoryStore}

/-- The database mirrors the memory store after a run. -/
theorem afterAll_mirrors (h : store.Mirrors memory) (hdated : memory.Dated)
    {calls : List StoreCall} (hrange : AllInRange memory calls) :
    (afterAll store calls).Mirrors (afterAll memory calls) ∧ (afterAll memory calls).Dated := by
  induction calls generalizing store memory with
  | nil => exact ⟨h, hdated⟩
  | cons call rest ih =>
      obtain ⟨hcall, hrest⟩ := hrange
      cases call with
      | ask query => exact ih h hdated hrest
      | act action =>
          obtain ⟨hfits, hassigned⟩ := hcall.fits
          exact ih (h.perform hdated.toInColumns hfits) (hdated.perform hfits hassigned) hrest

theorem afterAll_counts (hcounts : store.Counts memory) (h : store.Mirrors memory)
    (hdated : memory.Dated) {calls : List StoreCall} (hrange : AllInRange memory calls)
    (hroom : ∀ oid ∈ committed memory calls, oid.HasRoom)
    (hcount : CountsOn (·.database.nextOid.getD 1 < Column.largest) store (changes calls)) :
    (afterAll store calls).Counts (afterAll memory calls) := by
  induction calls generalizing store memory with
  | nil => exact hcounts
  | cons call rest ih =>
      obtain ⟨hcall, hrest⟩ := hrange
      cases call with
      | ask query =>
          exact ih hcounts h hdated hrest hroom hcount
      | act action =>
          obtain ⟨hfits, hassigned⟩ := hcall.fits
          rw [committed_cons, List.forall_mem_append] at hroom
          exact ih (hcounts.perform h hdated hfits hroom.1 hcount.1)
            (h.perform hdated.toInColumns hfits) (hdated.perform hfits hassigned) hrest hroom.2
            hcount.2

end StoreCall

/-- A store over a fresh database mirrors an empty memory store. -/
theorem RelationalStore.mirrors_open {keepsHistory : Bool} {settings : PoolSettings}
    {store : RelationalStore} (hopen : RelationalStore.open {} keepsHistory settings = .ok store) :
    store.Mirrors (.empty keepsHistory) ∧ store.Counts (.empty keepsHistory) := by
  simp only [RelationalStore.open, bind_eq_ok] at hopen
  obtain ⟨pool, -, borrowed, -, database, hadopt, hstore⟩ := hopen
  cases hadopt
  cases hstore
  refine ⟨⟨rfl, ?_⟩, ⟨rfl, le_rfl⟩⟩
  exact {
    current := (map_empty _).symm
    history := (map_empty _).symm
    blobs := rfl
    log := (map_empty _).symm
    lastTid := rfl
    packedBefore := rfl }

/-- The stores answer alike.  After any run of calls in range, the next call in
range gets the same answer from a memory store and from a store over a fresh
database, both created empty in one mode.  A new oid is the same as long as no
object committed so far lacks room for a column above it and the counter of the
database does not overflow. -/
theorem stores_answer_alike {keepsHistory : Bool} {settings : PoolSettings}
    {store : RelationalStore} (hopen : RelationalStore.open {} keepsHistory settings = .ok store)
    {calls : List StoreCall} {call : StoreCall}
    (hrange : StoreCall.AllInRange (MemoryStore.empty keepsHistory) (calls ++ [call]))
    (hroom : call = .act .newOid →
      (∀ oid ∈ StoreCall.committed (MemoryStore.empty keepsHistory) calls, oid.HasRoom) ∧
      CountsOn (·.database.nextOid.getD 1 < Column.largest) store
        (StoreCall.changes (calls ++ [call]))) :
    call.answer (StoreCall.afterAll store calls) =
      call.answer (StoreCall.afterAll (MemoryStore.empty keepsHistory) calls) := by
  obtain ⟨hmirrors, hcounts⟩ := RelationalStore.mirrors_open hopen
  obtain ⟨hcalls, hcall, _⟩ := StoreCall.allInRange_append.mp hrange
  have hdated := MemoryStore.dated_empty keepsHistory
  obtain ⟨hlater, hlaterDated⟩ := StoreCall.afterAll_mirrors hmirrors hdated hcalls
  cases call with
  | ask query => exact hlater.ask_eq hlaterDated hcall
  | act action =>
      by_cases hnew : action = .newOid
      · subst hnew
        obtain ⟨hroom, hcount⟩ := hroom rfl
        rw [StoreCall.changes, List.filterMap_append] at hcount
        exact (StoreCall.afterAll_counts hcounts hmirrors hdated hcalls hroom
          hcount.of_append).newOid_eq hlaterDated.toSound
      · exact hlater.answer_eq hlaterDated hcall.fits.1 hnew

namespace AgreementWitness

def writes : List Write := [⟨⟨7⟩, none, [1], .ofOids [.root], none⟩]

def calls : List StoreCall := [.act .newOid, .act (.commit (.ofMicros 10) {} writes)]

def store : RelationalStore where
  keepsHistory := true
  connections := 1
  database := { mode := some 1 }

/-- After an oid handed out and a commit of object 7, both stores hand out 8. -/
theorem new_oid_alike :
    RelationalStore.open {} true {} = .ok store ∧
      (StoreCall.act .newOid).answer (StoreCall.afterAll (MemoryStore.empty true) calls) =
        .ok (⟨8⟩ : Oid) ∧
      (StoreCall.act .newOid).answer (StoreCall.afterAll store calls) =
        (StoreCall.act .newOid).answer (StoreCall.afterAll (MemoryStore.empty true) calls) := by
  have hopen : RelationalStore.open {} true {} = .ok store := rfl
  have hassigned : assigned? (perform (MemoryStore.empty true) .newOid)
      (.commit (.ofMicros 10) {} writes) = some ⟨10⟩ := by decide +kernel
  have hrange : StoreCall.AllInRange (MemoryStore.empty true) (calls ++ [.act .newOid]) := by
    refine ⟨trivial, ⟨by decide, fun tid htid => ?_⟩, trivial, trivial⟩
    rw [← Option.some.inj (hassigned.symm.trans htid), Tid.IsDated]
    decide
  have hroom : ∀ oid ∈ StoreCall.committed (MemoryStore.empty true) calls, oid.HasRoom := by
    intro oid hmem
    have hcommitted : StoreCall.committed (MemoryStore.empty true) calls = [⟨7⟩] := by
      decide +kernel
    rw [hcommitted, List.mem_singleton] at hmem
    rw [hmem, Oid.HasRoom]
    decide
  have hcount : CountsOn (·.database.nextOid.getD 1 < Column.largest) store
      (StoreCall.changes (calls ++ [.act .newOid])) := by
    simp only [calls, StoreCall.changes, StoreCall.change?, List.cons_append, List.nil_append,
      List.filterMap_cons, List.filterMap_nil, CountsOn]
    decide +kernel
  exact ⟨hopen, rfl, stores_answer_alike hopen hrange fun _ => ⟨hroom, hcount⟩⟩

def last : Write := ⟨⟨0x7FFFFFFFFFFFFFFE⟩, none, [1], ∅, none⟩

def small : Write := ⟨⟨5⟩, none, [2], ∅, none⟩

/-- The oid taken between the two commits is the largest column, so the second
commit meets a negative counter. -/
def overflow : List StoreCall :=
  [.act (.commit (.ofMicros 10) {} [last]), .act .newOid,
    .act (.commit (.ofMicros 20) {} [small])]

/-- It is not enough that every object committed leaves room.  After the overflow
a database hands out 6 and the memory store 2 ^ 63. -/
theorem overflowed_counters_differ :
    ¬ ∀ (keepsHistory : Bool) (settings : PoolSettings) (store : RelationalStore),
      RelationalStore.open {} keepsHistory settings = .ok store →
      ∀ (calls : List StoreCall) (call : StoreCall),
        StoreCall.AllInRange (MemoryStore.empty keepsHistory) (calls ++ [call]) →
        (call = .act .newOid →
          ∀ oid ∈ StoreCall.committed (MemoryStore.empty keepsHistory) calls, oid.HasRoom) →
        call.answer (StoreCall.afterAll store calls) =
          call.answer (StoreCall.afterAll (MemoryStore.empty keepsHistory) calls) := by
  intro h
  have hfirst : assigned? (MemoryStore.empty true) (.commit (.ofMicros 10) {} [last]) =
      some ⟨10⟩ := by decide +kernel
  have hsecond : assigned? (StoreCall.afterAll (MemoryStore.empty true) (overflow.take 2))
      (.commit (.ofMicros 20) {} [small]) = some ⟨20⟩ := by decide +kernel
  have hrange : StoreCall.AllInRange (MemoryStore.empty true) (overflow ++ [.act .newOid]) := by
    refine ⟨⟨by decide, fun tid htid => ?_⟩, trivial, ⟨by decide, fun tid htid => ?_⟩, trivial,
      trivial⟩
    · rw [← Option.some.inj (hfirst.symm.trans htid), Tid.IsDated]
      decide
    · rw [← Option.some.inj (hsecond.symm.trans htid), Tid.IsDated]
      decide
  have hroom : ∀ oid ∈ StoreCall.committed (MemoryStore.empty true) overflow, oid.HasRoom := by
    have hcommitted : StoreCall.committed (MemoryStore.empty true) overflow =
        [⟨0x7FFFFFFFFFFFFFFE⟩, ⟨5⟩] := by decide +kernel
    rw [hcommitted]
    simp only [Oid.HasRoom]
    decide
  have hmemory : (StoreCall.act .newOid).answer
      (StoreCall.afterAll (MemoryStore.empty true) overflow) =
        .ok (⟨0x8000000000000000⟩ : Oid) := by rfl
  have hstore : (StoreCall.act .newOid).answer (StoreCall.afterAll store overflow) =
      .ok (⟨6⟩ : Oid) := by rfl
  have hanswers := h true {} store rfl overflow (.act .newOid) hrange fun _ => hroom
  rw [hmemory, hstore] at hanswers
  have hsame : (⟨6⟩ : Oid) = ⟨0x8000000000000000⟩ := Except.ok.inj hanswers
  exact absurd hsame (by decide)

end AgreementWitness

end ObjectVault
