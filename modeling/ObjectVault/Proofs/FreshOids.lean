/-
Fresh oids.  As long as its counter does not overflow, a store hands out no oid
that is the root, that it handed out before, or that an earlier commit wrote,
whatever was deleted since.  The memory store moves its counter above every oid
that a commit writes.  A database compares numbers with a sign, and where a
batch holds an oid in the upper half of the words it misses the others.
-/
import ObjectVault.Proofs.LawfulStore
import ObjectVault.Proofs.StoreAgreement

namespace ObjectVault

/-- A call that uses oids: it hands one out, or it commits a batch. -/
inductive OidUse where
  | handedOut (oid : Oid)
  | written (oids : List Oid)
deriving DecidableEq

namespace OidUse

/-- Enter what a call does, going by the store's answer. -/
def enter [ObjectStore σ] (uses : List OidUse) (store : σ) : StoreAction → List OidUse
  | .newOid =>
      match ObjectStore.newOid store with
      | .ok (oid, _) => uses ++ [.handedOut oid]
      | .error _ => uses
  | .commit now note writes =>
      match ObjectStore.commit store now note writes with
      | .ok _ => uses ++ [.written (writes.map Write.oid)]
      | .error _ => uses
  | .deleteObjects .. | .pruneHistory _ | .dropHistory => uses

/-- Enter a run. -/
def enterAll [ObjectStore σ] (uses : List OidUse) (store : σ) : List StoreAction → List OidUse
  | [] => uses
  | action :: rest => enterAll (enter uses store action) (perform store action) rest

/-- All uses of oids in a run, the first one first. -/
def ofRun [ObjectStore σ] (store : σ) (actions : List StoreAction) : List OidUse :=
  enterAll [] store actions

/-- Whether the oid is spent by the use: it was handed out, or a commit wrote
it in a batch where the counter passes it. -/
def Spends (passes : List Oid → Oid → Prop) (oid : Oid) : OidUse → Prop
  | handedOut other => oid = other
  | written oids => oid ∈ oids ∧ passes oids oid

/-- No oid that is handed out is the root or was spent before. -/
structure Fresh (passes : List Oid → Oid → Prop) (uses : List OidUse) : Prop where
  ne_root {oid : Oid} : .handedOut oid ∈ uses → oid ≠ .root
  unspent : uses.Pairwise fun earlier later =>
    ∀ oid, later = .handedOut oid → ¬ earlier.Spends passes oid

end OidUse

/-- What a store promises about its counter of oids. -/
structure CountsOids [ObjectStore σ] (valid : σ → Prop) (counter : σ → Nat) (limit : Nat)
    (passes : List Oid → Oid → Prop) : Prop where
  limit_le : limit ≤ Oid.maxWord
  valid_perform {store : σ} (action : StoreAction) : valid store →
    (action.takesOid → counter store < limit) → valid (perform store action)
  pos {store : σ} : valid store → 1 ≤ counter store
  counter_le {store : σ} (action : StoreAction) : valid store →
    (action.takesOid → counter store < limit) → counter store ≤ counter (perform store action)
  newOid_eq {store : σ} : valid store → counter store < limit → ∃ after,
    ObjectStore.newOid store = .ok (.ofNat (counter store), after) ∧
      counter after = counter store + 1
  /-- An oid that a commit writes is passed, unless it is beyond every oid to
  be handed out. -/
  passed {store after : σ} {now : Instant} {note : CommitNote} {writes : List Write} {tid : Tid}
    {oid : Oid} : valid store → ObjectStore.commit store now note writes = .ok (tid, after) →
    oid ∈ writes.map Write.oid → passes (writes.map Write.oid) oid →
    oid.toNat < counter after ∨ limit ≤ oid.toNat

/-- What holds along a run whose counter does not overflow: the uses are
fresh, and spent oids are below the counter or out of its reach. -/
structure CountedUses (counter limit : Nat) (passes : List Oid → Oid → Prop)
    (uses : List OidUse) : Prop extends OidUse.Fresh passes uses where
  below {use : OidUse} {oid : Oid} :
    use ∈ uses → use.Spends passes oid → oid.toNat < counter ∨ limit ≤ oid.toNat

namespace CountedUses

variable {counter later limit : Nat} {passes : List Oid → Oid → Prop} {uses : List OidUse}
  (h : CountedUses counter limit passes uses)

include h

theorem mono (hle : counter ≤ later) : CountedUses later limit passes uses where
  toFresh := h.toFresh
  below hmem hspends := (h.below hmem hspends).imp_left (Nat.lt_of_lt_of_le · hle)

theorem handOut (hpos : 1 ≤ counter) (hroom : counter < limit) (hlimit : limit ≤ Oid.maxWord) :
    CountedUses (counter + 1) limit passes (uses ++ [.handedOut (.ofNat counter)]) := by
  have hnumber : (Oid.ofNat counter).toNat = counter := Oid.toNat_ofNat (by omega)
  constructor
  · constructor
    · intro oid hmem
      rcases List.mem_append.mp hmem with hearlier | hlast
      · exact h.ne_root hearlier
      · cases List.mem_singleton.mp hlast
        intro hroot
        have hzero : (Oid.ofNat counter).toNat = 0 := congrArg Oid.toNat hroot
        omega
    · apply List.pairwise_append.mpr
      refine ⟨h.unspent, List.pairwise_singleton _ _, ?_⟩
      intro earlier hearlier last hlast oid hhanded hspends
      cases (List.mem_singleton.mp hlast).symm.trans hhanded
      have hbelow := h.below hearlier hspends
      omega
  · intro use oid hmem hspends
    rcases List.mem_append.mp hmem with hearlier | hlast
    · exact (h.mono (Nat.le_succ counter)).below hearlier hspends
    · cases List.mem_singleton.mp hlast
      have hsame : oid = .ofNat counter := hspends
      rw [hsame, hnumber]
      exact Or.inl (Nat.lt_succ_self counter)

theorem write (hle : counter ≤ later) {oids : List Oid}
    (hpassed : ∀ oid ∈ oids, passes oids oid → oid.toNat < later ∨ limit ≤ oid.toNat) :
    CountedUses later limit passes (uses ++ [.written oids]) := by
  constructor
  · constructor
    · intro oid hmem
      rcases List.mem_append.mp hmem with hearlier | hlast
      · exact h.ne_root hearlier
      · cases List.mem_singleton.mp hlast
    · apply List.pairwise_append.mpr
      refine ⟨h.unspent, List.pairwise_singleton _ _, ?_⟩
      intro earlier _ last hlast oid hhanded
      cases (List.mem_singleton.mp hlast).symm.trans hhanded
  · intro use oid hmem hspends
    rcases List.mem_append.mp hmem with hearlier | hlast
    · exact (h.mono hle).below hearlier hspends
    · cases List.mem_singleton.mp hlast
      exact hpassed oid hspends.1 hspends.2

end CountedUses

namespace CountsOids

variable {σ : Type} [ObjectStore σ] {valid : σ → Prop} {counter : σ → Nat} {limit : Nat}
  {passes : List Oid → Oid → Prop} (hcounts : CountsOids valid counter limit passes)

include hcounts

/-- A call that does not make the counter overflow uses fresh oids only. -/
theorem perform {store : σ} {uses : List OidUse} (hvalid : valid store) (action : StoreAction)
    (hroom : action.takesOid → counter store < limit)
    (h : CountedUses (counter store) limit passes uses) :
    CountedUses (counter (ObjectVault.perform store action)) limit passes
      (OidUse.enter uses store action) := by
  have hle := hcounts.counter_le action hvalid hroom
  cases action with
  | newOid =>
      obtain ⟨after, hnew, hnext⟩ := hcounts.newOid_eq hvalid (hroom rfl)
      simp only [ObjectVault.perform, hnew, perform.left, hnext, OidUse.enter]
      exact h.handOut (hcounts.pos hvalid) (hroom rfl) hcounts.limit_le
  | commit now note writes =>
      cases hcommit : ObjectStore.commit store now note writes with
      | error =>
          simp only [OidUse.enter, hcommit]
          exact h.mono hle
      | ok answer =>
          simp only [ObjectVault.perform, hcommit, perform.left] at hle
          simp only [ObjectVault.perform, hcommit, perform.left, OidUse.enter]
          exact h.write hle fun oid => hcounts.passed hvalid hcommit
  | deleteObjects | pruneHistory | dropHistory => exact h.mono hle

theorem performAll {store : σ} {uses : List OidUse} (hvalid : valid store)
    {actions : List StoreAction} (hroom : CountsOn (counter · < limit) store actions)
    (h : CountedUses (counter store) limit passes uses) :
    OidUse.Fresh passes (OidUse.enterAll uses store actions) := by
  induction actions generalizing store uses with
  | nil => exact h.toFresh
  | cons action rest ih =>
      have hnext := hcounts.perform hvalid action hroom.1 h
      exact ih (hcounts.valid_perform action hvalid hroom.1) hroom.2 hnext

/-- A run whose counter does not overflow uses fresh oids only. -/
theorem fresh {store : σ} (hvalid : valid store) {actions : List StoreAction}
    (hroom : CountsOn (counter · < limit) store actions) :
    OidUse.Fresh passes (OidUse.ofRun store actions) := by
  have hstart : CountedUses (counter store) limit passes [] :=
    ⟨⟨by simp, List.Pairwise.nil⟩, by simp⟩
  exact hcounts.performAll hvalid hroom hstart

end CountsOids

namespace MemoryStore

/-- A batch moves the counter above each oid it writes, or to the largest
word. -/
theorem le_nextOid_foldl_apply (tid : Tid) (store : MemoryStore) (writes : List Write) :
    store.nextOid ≤ (writes.foldl (apply tid) store).nextOid ∧
      ∀ write ∈ writes, min (write.oid.toNat + 1) Oid.maxWord ≤
        (writes.foldl (apply tid) store).nextOid := by
  induction writes generalizing store with
  | nil => simp
  | cons head rest ih =>
      obtain ⟨hle, hrest⟩ := ih (apply tid store head)
      have hstep : (apply tid store head).nextOid =
          max store.nextOid (min (head.oid.toNat + 1) Oid.maxWord) := rfl
      rw [hstep, Nat.max_le] at hle
      exact ⟨hle.1, List.forall_mem_cons.mpr ⟨hle.2, hrest⟩⟩

/-- No call moves the counter back, unless it overflows. -/
theorem nextOid_le_perform {store : MemoryStore} (hsound : store.Sound) (action : StoreAction)
    (hroom : action.takesOid → store.nextOid < Oid.maxWord) :
    store.nextOid ≤ (perform store action).nextOid := by
  cases action with
  | newOid =>
      rw [perform_newOid hsound, following_eq (hroom rfl)]
      exact Nat.le_succ _
  | commit now note writes =>
      rw [perform_commit hsound]
      split
      · exact Nat.le_refl _
      · exact (le_nextOid_foldl_apply _ store writes).1
  | deleteObjects oids guardTid =>
      rw [perform_deleteObjects hsound]
      split <;> exact Nat.le_refl _
  | pruneHistory boundary =>
      rw [perform_pruneHistory hsound, nextOid_prune]
  | dropHistory =>
      rw [perform_dropHistory hsound]
      exact Nat.le_refl _

theorem countsOids :
    CountsOids (fun store : MemoryStore => store.Sound ∧ 1 ≤ store.nextOid)
      (fun store => store.nextOid) Oid.maxWord (fun _ _ => True) where
  limit_le := Nat.le_refl _
  valid_perform {store} action hvalid hroom :=
    ⟨hvalid.1.change change_perform,
      Nat.le_trans hvalid.2 (nextOid_le_perform hvalid.1 action hroom)⟩
  pos hvalid := hvalid.2
  counter_le {store} action hvalid hroom := nextOid_le_perform hvalid.1 action hroom
  newOid_eq {store} hvalid hroom := ⟨_, hvalid.1.online_eq _, following_eq hroom⟩
  passed {store after now note writes tid oid} hvalid hcommit hmem _ := by
    obtain ⟨_, _, rfl⟩ := commit_eq_ok hcommit
    obtain ⟨write, hwrite, rfl⟩ := List.mem_map.mp hmem
    have hle : min (write.oid.toNat + 1) Oid.maxWord ≤
        (store.applyAll tid now note writes).nextOid :=
      (le_nextOid_foldl_apply tid store writes).2 write hwrite
    omega

end MemoryStore

namespace RelationalStore

/-- The number of the next oid. -/
def counter (store : RelationalStore) : Nat := (store.database.nextOid.getD 1).toNat

theorem le_nextOidAfter (next : Option Int) (writes : List Write) :
    next.getD 1 ≤ (nextOidAfter next writes).getD 1 := by
  unfold nextOidAfter
  extract_lets largest floor
  split
  · rename_i hlt
    rw [Option.getD_some]
    exact le_of_lt hlt
  · exact le_refl _

/-- No call moves the counter back, unless it overflows. -/
theorem nextOid_le_perform {store : RelationalStore} (hpos : 1 ≤ store.database.nextOid.getD 1)
    (action : StoreAction)
    (hroom : action.takesOid → store.database.nextOid.getD 1 < Column.largest) :
    store.database.nextOid.getD 1 ≤ (perform store action).database.nextOid.getD 1 := by
  cases action with
  | newOid =>
      rw [nextOid_newOid (le_of_lt hpos) (hroom rfl), Option.getD_some]
      exact le_of_lt (Int.lt_succ _)
  | commit now note writes =>
      cases hcommit : ObjectStore.commit store now note writes with
      | error => simp only [perform, hcommit, perform.left, le_refl]
      | ok answer =>
          obtain ⟨_, _, _, hnext, _⟩ := commit_eq_ok hcommit
          simp only [perform, hcommit, perform.left, hnext]
          exact le_nextOidAfter _ writes
  | deleteObjects oids guardTid => rw [nextOid_deleteObjects]
  | pruneHistory boundary => rw [nextOid_pruneHistory]
  | dropHistory => rw [nextOid_dropHistory]

/-- The counter passes an oid with room above it if the whole batch has
room. -/
def Passes (oids : List Oid) (oid : Oid) : Prop := oid.HasRoom → ∀ other ∈ oids, other.HasRoom

/-- The counter is a positive number, so it has room as a column. -/
theorem room_of_counter_lt {store : RelationalStore} {action : StoreAction}
    (hroom : action.takesOid → store.counter < 0x7FFFFFFFFFFFFFFF) (htakes : action.takesOid) :
    store.database.nextOid.getD 1 < Column.largest := by
  have hlt := hroom htakes
  rw [counter] at hlt
  simp only [Column.largest]
  omega

theorem countsOids :
    CountsOids (fun store : RelationalStore => 1 ≤ store.database.nextOid.getD 1) counter
      0x7FFFFFFFFFFFFFFF Passes where
  limit_le := by decide
  valid_perform {store} action hvalid hroom :=
    le_trans hvalid (nextOid_le_perform hvalid action (room_of_counter_lt hroom))
  pos hvalid := by
    rw [counter]
    omega
  counter_le {store} action hvalid hroom :=
    Int.toNat_le_toNat (nextOid_le_perform hvalid action (room_of_counter_lt hroom))
  newOid_eq {store} hvalid hroom := by
    have hnumber : ((counter store : Nat) : Int) = store.database.nextOid.getD 1 :=
      Int.toNat_of_nonneg (by omega)
    have hanswer : ObjectStore.newOid store =
        .ok (.ofColumn (store.database.nextOid.getD 1), ObjectVault.perform store .newOid) := rfl
    refine ⟨ObjectVault.perform store .newOid, ?_, ?_⟩
    · rw [hanswer, ← Oid.ofColumn_natCast, hnumber]
    · have hcolumn : store.database.nextOid.getD 1 < Column.largest := by
        rw [← hnumber]
        exact Int.ofNat_lt.mpr hroom
      rw [counter, nextOid_newOid (le_of_lt hvalid) hcolumn, Option.getD_some, ← hnumber]
      rfl
  passed {store after now note writes tid oid} hvalid hcommit hmem hpasses := by
    obtain ⟨_, _, _, hnext, _⟩ := commit_eq_ok hcommit
    by_cases hroom : oid.HasRoom
    · have hall : ∀ write ∈ writes, write.oid.HasRoom :=
        List.forall_mem_map.mp (hpasses hroom)
      have hle : oid.toNat ≤ (writes.map fun write => write.oid.toNat).foldl max 0 := by
        obtain ⟨write, hwrite, rfl⟩ := List.mem_map.mp hmem
        have hnumber := List.mem_map_of_mem (f := fun write => write.oid.toNat) hwrite
        rw [List.foldl_max_eq_max (List.ne_nil_of_mem hnumber)]
        exact le_trans (List.le_max_of_mem hnumber) (Nat.le_max_right _ _)
      rw [counter, hnext, nextOidAfter_eq hall]
      omega
    · -- the counter overflows its column before it comes to an oid without room
      exact Or.inr (Nat.le_of_not_lt hroom)

end RelationalStore

/-- Fresh oids are fresh.  In a run whose counter of oids does not overflow no
oid that is handed out is the root, was handed out before, or was written by an
earlier commit; a database may hand out an oid that was written together with
one in the upper half of the words. -/
theorem new_oids_fresh (keepsHistory : Bool) (actions : List StoreAction) :
    (CountsOn (·.nextOid < Oid.maxWord) (MemoryStore.empty keepsHistory) actions →
      OidUse.Fresh (fun _ _ => True)
        (OidUse.ofRun (MemoryStore.empty keepsHistory) actions)) ∧
    ∀ settings store, RelationalStore.open {} keepsHistory settings = .ok store →
      CountsOn (·.database.nextOid.getD 1 < Column.largest) store actions →
      OidUse.Fresh RelationalStore.Passes (OidUse.ofRun store actions) := by
  constructor
  · intro hroom
    exact MemoryStore.countsOids.fresh ⟨MemoryStore.sound_empty, Nat.le_refl 1⟩ hroom
  · intro settings store hopen hroom
    have hstart : 1 ≤ store.database.nextOid.getD 1 :=
      (RelationalStore.mirrors_open hopen).2.next.ge
    exact RelationalStore.countsOids.fresh hstart
      (hroom.imp fun _ hlt => (Int.toNat_lt' (by decide)).mpr hlt)

namespace FreshOidWitness

def write (word : UInt64) : Write := ⟨⟨word⟩, none, [], .ofOids [], none⟩

def store : RelationalStore where
  keepsHistory := false
  connections := 1
  database := { mode := some 0 }

/-- Object 5 is written and deleted between two new oids. -/
def renewal : List StoreAction :=
  [.newOid, .commit (.ofMicros 10) {} [write 5], .deleteObjects [⟨5⟩] ⟨10⟩, .newOid]

/-- Both stores hand out 1 and then 6. -/
theorem deleted_oid_not_renewed :
    OidUse.ofRun (MemoryStore.empty false) renewal =
        [.handedOut ⟨1⟩, .written [⟨5⟩], .handedOut ⟨6⟩] ∧
      OidUse.Fresh (fun _ _ => True) (OidUse.ofRun (MemoryStore.empty false) renewal) ∧
      OidUse.ofRun store renewal = OidUse.ofRun (MemoryStore.empty false) renewal ∧
      OidUse.Fresh RelationalStore.Passes (OidUse.ofRun store renewal) := by
  have hmemory : CountsOn (·.nextOid < Oid.maxWord) (MemoryStore.empty false) renewal := by
    simp only [CountsOn, renewal]
    decide +kernel
  have hdatabase : CountsOn (·.database.nextOid.getD 1 < Column.largest) store renewal := by
    simp only [CountsOn, renewal]
    decide +kernel
  obtain ⟨hfresh, hopened⟩ := new_oids_fresh false renewal
  refine ⟨by decide +kernel, hfresh hmemory, by decide +kernel, ?_⟩
  exact hopened {} store rfl hdatabase

/-- A commit of an object in the lower half of the words and one in the upper. -/
def mixed : List StoreAction :=
  [.commit (.ofMicros 10) {} [write 1, write 0x8000000000000000], .newOid]

/-- Not every new oid of a database is unwritten: the commit leaves the counter
where it was. -/
theorem written_oid_handed_out :
    ¬ ∀ (keepsHistory : Bool) (actions : List StoreAction) settings store,
      RelationalStore.open {} keepsHistory settings = .ok store →
      CountsOn (·.database.nextOid.getD 1 < Column.largest) store actions →
      OidUse.Fresh (fun _ _ => True) (OidUse.ofRun store actions) := by
  intro h
  have hroom : CountsOn (·.database.nextOid.getD 1 < Column.largest) store mixed := by
    simp only [CountsOn, mixed]
    decide +kernel
  have hran : OidUse.ofRun store mixed =
      [.written [⟨1⟩, ⟨0x8000000000000000⟩], .handedOut ⟨1⟩] := by decide +kernel
  have hfresh := (h false mixed {} store rfl hroom).unspent
  rw [hran, List.pairwise_pair] at hfresh
  exact hfresh ⟨1⟩ rfl ⟨by decide, trivial⟩

end FreshOidWitness

end ObjectVault
