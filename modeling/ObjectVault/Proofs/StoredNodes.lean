/-
Stored nodes.  A node comes back from the bytes it is stored as, and what it is
stored with as its references are its children.  A vault stores the last object
it is given for an oid, and finds it there when it reads the object next.
-/
import ObjectVault.Node
import ObjectVault.Proofs.BatchedReads
import ObjectVault.Proofs.VoteAndCommit

namespace ObjectVault

namespace Document

/-- A field is found by its name, whatever stands beside it. -/
theorem field?_of_mem {fields : List (String × Document)}
    (hdistinct : (fields.map Prod.fst).Nodup) {field : String × Document} (hmem : field ∈ fields) :
    field? field.1 (fields.map fun entry => (Bytes.ofText entry.1, entry.2)) =
      some (some field.2) := by
  have hfilter : (fields.map fun entry => (Bytes.ofText entry.1, entry.2)).filter
      (fun entry => entry.1 = Bytes.ofText field.1) = [(Bytes.ofText field.1, field.2)] := by
    induction fields with
    | nil => cases hmem
    | cons head rest ih =>
        obtain ⟨hnew, hrest⟩ := List.nodup_cons.mp hdistinct
        rw [List.map_cons]
        rcases List.mem_cons.mp hmem with rfl | hlater
        · rw [List.filter_cons_of_pos (by simp), List.cons.injEq, List.filter_eq_nil_iff]
          refine ⟨rfl, ?_⟩
          intro other hother
          obtain ⟨entry, hentry, rfl⟩ := List.mem_map.mp hother
          rw [decide_eq_true_eq]
          intro hsame
          exact hnew (Bytes.ofText_inj hsame ▸ List.mem_map_of_mem hentry)
        · have hother : head.1 ≠ field.1 := by
            intro hsame
            exact hnew (hsame ▸ List.mem_map_of_mem hlater)
          rw [List.filter_cons_of_neg (by simpa using mt Bytes.ofText_inj hother), ih hrest hlater]
  rw [field?]
  split
  · rename_i hnone
    cases hfilter.symm.trans hnone
  · rename_i hone
    cases hfilter.symm.trans hone
    rfl
  · rename_i hmany
    exact absurd hfilter (hmany _ _)

/-- A record has a value in the slot of each of its fields. -/
theorem slots?_ofFields (fields : List (String × Document))
    (hdistinct : (fields.map Prod.fst).Nodup) (positional : Positional) :
    (ofFields fields).slots? (fields.map Prod.fst) positional =
      some (fields.map fun field => some field.2) := by
  have hkeys : (fields.map fun entry => (Bytes.ofText entry.1, entry.2)).all
      fun entry => (Bytes.text? entry.1).isSome := by
    simp
  rw [ofFields, slots?]
  refine (if_pos hkeys).trans ?_
  rw [List.mapM_map]
  exact mapM_eq_pure (fun field => some field.2) fun field hmem => field?_of_mem hdistinct hmem

theorem text?_ofText (text : String) : (ofText text).text? = some text :=
  Bytes.text?_ofText text

theorem listOf?_map {α : Type} {write : α → Document} {read : Document → Option α}
    (hread : ∀ a, read (write a) = some a) (items : List α) :
    (Document.list (items.map write)).listOf? read = some items := by
  rw [listOf?, items?, Option.bind_some, List.mapM_map]
  exact (mapM_eq_pure id fun a _ => hread a).trans (by simp)

end Document

theorem Oid.read?_write (oid : Oid) : Exchange.read? (Exchange.write oid) = some oid := by
  have hword : (Document.ofNat oid.toNat).word? = some oid.toNat := if_pos oid.toNat_le_maxWord
  calc Exchange.read? (Exchange.write oid)
      = (Document.ofNat oid.toNat).word?.map Oid.ofNat := rfl
    _ = some oid := by rw [hword, Option.map_some, Oid.ofNat_toNat]

theorem Oid.isPlain_write (oid : Oid) : (Exchange.write oid : Document).isPlain := by
  have hword := oid.word.toNat_lt_size
  have hplain : (Document.integer oid.toNat).isPlain := by
    rw [Document.isPlain, Bool.and_eq_true, decide_eq_true_eq, decide_eq_true_eq, toNat]
    exact ⟨by omega, Int.ofNat_lt.mpr hword⟩
  exact hplain

namespace Node

theorem read?_write (node : Node) : Exchange.read? (Exchange.write node) = some node := by
  have hslots : (Exchange.write node).slots? ["label", "children"] =
      some [some (.ofText node.label), some (.list (node.children.map Exchange.write))] :=
    Document.slots?_ofFields [("label", .ofText node.label),
      ("children", .list (node.children.map Exchange.write))] (by simp) {}
  refine Option.bind_eq_some_iff.mpr ⟨_, hslots, ?_⟩
  refine Option.bind_eq_some_iff.mpr ⟨node.label, Document.text?_ofText node.label, ?_⟩
  exact Option.bind_eq_some_iff.mpr
    ⟨node.children, Document.listOf?_map Oid.read?_write node.children, rfl⟩

theorem isPlain_write (node : Node) : (Exchange.write node : Document).isPlain := by
  have hchildren : Document.arePlain (node.children.map Exchange.write) := by
    rw [Document.arePlain_iff]
    intro child hchild
    obtain ⟨oid, _, rfl⟩ := List.mem_map.mp hchild
    exact oid.isPlain_write
  have hfields : Document.fieldsArePlain [(Bytes.ofText "label", .ofText node.label),
      (Bytes.ofText "children", .list (node.children.map Exchange.write))] := by
    simp only [Document.fieldsArePlain, Document.ofText, Document.isPlain, hchildren, Bool.and_true]
  exact hfields

/-- A node comes back from its bytes. -/
theorem decode_encode (node : Node) : codec.decode node.encode.state = .ok node := by
  have hread : decode? node.encode.state = some node := by
    rw [decode?, encode, Json.read?_write node.isPlain_write]
    exact node.read?_write
  simp only [codec, hread]

theorem mem_refs_encode {node : Node} {oid : Oid} :
    oid ∈ node.encode.refs ↔ oid ∈ node.children :=
  OidSet.mem_ofOids

end Node

namespace Transaction

theorem mem_stageInto_self (write : Write) (writes : List Write) :
    write ∈ stageInto write writes := by
  induction writes with
  | nil => exact List.mem_singleton_self write
  | cons head rest ih =>
      rw [stageInto]
      split
      · exact List.mem_cons_self
      · exact List.mem_cons_of_mem head ih

theorem mem_stageInto_of_ne {write other : Write} {writes : List Write} (hmem : other ∈ writes)
    (hne : other.oid ≠ write.oid) : other ∈ stageInto write writes := by
  induction writes with
  | nil => cases hmem
  | cons head rest ih =>
      rw [stageInto]
      rcases List.mem_cons.mp hmem with rfl | hrest
      · rw [if_neg hne]
        exact List.mem_cons_self
      · split
        · exact List.mem_cons_of_mem write hrest
        · exact List.mem_cons_of_mem head (ih hrest)

theorem mem_stageAll_of_mem {writes calls : List Write} {write : Write} (hmem : write ∈ writes)
    (hlast : write.oid ∉ calls.map Write.oid) : write ∈ stageAll writes calls := by
  induction calls generalizing writes with
  | nil => exact hmem
  | cons call rest ih =>
      rw [List.map_cons, List.mem_cons, not_or] at hlast
      exact ih (mem_stageInto_of_ne hmem hlast.1) hlast.2

/-- The last write that is staged for an object stays. -/
theorem mem_stageAll_of_last {writes earlier later : List Write} {write : Write}
    (hlast : write.oid ∉ later.map Write.oid) :
    write ∈ stageAll writes (earlier ++ write :: later) := by
  rw [stageAll, List.foldl_append, List.foldl_cons]
  exact mem_stageAll_of_mem (mem_stageInto_self write _) hlast

end Transaction

/-- The write that stores a node. -/
def StoreRequest.write (request : StoreRequest Node) : Write :=
  ⟨request.oid, request.expected, request.object.encode.state, request.object.encode.refs,
    request.blob⟩

/-- An open transaction takes a whole batch of nodes. -/
theorem Vault.foldlM_stage {txn : Transaction} (hopened : txn.state = .opened)
    (requests : List (StoreRequest Node)) :
    requests.foldlM (Vault.stage Node.codec) txn =
      .ok { txn with
        writes := Transaction.stageAll txn.writes (requests.map StoreRequest.write) } := by
  induction requests generalizing txn with
  | nil => rfl
  | cons request rest ih =>
      have hstage : Vault.stage Node.codec txn request =
          .ok { txn with writes := Transaction.stageInto request.write txn.writes } := by
        simp only [Vault.stage, Vault.stageWrite, Transaction.stage, Node.codec, if_pos hopened]
        rfl
      rw [List.foldlM_cons, hstage]
      exact ih hopened

theorem RelationalStore.load_of_commit {store after : RelationalStore} {now : Instant}
    {note : CommitNote} {writes : List Write} {tid : Tid}
    (h : ObjectStore.commit store now note writes = .ok (tid, after)) {write : Write}
    (hwrite : write ∈ writes) :
    ObjectStore.load after write.oid = .ok (some (write.version tid)) := by
  have hrow := (current_of_commit h).1 write hwrite
  have hrefs : Column.readRefs? (write.version tid).currentRow.refs = some write.refs :=
    Column.readRefs?_refs write.refs
  calc ObjectStore.load after write.oid
      = after.database.currentVersion? write.oid := rfl
    _ = ((write.version tid).currentRow.version write.oid tid).map some := by
          rw [Database.currentVersion?, hrow]
          rfl
    _ = .ok (some (write.version tid)) := by
          rw [VersionRow.version, hrefs]
          rfl

/-- A committed write is the current version of its object. -/
theorem Backend.load_of_commit {backend after : Backend} {now : Instant} {note : CommitNote}
    {writes : List Write} {tid : Tid}
    (h : ObjectStore.commit backend now note writes = .ok (tid, after)) {write : Write}
    (hwrite : write ∈ writes) :
    ObjectStore.load after write.oid = .ok (some (write.version tid)) := by
  cases backend with
  | memory store =>
      obtain ⟨⟨_, left⟩, hcommit, hafter⟩ := map_eq_ok h
      cases hafter
      exact MemoryStore.load_of_commit hcommit hwrite
  | relational store =>
      obtain ⟨⟨_, left⟩, hcommit, hafter⟩ := map_eq_ok h
      cases hafter
      exact RelationalStore.load_of_commit hcommit hwrite

namespace Vault

/-- A successful batch leaves the last request for each object in the store, and
nothing of the object in the cache. -/
theorem store_eq_ok {backend : Backend} {vault : Vault Node} {clock : Clock} {note : CommitNote}
    {earlier later : List (StoreRequest Node)} {request : StoreRequest Node}
    {outcome : Outcome Node Backend Tid} {tid : Tid}
    (houtcome : vault.store Node.codec clock backend note (earlier ++ request :: later) = outcome)
    (hresult : outcome.result = .ok tid) (hlast : request.oid ∉ later.map StoreRequest.oid) :
    outcome.vault.cache.find? request.oid = none ∧
      ObjectStore.load outcome.store request.oid = .ok (some (request.write.version tid)) := by
  subst houtcome
  have hopened : (vault.start clock note).state = .opened := rfl
  have hstaged := foldlM_stage hopened (earlier ++ request :: later)
  have hwrite : request.write ∈ Transaction.stageAll (vault.start clock note).writes
      ((earlier ++ request :: later).map StoreRequest.write) := by
    rw [List.map_append, List.map_cons]
    refine Transaction.mem_stageAll_of_last ?_
    rw [List.map_map]
    exact hlast
  rcases (CommitCall.objects note (earlier ++ request :: later)).answer_cases Node.codec vault clock
      backend with ⟨_, _, hempty⟩ | ⟨answer, txn, hanswer, htxn, _, hcommit, hvault⟩
  · have hnil : Transaction.stageAll (vault.start clock note).writes
        ((earlier ++ request :: later).map StoreRequest.write) = [] := hempty tid _ hresult hstaged
    rw [hnil] at hwrite
    cases hwrite
  · cases hresult.symm.trans hanswer
    cases hstaged.symm.trans htxn
    refine ⟨?_, Backend.load_of_commit hcommit hwrite⟩
    have hcache : (vault.store Node.codec clock backend note
        (earlier ++ request :: later)).vault.cache = vault.cache.invalidate _ :=
      congrArg Vault.cache hvault
    rw [hcache, Cache.find?_invalidate, if_pos]
    exact List.mem_map_of_mem hwrite

end Vault

/-- Storing nodes loses nothing.  Every node is encoded, is decoded from its
state again, and has its children as its references.  After a batch was stored,
a read of one of its objects answers the last node that the batch has for it,
and the references of the stored version are the children of that node. -/
theorem stored_nodes_read_back :
    (∀ node : Node, Node.codec.encode node = .ok node.encode ∧
      Node.codec.decode node.encode.state = .ok node ∧
      ∀ oid, oid ∈ node.encode.refs ↔ oid ∈ node.children) ∧
    ∀ (backend : Backend) (vault : Vault Node) (clock : Clock) (note : CommitNote)
      (earlier later : List (StoreRequest Node)) (request : StoreRequest Node)
      (outcome : Vault.Outcome Node Backend Tid) (tid : Tid),
      vault.store Node.codec clock backend note (earlier ++ request :: later) = outcome →
      outcome.result = .ok tid → request.oid ∉ later.map StoreRequest.oid →
        (outcome.vault.load Node.codec outcome.store request.oid).1 = .ok (request.object, tid) ∧
        ∃ version, ObjectStore.load outcome.store request.oid = .ok (some version) ∧
          ∀ oid, oid ∈ version.refs ↔ oid ∈ request.object.children := by
  constructor
  · intro node
    exact ⟨rfl, node.decode_encode, fun _ => Node.mem_refs_encode⟩
  · intro backend vault clock note earlier later request outcome tid houtcome hresult hlast
    obtain ⟨hmissing, hload⟩ := Vault.store_eq_ok houtcome hresult hlast
    have hdecode : Node.codec.decode (request.write.version tid).state = .ok request.object :=
      request.object.decode_encode
    refine ⟨?_, request.write.version tid, hload, fun _ => Node.mem_refs_encode⟩
    rw [Vault.load_of_missing hmissing, Vault.loadStored, hload]
    simp only [hdecode]
    rfl

namespace StoredNodeWitness

/-- The label needs escapes, and a child occurs twice. -/
def node : Node := ⟨"a \"quoted\"\n\\ label: ä", [⟨8⟩, ⟨0⟩, ⟨8⟩, ⟨0xFFFFFFFFFFFFFFFF⟩]⟩

def clock : Clock := ⟨.ofMicros 10, 0⟩

def vault : Vault Node := { settings := {}, cache := { budget := 100 }, synced := none }

/-- Object 7 is stored twice in one batch. -/
theorem second_node_read :
    ∃ outcome : Vault.Outcome Node Backend Tid,
      vault.store Node.codec clock (.memory (.empty true)) {}
        [⟨⟨7⟩, none, ⟨"", []⟩, none⟩, ⟨⟨7⟩, none, node, none⟩] = outcome ∧
      outcome.result = .ok ⟨10⟩ ∧
      (outcome.vault.load Node.codec outcome.store ⟨7⟩).1 = .ok (node, ⟨10⟩) := by
  refine ⟨_, rfl, by rfl, ?_⟩
  exact (stored_nodes_read_back.2 (.memory (.empty true)) vault clock {}
    [⟨⟨7⟩, none, ⟨"", []⟩, none⟩] [] ⟨⟨7⟩, none, node, none⟩ _ ⟨10⟩ rfl (by rfl) nofun).1

end StoredNodeWitness

end ObjectVault
