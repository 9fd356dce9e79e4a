/-
The stores to choose from, as one type of store.
-/
import ObjectVault.Store.Memory
import ObjectVault.Store.Relational

namespace ObjectVault

inductive Backend where
  | memory (store : MemoryStore)
  | relational (store : RelationalStore)

namespace Backend

/-- Ask whichever store it is. -/
def ask (backend : Backend) (question : {σ : Type} → [ObjectStore σ] → σ → α) : α :=
  match backend with
  | memory store => question store
  | relational store => question store

/-- Change whichever store it is. -/
def change (backend : Backend)
    (action : {σ : Type} → [ObjectStore σ] → σ → Except StoreError (α × σ)) :
    Except StoreError (α × Backend) :=
  match backend with
  | memory store => (action store).map fun (answer, store) => (answer, memory store)
  | relational store => (action store).map fun (answer, store) => (answer, relational store)

instance : ObjectStore Backend where
  keepsHistory backend := backend.ask ObjectStore.keepsHistory
  newOid backend := backend.change ObjectStore.newOid
  lastTid backend := backend.ask ObjectStore.lastTid
  load backend oid := backend.ask (ObjectStore.load · oid)
  loadMany backend oids := backend.ask (ObjectStore.loadMany · oids)
  currentTids backend oids := backend.ask (ObjectStore.currentTids · oids)
  loadBefore backend oid before := backend.ask (ObjectStore.loadBefore · oid before)
  loadVersion backend oid tid := backend.ask (ObjectStore.loadVersion · oid tid)
  loadBlob backend oid tid := backend.ask (ObjectStore.loadBlob · oid tid)
  versions backend oid before limit := backend.ask (ObjectStore.versions · oid before limit)
  oidsInTransaction backend tid := backend.ask (ObjectStore.oidsInTransaction · tid)
  packedBefore backend := backend.ask ObjectStore.packedBefore
  commit backend now note writes := backend.change (ObjectStore.commit · now note writes)
  changesSince backend since := backend.ask (ObjectStore.changesSince · since)
  reachableFrom backend roots := backend.ask (ObjectStore.reachableFrom · roots)
  committedUpto backend snapshot := backend.ask (ObjectStore.committedUpto · snapshot)
  deleteObjects backend oids guardTid :=
    backend.change (ObjectStore.deleteObjects · oids guardTid)
  pruneHistory backend boundary := backend.change (ObjectStore.pruneHistory · boundary)
  dropHistory backend := backend.change ObjectStore.dropHistory
  describe backend := backend.ask ObjectStore.describe

end Backend

end ObjectVault
