/-
Direct edits of a database's tables, past every store.  They are how a
database comes to contradict itself.  Integers are given as any integer and
kept as the column of the same 64 bits.
-/
import ObjectVault.Store.Relational

namespace ObjectVault

/-- Where a version is looked for. -/
inductive VersionTable where
  | current
  | history
deriving DecidableEq

/-- The settings that a database keeps beside its tables. -/
inductive Register where
  | lastTid
  | nextOid
  | packedBefore
  | mode
deriving DecidableEq

inductive TableEdit where
  | setPrev (table : VersionTable) (oid : Oid) (tid : Tid) (prev : Option Tid)
  | deleteVersion (table : VersionTable) (oid : Oid) (tid : Tid)
  | insertVersion (table : VersionTable) (oid : Oid) (tid : Tid) (prev : Option Tid)
      (state : Bytes)
  /-- Set the references of all rows of an object. -/
  | setRefs (table : VersionTable) (oid : Oid) (refs : Bytes)
  | setSize (table : VersionTable) (oid : Oid) (size : Int)
  | setLogTime (tid : Tid) (time : String)
  | deleteLog (tid : Tid)
  | setRegister (register : Register) (value : Int)

namespace Database

/-- Change the row of a version, and count it. -/
def editVersion (database : Database) (table : VersionTable) (oid : Oid) (tid : Tid)
    (change : VersionRow → VersionRow) : Nat × Database :=
  match table with
  | .history =>
      match database.history[(oid, tid)]? with
      | some row =>
          (1, { database with history := database.history.insert (oid, tid) (change row) })
      | none => (0, database)
  | .current =>
      match database.current[oid]? with
      | some row =>
          if row.tid = tid then
            (1, { database with
              current := database.current.insert oid { change row.toVersionRow with tid } })
          else (0, database)
      | none => (0, database)

/-- Change every row of an object, and count them. -/
def editObject (database : Database) (table : VersionTable) (oid : Oid)
    (change : VersionRow → VersionRow) : Nat × Database :=
  let tids := match table with
    | .history => (database.archived oid).map Prod.fst
    | .current => (database.currentTid? oid).toList
  (tids.length, tids.foldl (fun database tid =>
    (database.editVersion table oid tid change).2) database)

def setRegister (database : Database) (value : Int) : Register → Database
  | .lastTid => { database with lastTid := some value }
  | .nextOid => { database with nextOid := some value }
  | .packedBefore => { database with packedBefore := some value }
  | .mode => { database with mode := some value }

/-- Carry out an edit, and count the rows it touches. -/
def edit (database : Database) : TableEdit → Nat × Database
  | .setPrev table oid tid prev => database.editVersion table oid tid ({ · with prev })
  | .deleteVersion .history oid tid =>
      ((database.history.filter fun key _ => key = (oid, tid)).size,
        { database with history := database.history.erase (oid, tid) })
  | .deleteVersion .current oid tid =>
      if database.currentTid? oid = some tid then
        (1, { database with current := database.current.erase oid })
      else (0, database)
  | .insertVersion table oid tid prev state =>
      let row : VersionRow := ⟨prev, state, state.length, Column.refs ∅⟩
      (1, match table with
        | .history => { database with history := database.history.insert (oid, tid) row }
        | .current => { database with current := database.current.insert oid { row with tid } })
  | .setRefs table oid refs => database.editObject table oid ({ · with refs })
  | .setSize table oid size =>
      database.editObject table oid ({ · with size := Column.ofInt size })
  | .setLogTime tid time =>
      match database.log[tid]? with
      | some row => (1, { database with log := database.log.insert tid { row with time } })
      | none => (0, database)
  | .deleteLog tid =>
      if database.log.contains tid then (1, { database with log := database.log.erase tid })
      else (0, database)
  | .setRegister register value => (1, database.setRegister (Column.ofInt value) register)

end Database

end ObjectVault
