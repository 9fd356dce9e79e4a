/-
The tables of a TOML document while it is being read.  A table remembers how
it came about, since that decides whether it may be defined or extended later:
an implicit table was only named on the way to another one, and a dotted one
was named by a dotted key.
-/
import ObjectVault.Document

namespace ObjectVault.Toml

inductive Tree where
  | value (document : Document)
  | table (implicit dotted : Bool) (entries : List (String × Tree))
  /-- The tables under headers of the same name in double brackets. -/
  | tables (elements : List (List (String × Tree)))

abbrev Entries := List (String × Tree)

namespace Tree

mutual

/-- The finished document. -/
def document : Tree → Document
  | .value document => document
  | .table _ _ entries => .record (fields entries)
  | .tables elements => .list (elementDocuments elements)

def fields : List (String × Tree) → List (Bytes × Document)
  | [] => []
  | (key, tree) :: entries => (Bytes.ofText key, tree.document) :: fields entries

def elementDocuments : List (List (String × Tree)) → List Document
  | [] => []
  | entries :: elements => .record (fields entries) :: elementDocuments elements

end

end Tree

namespace Entries

/-- Replace the entry of a key, or add one at the end. -/
def set (key : String) (tree : Tree) : Entries → Entries
  | [] => [(key, tree)]
  | (other, old) :: entries =>
      if other = key then (key, tree) :: entries else (other, old) :: set key tree entries

def erase (key : String) (entries : Entries) : Entries :=
  entries.filter fun (other, _) => other ≠ key

/-- Change the table at the end of a path, where the tables on the way are
made if they are missing.  A dotted path may not enter a table that has been
defined, and no path enters a value.  The change is told whether its table is
dotted. -/
def descend (dottedPath : Bool) (change : Bool → Entries → Option (α × Entries)) :
    List String → Bool → Entries → Option (α × Entries)
  | [], dotted, entries => change dotted entries
  | key :: path, _, entries =>
      match entries.lookup key with
      | none => do
          let (answer, inner) ← descend dottedPath change path dottedPath []
          some (answer, entries.set key (.table true dottedPath inner))
      | some (.value _) => none
      | some (.tables elements) => do
          let last ← elements.getLast?
          let (answer, inner) ← descend dottedPath change path false last
          some (answer, entries.set key (.tables (elements.dropLast ++ [inner])))
      | some (.table implicit dotted inner) =>
          if dottedPath && !implicit then none
          else do
            let (answer, inner) ← descend dottedPath change path dotted inner
            some (answer, entries.set key (.table implicit dotted inner))

/-- Add a value under a dotted key.  A table entered by a key of one part has
to be undotted and one entered by a longer key has to be dotted. -/
def insertValue (entries : Entries) (path : List String) (key : String)
    (value : Document) : Option Entries :=
  let insert (dotted : Bool) (entries : Entries) : Option (Unit × Entries) :=
    if dotted == path.isEmpty then none
    else if (entries.lookup key).isSome then none
    else some ((), entries.set key (.value value))
  (descend true insert path false entries).map Prod.snd

/-- Take out the table that a header opens, so that it can be read on.  It has
to be new or merely implicit. -/
def openTable (root : Entries) (path : List String) (key : String) :
    Option (Entries × Entries) :=
  let take (_ : Bool) (entries : Entries) : Option (Entries × Entries) :=
    match entries.lookup key with
    | none => some ([], entries)
    | some (.table true false inner) => some (inner, entries.erase key)
    | some _ => none
  descend false take path false root

/-- Put a finished table in its place. -/
def closeTable (root : Entries) (path : List String) (key : String) (table : Entries) :
    Option Entries :=
  let put (_ : Bool) (entries : Entries) : Option (Unit × Entries) :=
    some ((), entries.set key (.table false false table))
  (descend false put path false root).map Prod.snd

/-- Add a finished table to those of the same header. -/
def closeElement (root : Entries) (path : List String) (key : String) (table : Entries) :
    Option Entries :=
  let put (_ : Bool) (entries : Entries) : Option (Unit × Entries) :=
    match entries.lookup key with
    | none => some ((), entries.set key (.tables [table]))
    | some (.tables elements) => some ((), entries.set key (.tables (elements ++ [table])))
    | some _ => none
  (descend false put path false root).map Prod.snd

end Entries

end ObjectVault.Toml
