/-
Documents: trees of plain data, as JSON and TOML write them, and the reading
of typed values from them.

Texts are kept as bytes, because a value that nobody asks for may hold text
that is not Unicode.  Whoever asks for a text gets one or is refused.
-/
import ObjectVault.Bytes

namespace ObjectVault

inductive Document where
  | null
  | truth (b : Bool)
  | integer (n : Int)
  /-- Any other number, as it is written. -/
  | real (literal : Bytes)
  | text (content : Bytes)
  | list (items : List Document)
  | record (fields : List (Bytes × Document))

namespace Document

def ofNat (n : Nat) : Document := .integer n

def ofText (text : String) : Document := .text (Bytes.ofText text)

def ofBytes (bytes : Bytes) : Document := .list (bytes.map fun b => .ofNat b.toNat)

/-- An absent value is null. -/
def ofOption (write : α → Document) : Option α → Document
  | some a => write a
  | none => .null

/-- A record with the given fields in order. -/
def ofFields (fields : List (String × Document)) : Document :=
  .record (fields.map fun (name, value) => (Bytes.ofText name, value))

/-- How deep lists and records are nested. -/
def depth : Document → Nat
  | .list items => itemsDepth items + 1
  | .record fields => fieldsDepth fields + 1
  | _ => 0
where
  itemsDepth : List Document → Nat
    | [] => 0
    | item :: items => max (depth item) (itemsDepth items)
  fieldsDepth : List (Bytes × Document) → Nat
    | [] => 0
    | (_, value) :: fields => max (depth value) (fieldsDepth fields)

/-- A natural number of at most `most`. -/
def nat? (most : Nat) : Document → Option Nat
  | .integer (.ofNat n) => if n ≤ most then some n else none
  | _ => none

/-- An unsigned word of 64 bits. -/
def word? : Document → Option Nat := nat? (UInt64.size - 1)

def byte? (document : Document) : Option UInt8 :=
  (document.nat? 255).map UInt8.ofNat

def truth? : Document → Option Bool
  | .truth b => some b
  | _ => none

def text? : Document → Option String
  | .text content => Bytes.text? content
  | _ => none

def items? : Document → Option (List Document)
  | .list items => some items
  | _ => none

/-- A list whose items all read as `α`. -/
def listOf? (read : Document → Option α) (document : Document) : Option (List α) :=
  document.items?.bind (·.mapM read)

def bytes? : Document → Option Bytes := listOf? byte?

/-- Null for absence, or a value. -/
def option? (read : Document → Option α) : Document → Option (Option α)
  | .null => some none
  | document => (read document).map some

/-- The value of a field.  A field may not occur twice; the outer option is
none if it does. -/
def field? (name : String) (fields : List (Bytes × Document)) :
    Option (Option Document) :=
  match fields.filter fun (key, _) => key = Bytes.ofText name with
  | [] => some none
  | [(_, value)] => some (some value)
  | _ => none

/-- What to do with a list in place of a record, whose items stand for the
fields in order. -/
structure Positional where
  /-- Fields at the end may be missing. -/
  mayFallShort : Bool := false
  /-- Further items are ignored. -/
  mayRunOver : Bool := false

/-- The values of the named fields of a record, or of a list that stands for
one.  Other fields of a record are ignored, but their names have to be text. -/
def slots? (names : List String) (positional : Positional := {}) :
    Document → Option (List (Option Document))
  | .record fields =>
      if fields.all fun (key, _) => (Bytes.text? key).isSome then
        names.mapM (field? · fields)
      else none
  | .list items =>
      let given := items.length
      if (given < names.length && !positional.mayFallShort) ||
          (names.length < given && !positional.mayRunOver) then none
      else some ((items.take names.length).map some ++
        List.replicate (names.length - given) none)
  | _ => none

/-- A field that has to be there. -/
def required? (read : Document → Option α) : Option Document → Option α
  | some document => read document
  | none => none

/-- A field whose absence is a value of its own. -/
def optional? (read : Document → Option α) : Option Document → Option (Option α)
  | some document => document.option? read
  | none => some none

/-- A field with a default. -/
def defaulted? (default : α) (read : Document → Option α) : Option Document → Option α
  | some document => read document
  | none => some default

end Document

end ObjectVault
