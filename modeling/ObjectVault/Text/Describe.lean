/-
Descriptions of values for people: quoted text, named structures with their
fields, and lengths of time.
-/
import ObjectVault.Text.Unprintable

namespace ObjectVault.Describe

/-- One character inside a quoted description. -/
def quotedChar (c : Char) : List Char :=
  let n := c.toNat
  if c = '"' then ['\\', '"']
  else if c = '\\' then ['\\', '\\']
  else if c = '\n' then ['\\', 'n']
  else if c = '\r' then ['\\', 'r']
  else if c = '\t' then ['\\', 't']
  else if n = 0 then ['\\', '0']
  else if n < 0x20 ∨ n = 0x7F ∨ (0x80 ≤ n ∧ Unprintable.contains n) then
    ['\\', 'u', '\x7b'] ++ Nat.toDigits 16 n ++ ['\x7d']
  else [c]

/-- A text in double quotes, with escapes for quotes, backslashes, controls
and unprintable characters. -/
def quoted (text : String) : String :=
  String.ofList ('"' :: text.toList.flatMap quotedChar ++ ['"'])

/-- A named structure with its fields in order.  `partly` says that fields are
left out. -/
def record (name : String) (fields : List (String × String)) (partly : Bool := false) :
    String :=
  let shown := fields.map fun (field, value) => field ++ ": " ++ value
  name ++ " \x7b " ++ String.intercalate ", " (if partly then shown ++ [".."] else shown) ++
    " \x7d"

def truth (b : Bool) : String := if b then "true" else "false"

/-- A length of time in milliseconds: seconds with the fraction that is
needed, or milliseconds below one second. -/
def duration (ms : Nat) : String :=
  if ms = 0 then "0ns"
  else if ms < 1000 then toString ms ++ "ms"
  else
    let rest := ms % 1000
    let fraction :=
      if rest = 0 then ""
      else if rest % 100 = 0 then "." ++ toString (rest / 100)
      else if rest % 10 = 0 then "." ++ digits 2 (rest / 10)
      else "." ++ digits 3 rest
    toString (ms / 1000) ++ fraction ++ "s"
where
  digits (width n : Nat) : String :=
    let ds := Nat.toDigits 10 n
    String.ofList (List.replicate (width - ds.length) '0' ++ ds)

/-- The description of a value that may be absent. -/
def option (describe : α → String) : Option α → String
  | some a => "Some(" ++ describe a ++ ")"
  | none => "None"

end ObjectVault.Describe
