/-
Documents in TOML 1.0.  A document is a sequence of lines: blank ones,
comments, headers and keys with values.  Arrays may run over several lines and
inline tables may not.

Dates and times are checked and then kept as records that have no field
anybody could ask for.
-/
import ObjectVault.Document.Scientific
import ObjectVault.Document.Toml.Quoted
import ObjectVault.Document.Toml.Tree
import ObjectVault.Instant
import ObjectVault.Text.Scan

namespace ObjectVault.Toml

/-- How deep values may be nested, and how many parts a key may have, at
most. -/
def maxDepth : Nat := 79

def isBlank (c : Char) : Bool := c = ' ' || c = '\t'

def skipBlanks (cs : List Char) : List Char := cs.dropWhile isBlank

/-- What follows the end of a line. -/
def lineEnd? : List Char → Option (List Char)
  | [] => some []
  | '\n' :: rest => some rest
  | '\r' :: '\n' :: rest => some rest
  | _ => none

/-- What follows a line after its last value: blanks, perhaps a comment, and
the end of the line. -/
def trailing? (cs : List Char) : Option (List Char) :=
  match skipBlanks cs with
  | '#' :: rest => lineEnd? (rest.dropWhile Quoted.isPlain)
  | cs => lineEnd? cs

/-- Skip blanks, ends of lines and comments. -/
def skipLines (inComment : Bool) : List Char → List Char
  | [] => []
  | '\r' :: '\n' :: rest => skipLines false rest
  | c :: rest =>
      if c = '\n' then skipLines false rest
      else if inComment then if Quoted.isPlain c then skipLines true rest else c :: rest
      else if isBlank c then skipLines false rest
      else if c = '#' then skipLines true rest
      else c :: rest

def isBare (c : Char) : Bool :=
  ('a' ≤ c && c ≤ 'z') || ('A' ≤ c && c ≤ 'Z') || ('0' ≤ c && c ≤ '9') || c = '_' || c = '-'

/-- One part of a key: a quoted text on one line, or bare characters. -/
def keyPart? (cs : List Char) : Option (String × List Char) :=
  match cs with
  | [] => none
  | c :: rest =>
      if c = '"' ∨ c = '\'' then
        (Quoted.line? c rest).map fun (text, rest) => (String.ofList text, rest)
      else
        let bare := cs.takeWhile isBare
        if bare.isEmpty then none else some (String.ofList bare, cs.dropWhile isBare)

/-- A key of at most so many parts, which points separate. -/
def keyParts? : Nat → List Char → Option (List String × List Char)
  | 0, _ => none
  | parts + 1, cs => do
      let (part, rest) ← keyPart? (skipBlanks cs)
      match skipBlanks rest with
      | '.' :: rest =>
          let (path, rest) ← keyParts? parts rest
          some (part :: path, rest)
      | rest => some ([part], rest)

/-- A key: the path to its last part, and that part. -/
def key? (cs : List Char) : Option ((List String × String) × List Char) := do
  let (parts, rest) ← keyParts? maxDepth cs
  let last ← parts.getLast?
  some ((parts.dropLast, last), rest)

/-- Digits, single underscores between them left out. -/
def digits (isDigit : Char → Bool) : List Char → List Char × List Char
  | [] => ([], [])
  | c :: rest => if isDigit c then more c rest else ([], c :: rest)
where
  more (first : Char) : List Char → List Char × List Char
    | [] => ([first], [])
    | '_' :: c :: rest =>
        if isDigit c then
          let (ds, rest) := more c rest
          (first :: ds, rest)
        else ([first], '_' :: c :: rest)
    | c :: rest =>
        if isDigit c then
          let (ds, rest) := more c rest
          (first :: ds, rest)
        else ([first], c :: rest)

def isDecimal (c : Char) : Bool := '0' ≤ c && c ≤ '9'

/-- The digits before the point: a lone zero, or digits that do not start with
one. -/
def whole? : List Char → Option (List Char × List Char)
  | '0' :: rest => some (['0'], rest)
  | cs => match digits isDecimal cs with
    | ([], _) => none
    | (ds, rest) => some (ds, rest)

/-- A point with its digits, if there are any. -/
def fraction (cs : List Char) : List Char × List Char :=
  match cs with
  | '.' :: rest => match digits isDecimal rest with
    | ([], _) => ([], cs)
    | (ds, rest) => ('.' :: ds, rest)
  | _ => ([], cs)

/-- An exponent, if there is one. -/
def exponent (cs : List Char) : List Char × List Char :=
  match cs with
  | e :: rest =>
      if e = 'e' ∨ e = 'E' then
        let (sign, rest) : List Char × List Char := match rest with
          | '+' :: after => ([], after)
          | '-' :: after => (['-'], after)
          | _ => ([], rest)
        match digits isDecimal rest with
        | ([], _) => ([], cs)
        | (ds, rest) => ('e' :: sign ++ ds, rest)
      else ([], cs)
  | [] => ([], [])

def bytes (cs : List Char) : Bytes := Bytes.ofText (String.ofList cs)

/-- An integer of 64 bits with its sign. -/
def integer? (negative : Bool) (n : Nat) : Option Document :=
  if negative then if n ≤ 0x8000000000000000 then some (.integer (-n)) else none
  else if n < 0x8000000000000000 then some (.integer n) else none

/-- A decimal number after its sign.  One with a point or an exponent is real,
and a real one must not run over into positive infinity. -/
def decimal? (negative : Bool) (cs : List Char) : Option (Document × List Char) := do
  let (whole, rest) ← whole? cs
  let (fraction, rest) := fraction rest
  let (exponent, rest) := exponent rest
  if fraction.isEmpty && exponent.isEmpty then
    let document ← integer? negative (Json.ofDigits (bytes whole))
    some (document, rest)
  else
    let literal := bytes ((if negative then ['-'] else []) ++ whole ++ fraction ++ exponent)
    if negative || Scientific.literalIsFinite literal then some (.real literal, rest)
    else none

/-- What follows a word. -/
def after? (word : String) (cs : List Char) : Option (List Char) :=
  let word := word.toList
  if word.isPrefixOf cs then some (cs.drop word.length) else none

/-- An integer in another base, after its mark. -/
def based? (base : Nat) (cs : List Char) : Option (Document × List Char) :=
  let isDigit (c : Char) : Bool := (Quoted.hexValue? c).any (· < base)
  match digits isDigit cs with
  | ([], _) => none
  | (ds, rest) =>
      let n := ds.foldl (fun n c => n * base + (Quoted.hexValue? c).getD 0) 0
      (integer? false n).map fun document => (document, rest)

/-- A decimal number or one of the words `inf` and `nan`, after a sign. -/
def signed? (negative : Bool) (cs : List Char) : Option (Document × List Char) :=
  match after? "inf" cs <|> after? "nan" cs with
  | some rest => some (.real (bytes (cs.take 3)), rest)
  | none => decimal? negative cs

def number? : List Char → Option (Document × List Char)
  | '+' :: rest => signed? false rest
  | '-' :: rest => signed? true rest
  | '0' :: 'x' :: rest => based? 16 rest
  | '0' :: 'o' :: rest => based? 8 rest
  | '0' :: 'b' :: rest => based? 2 rest
  | cs => signed? false cs

/-- What stands for a date or a time. -/
def moment : Document := .record [(bytes "\x00moment".toList, .null)]

def date? (cs : List Char) : Option (List Char) := do
  let (year, cs) ← Scan.number 4 4 cs
  let (month, cs) ← Scan.number 2 2 (← Scan.char '-' cs)
  let (day, cs) ← Scan.number 2 2 (← Scan.char '-' cs)
  if Date.isValid ⟨year, month, day⟩ then some cs else none

/-- Hours and minutes. -/
def clock? (cs : List Char) : Option (List Char) := do
  let (hour, cs) ← Scan.number 2 2 cs
  let (minute, cs) ← Scan.number 2 2 (← Scan.char ':' cs)
  if hour ≤ 23 ∧ minute ≤ 59 then some cs else none

def time? (cs : List Char) : Option (List Char) := do
  let cs ← clock? cs
  let (second, cs) ← Scan.number 2 2 (← Scan.char ':' cs)
  if 60 < second then none
  else match cs with
    | '.' :: rest =>
        if rest.head?.any isDecimal then some (rest.dropWhile isDecimal) else some cs
    | _ => some cs

/-- The offset of a time from UTC, if there is one. -/
def offset (cs : List Char) : Option (List Char) :=
  match cs with
  | c :: rest =>
      if c = 'Z' ∨ c = 'z' then some rest
      else if c = '+' ∨ c = '-' then clock? rest
      else some cs
  | [] => some []

/-- A date, perhaps with a time and an offset, or a time alone. -/
def moment? (cs : List Char) : Option (Document × List Char) :=
  match date? cs with
  | none => (time? cs).map fun rest => (moment, rest)
  | some rest =>
      let timed := match rest with
        | c :: after => if c = 'T' ∨ c = 't' ∨ c = ' ' then time? after else none
        | [] => none
      match timed with
      | none => some (moment, rest)
      | some rest => (offset rest).map fun rest => (moment, rest)

def scalar? (cs : List Char) : Option (Document × List Char) :=
  match cs with
  | [] => none
  | c :: _ =>
      if c = '"' ∨ c = '\'' then
        (Quoted.text? cs).map fun (text, rest) => (.text (bytes text), rest)
      else if c = 't' then (after? "true" cs).map fun rest => (.truth true, rest)
      else if c = 'f' then (after? "false" cs).map fun rest => (.truth false, rest)
      else moment? cs <|> number? cs

mutual

/-- A value with so many levels of nesting left.  The bound is on the values,
items and entries begun. -/
def value? : Nat → Nat → List Char → Option (Document × List Char)
  | 0, _, _ => none
  | bound + 1, levels, cs =>
      match cs with
      | '[' :: rest =>
          if levels = 0 then none
          else match skipLines false rest with
            | ']' :: after => some (.list [], after)
            | rest => items? bound (levels - 1) [] rest
      | '\x7b' :: rest =>
          if levels = 0 then none
          else match skipBlanks rest with
            | '\x7d' :: after => some (.record [], after)
            | rest => entries? bound (levels - 1) [] rest
      | cs => scalar? cs

/-- The items of an array after those that `front` holds in reverse. -/
def items? : Nat → Nat → List Document → List Char → Option (Document × List Char)
  | 0, _, _, _ => none
  | bound + 1, levels, front, cs => do
      let (item, rest) ← value? bound levels cs
      match skipLines false rest with
      | ']' :: after => some (.list (item :: front).reverse, after)
      | ',' :: after =>
          match skipLines false after with
          | ']' :: after => some (.list (item :: front).reverse, after)
          | after => items? bound levels (item :: front) after
      | _ => none

/-- The entries of an inline table beyond those read so far. -/
def entries? : Nat → Nat → Entries → List Char → Option (Document × List Char)
  | 0, _, _, _ => none
  | bound + 1, levels, entries, cs => do
      let ((path, key), rest) ← key? cs
      match rest with
      | '=' :: rest =>
          let (item, rest) ← value? bound levels (skipBlanks rest)
          let entries ← entries.insertValue path key item
          match skipBlanks rest with
          | '\x7d' :: after => some (.record (Tree.fields entries), after)
          | ',' :: after => entries? bound levels entries after
          | _ => none
      | _ => none

end

/-- The header of the table being read. -/
inductive Header where
  | root
  | table (path : List String) (key : String)
  | element (path : List String) (key : String)

/-- The tables finished so far, and the one being read. -/
structure Reading where
  root : Entries := []
  header : Header := .root
  current : Entries := []

namespace Reading

/-- Put the table being read in its place. -/
def close (reading : Reading) : Option Entries :=
  match reading.header with
  | .root => some reading.current
  | .table path key => reading.root.closeTable path key reading.current
  | .element path key => reading.root.closeElement path key reading.current

def openTable (reading : Reading) (path : List String) (key : String) : Option Reading := do
  let root ← reading.close
  let (current, root) ← root.openTable path key
  some ⟨root, .table path key, current⟩

def openElement (reading : Reading) (path : List String) (key : String) : Option Reading := do
  let root ← reading.close
  let _ ← root.closeElement path key []
  some ⟨root, .element path key, []⟩

end Reading

/-- A header, after its first bracket. -/
def header? (reading : Reading) (cs : List Char) : Option (Reading × List Char) :=
  match cs with
  | '[' :: rest => do
      let ((path, key), rest) ← key? rest
      let rest ← Scan.char ']' (← Scan.char ']' rest)
      some (← reading.openElement path key, rest)
  | cs => do
      let ((path, key), rest) ← key? cs
      let rest ← Scan.char ']' rest
      some (← reading.openTable path key, rest)

/-- A key with its value. -/
def assignment? (reading : Reading) (cs : List Char) : Option (Reading × List Char) := do
  let ((path, key), rest) ← key? cs
  let rest ← Scan.char '=' rest
  let (value, rest) ← value? (2 * rest.length + 1) maxDepth (skipBlanks rest)
  let current ← reading.current.insertValue path key value
  some ({ reading with current }, rest)

/-- The lines of a document, of which there are at most so many. -/
def lines? : Nat → Reading → List Char → Option Reading
  | 0, _, _ => none
  | bound + 1, reading, cs =>
      match skipLines false cs with
      | [] => some reading
      | '[' :: rest => do
          let (reading, rest) ← header? reading rest
          lines? bound reading (← trailing? rest)
      | cs => do
          let (reading, rest) ← assignment? reading cs
          lines? bound reading (← trailing? rest)

/-- A mark of byte order at the start does not count. -/
def skipMark : List Char → List Char
  | '\uFEFF' :: rest => rest
  | cs => cs

/-- The document that a text spells. -/
def read? (text : String) : Option Document := do
  let cs := skipMark text.toList
  let reading ← lines? (cs.length + 1) {} cs
  let root ← reading.close
  some (.record (Tree.fields root))

end ObjectVault.Toml
