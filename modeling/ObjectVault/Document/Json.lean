/-
Documents as JSON.  Writing is compact and escapes nothing but quotes,
backslashes and control characters.  Reading takes what RFC 8259 allows and
nothing more; how lists and records are put together is the same in other
dialects of JSON.

A number is an integer if it is written with digits alone and fits 64 bits;
minus zero does not count as one.
-/
import ObjectVault.Document

namespace ObjectVault.Json

/-- The byte of an ASCII character. -/
def ascii (c : Char) : UInt8 := c.toUInt8

/-- The lower-case hexadecimal digit of a number below sixteen. -/
def hexDigit (n : UInt8) : UInt8 := if n < 10 then 48 + n else 87 + n

/-- One byte of a text.  The two-character escapes come first, other control
characters are written as a code. -/
def escaped (b : UInt8) : Bytes :=
  if b = ascii '"' then [ascii '\\', b]
  else if b = ascii '\\' then [b, b]
  else if b = 8 then [ascii '\\', ascii 'b']
  else if b = 9 then [ascii '\\', ascii 't']
  else if b = 10 then [ascii '\\', ascii 'n']
  else if b = 12 then [ascii '\\', ascii 'f']
  else if b = 13 then [ascii '\\', ascii 'r']
  else if b < 32 then
    [ascii '\\', ascii 'u', ascii '0', ascii '0', hexDigit (b / 16), hexDigit (b % 16)]
  else [b]

def quoted (content : Bytes) : Bytes :=
  ascii '"' :: (content.flatMap escaped ++ [ascii '"'])

def decimal (n : Nat) : Bytes := (Nat.toDigits 10 n).map ascii

def integer : Int → Bytes
  | .ofNat n => decimal n
  | .negSucc n => ascii '-' :: decimal (n + 1)

mutual

def write : Document → Bytes
  | .null => Bytes.ofText "null"
  | .truth true => Bytes.ofText "true"
  | .truth false => Bytes.ofText "false"
  | .integer n => integer n
  | .real literal => literal
  | .text content => quoted content
  | .list [] => [ascii '[', ascii ']']
  | .list (item :: items) => ascii '[' :: (write item ++ writeItems items)
  | .record fields => ascii '\x7b' :: writeFields true fields

/-- The items of a list after its first. -/
def writeItems : List Document → Bytes
  | [] => [ascii ']']
  | item :: items => ascii ',' :: (write item ++ writeItems items)

/-- The fields of a record, of which the first has no comma before it. -/
def writeFields (first : Bool) : List (Bytes × Document) → Bytes
  | [] => [ascii '\x7d']
  | (key, value) :: fields =>
      let rest := quoted key ++ ascii ':' :: (write value ++ writeFields false fields)
      if first then rest else ascii ',' :: rest

end

/-- The text of a document. -/
def render (document : Document) : String := (Bytes.text? (write document)).getD ""

def isBlank (b : UInt8) : Bool := b = 32 || b = 9 || b = 10 || b = 13

def skipBlanks (bytes : Bytes) : Bytes := bytes.dropWhile isBlank

def isDigit (b : UInt8) : Bool := 48 ≤ b && b ≤ 57

def hexValue? (b : UInt8) : Option Nat :=
  if isDigit b then some (b.toNat - 48)
  else if 97 ≤ b && b ≤ 102 then some (b.toNat - 87)
  else if 65 ≤ b && b ≤ 70 then some (b.toNat - 55)
  else none

/-- The character that a two-character escape stands for. -/
def escapeOf? (b : UInt8) : Option UInt8 :=
  if b = ascii '"' || b = ascii '\\' || b = ascii '/' then some b
  else if b = ascii 'b' then some 8
  else if b = ascii 'f' then some 12
  else if b = ascii 'n' then some 10
  else if b = ascii 'r' then some 13
  else if b = ascii 't' then some 9
  else none

/-- The value of four hexadecimal digits. -/
def code? (a b c d : UInt8) : Option Nat := do
  let a ← hexValue? a
  let b ← hexValue? b
  let c ← hexValue? c
  let d ← hexValue? d
  return ((a * 16 + b) * 16 + c) * 16 + d

/-- The UTF-8 bytes of a code, by the general scheme that also covers the
surrogates; those spell no text. -/
def codeBytes (n : Nat) : Bytes :=
  let continued (rest : Nat) : UInt8 := UInt8.ofNat (0x80 + rest % 0x40)
  if n < 0x80 then [UInt8.ofNat n]
  else if n < 0x800 then [UInt8.ofNat (0xC0 + n / 0x40), continued n]
  else if n < 0x10000 then
    [UInt8.ofNat (0xE0 + n / 0x1000), continued (n / 0x40), continued n]
  else
    [UInt8.ofNat (0xF0 + n / 0x40000), continued (n / 0x1000), continued (n / 0x40), continued n]

/-- The code of a pair of surrogates. -/
def pair? (high low : Nat) : Option Nat :=
  if 0xD800 ≤ high ∧ high ≤ 0xDBFF ∧ 0xDC00 ≤ low ∧ low ≤ 0xDFFF then
    some (0x10000 + (high - 0xD800) * 0x400 + (low - 0xDC00))
  else none

/-- A text after its opening quote, read behind the bytes that `front` holds
in reverse. -/
def string (front : Bytes) : Bytes → Option (Bytes × Bytes)
  | [] => none
  | b :: rest =>
      if b = ascii '"' then some (front.reverse, rest)
      else if b < 32 then none
      else if b ≠ ascii '\\' then string (b :: front) rest
      else match rest with
        | [] => none
        | e :: rest =>
            match escapeOf? e with
            | some c => string (c :: front) rest
            | none =>
                if e ≠ ascii 'u' then none
                else match rest with
                  | h₁ :: h₂ :: h₃ :: h₄ :: rest =>
                      match code? h₁ h₂ h₃ h₄ with
                      | none => none
                      | some high =>
                          match rest with
                          | s :: u :: l₁ :: l₂ :: l₃ :: l₄ :: after =>
                              match lowAfter? high s u l₁ l₂ l₃ l₄ with
                              | some code => string ((codeBytes code).reverseAux front) after
                              | none =>
                                  string ((codeBytes high).reverseAux front)
                                    (s :: u :: l₁ :: l₂ :: l₃ :: l₄ :: after)
                          | rest => string ((codeBytes high).reverseAux front) rest
                  | _ => none
where
  /-- The code of a pair whose second half follows as an escape of its own. -/
  lowAfter? (high : Nat) (s u l₁ l₂ l₃ l₄ : UInt8) : Option Nat :=
    if s = ascii '\\' && u = ascii 'u' then (code? l₁ l₂ l₃ l₄).bind (pair? high) else none

/-- The number that decimal digits spell. -/
def ofDigits (digits : Bytes) : Nat :=
  digits.foldl (fun n b => 10 * n + (b.toNat - 48)) 0

/-- A part of a number that has to have digits. -/
def digits? (bytes : Bytes) : Option (Bytes × Bytes) :=
  match bytes.takeWhile isDigit with
  | [] => none
  | ds => some (ds, bytes.dropWhile isDigit)

/-- The digits before the point; they start with zero only if that is all. -/
def whole? (bytes : Bytes) : Option (Bytes × Bytes) := do
  let (ds, rest) ← digits? bytes
  if ds.head? = some 48 ∧ ds ≠ [48] then none else some (ds, rest)

/-- A point and its digits, if there is a point. -/
def fraction? : Bytes → Option (Bytes × Bytes)
  | b :: rest =>
      if b = ascii '.' then (digits? rest).map fun (ds, rest) => (b :: ds, rest)
      else some ([], b :: rest)
  | [] => some ([], [])

/-- An exponent, if there is one. -/
def exponent? : Bytes → Option (Bytes × Bytes)
  | e :: rest =>
      if e = ascii 'e' || e = ascii 'E' then
        let (sign, rest) := match rest with
          | s :: after => if s = ascii '+' || s = ascii '-' then ([s], after) else ([], rest)
          | [] => ([], [])
        (digits? rest).map fun (ds, rest) => (e :: sign ++ ds, rest)
      else some ([], e :: rest)
  | [] => some ([], [])

/-- The number written as the given sign, whole part and rest. -/
def numberOf (negative : Bool) (whole tail : Bytes) : Document :=
  let n := ofDigits whole
  let literal := (if negative then [ascii '-'] else []) ++ whole ++ tail
  if !tail.isEmpty then .real literal
  else if negative then
    if n = 0 ∨ 0x8000000000000000 < n then .real literal else .integer (-n)
  else if UInt64.size ≤ n then .real literal else .integer n

def number? (bytes : Bytes) : Option (Document × Bytes) := do
  let (negative, bytes) := match bytes with
    | b :: rest => if b = ascii '-' then (true, rest) else (false, bytes)
    | [] => (false, [])
  let (whole, rest) ← whole? bytes
  let (fraction, rest) ← fraction? rest
  let (exponent, rest) ← exponent? rest
  return (numberOf negative whole (fraction ++ exponent), rest)

/-- What follows a word at the start of the input. -/
def after? (word : String) (bytes : Bytes) : Option Bytes :=
  let word := Bytes.ofText word
  if word.isPrefixOf bytes then some (bytes.drop word.length) else none

/-- A value that is no list and no record. -/
def scalar? (bytes : Bytes) : Option (Document × Bytes) :=
  match bytes with
  | [] => none
  | b :: rest =>
      if b = ascii '"' then (string [] rest).map fun (content, rest) => (.text content, rest)
      else if b = ascii 'n' then (after? "null" bytes).map fun rest => (.null, rest)
      else if b = ascii 't' then (after? "true" bytes).map fun rest => (.truth true, rest)
      else if b = ascii 'f' then (after? "false" bytes).map fun rest => (.truth false, rest)
      else number? bytes

/-- A key: a text in quotes. -/
def key? (bytes : Bytes) : Option (Bytes × Bytes) :=
  match bytes with
  | q :: rest => if q = ascii '"' then string [] rest else none
  | [] => none

/-- What the dialects of JSON differ in. -/
structure Dialect where
  skipBlanks : Bytes → Bytes
  scalar? : Bytes → Option (Document × Bytes)
  key? : Bytes → Option (Bytes × Bytes)
  /-- Whether a comma may follow the last item. -/
  trailingComma : Bool

/-- What RFC 8259 allows. -/
def strict : Dialect := ⟨skipBlanks, scalar?, key?, false⟩

namespace Dialect

/-- What follows a bracket that closes right after a comma. -/
def closed? (dialect : Dialect) (bracket : Char) (bytes : Bytes) : Option Bytes :=
  if dialect.trailingComma then
    match dialect.skipBlanks bytes with
    | b :: after => if b = ascii bracket then some after else none
    | [] => none
  else none

/-- A key with the colon after it. -/
def label? (dialect : Dialect) (bytes : Bytes) : Option (Bytes × Bytes) :=
  match dialect.key? (dialect.skipBlanks bytes) with
  | some (key, rest) =>
      match dialect.skipBlanks rest with
      | c :: after => if c = ascii ':' then some (key, after) else none
      | [] => none
  | none => none

mutual

/-- A value.  The bound is on the values, items and fields begun. -/
def value (dialect : Dialect) : Nat → Bytes → Option (Document × Bytes)
  | 0, _ => none
  | bound + 1, bytes =>
      match dialect.skipBlanks bytes with
      | [] => none
      | b :: rest =>
          if b = ascii '[' then
            match dialect.skipBlanks rest with
            | [] => none
            | c :: after =>
                if c = ascii ']' then some (.list [], after)
                else items dialect bound [] (c :: after)
          else if b = ascii '\x7b' then
            match dialect.skipBlanks rest with
            | [] => none
            | c :: after =>
                if c = ascii '\x7d' then some (.record [], after)
                else fields dialect bound [] (c :: after)
          else dialect.scalar? (b :: rest)

/-- The items of a list after those that `front` holds in reverse. -/
def items (dialect : Dialect) : Nat → List Document → Bytes → Option (Document × Bytes)
  | 0, _, _ => none
  | bound + 1, front, bytes =>
      match value dialect bound bytes with
      | none => none
      | some (item, rest) =>
          match dialect.skipBlanks rest with
          | [] => none
          | c :: after =>
              if c = ascii ',' then
                match dialect.closed? ']' after with
                | some after => some (.list (item :: front).reverse, after)
                | none => items dialect bound (item :: front) after
              else if c = ascii ']' then some (.list (item :: front).reverse, after)
              else none

/-- The fields of a record after those that `front` holds in reverse. -/
def fields (dialect : Dialect) :
    Nat → List (Bytes × Document) → Bytes → Option (Document × Bytes)
  | 0, _, _ => none
  | bound + 1, front, bytes =>
      match dialect.label? bytes with
      | none => none
      | some (key, rest) =>
          match value dialect bound rest with
          | none => none
          | some (item, rest) =>
              match dialect.skipBlanks rest with
              | [] => none
              | c :: after =>
                  if c = ascii ',' then
                    match dialect.closed? '\x7d' after with
                    | some after => some (.record ((key, item) :: front).reverse, after)
                    | none => fields dialect bound ((key, item) :: front) after
                  else if c = ascii '\x7d' then
                    some (.record ((key, item) :: front).reverse, after)
                  else none

end

/-- The document that a byte string spells.  A value begins with a byte of its
own and so does every item and field, which bounds their number. -/
def read? (dialect : Dialect) (bytes : Bytes) : Option Document :=
  match dialect.value (2 * bytes.length + 1) bytes with
  | some (document, rest) =>
      if (dialect.skipBlanks rest).isEmpty then some document else none
  | none => none

end Dialect

/-- The document that a byte string spells in strict JSON. -/
def read? (bytes : Bytes) : Option Document := strict.read? bytes

end ObjectVault.Json
