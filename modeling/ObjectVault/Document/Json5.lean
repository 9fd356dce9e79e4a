/-
Documents in JSON5, a wider dialect of JSON: comments, blanks from all of
Unicode, commas after the last item, keys that are plain names, texts in single
quotes, and numbers with a plus sign, in hexadecimal or with nothing on one
side of the point.
-/
import ObjectVault.Document.Json

namespace ObjectVault.Json5

open Json

/-- Where a stretch of blanks is. -/
inductive Stretch where
  | blanks
  /-- In a comment up to the end of its line. -/
  | line
  /-- In a comment up to its closing mark. -/
  | block

/-- The third byte of a blank among the general punctuation. -/
def isPunctuationBlank (b : UInt8) : Bool :=
  (0x80 ≤ b && b ≤ 0x8A) || b = 0xA8 || b = 0xA9 || b = 0xAF

/-- Skip blanks and comments.  A comment that is never closed leaves its
slash, with which no value starts. -/
def skip : Stretch → Bytes → Bytes
  | .block, [] => [ascii '/']
  | _, [] => []
  | .block, 42 :: 47 :: rest => skip .blanks rest
  | .block, _ :: rest => skip .block rest
  | .line, 0xE2 :: 0x80 :: b :: rest =>
      skip (if b = 0xA8 || b = 0xA9 then .blanks else .line) rest
  | .line, b :: rest => skip (if b = 10 || b = 13 then .blanks else .line) rest
  | .blanks, 47 :: 42 :: rest => skip .block rest
  | .blanks, 47 :: 47 :: rest => skip .line rest
  | .blanks, 0xC2 :: 0xA0 :: rest => skip .blanks rest
  | .blanks, 0xE1 :: 0x9A :: 0x80 :: rest => skip .blanks rest
  | .blanks, 0xE2 :: 0x81 :: 0x9F :: rest => skip .blanks rest
  | .blanks, 0xE3 :: 0x80 :: 0x80 :: rest => skip .blanks rest
  | .blanks, 0xEF :: 0xBB :: 0xBF :: rest => skip .blanks rest
  | .blanks, 0xE2 :: 0x80 :: b :: rest =>
      if isPunctuationBlank b then skip .blanks rest else 0xE2 :: 0x80 :: b :: rest
  | .blanks, b :: rest =>
      if b = 32 || (9 ≤ b && b ≤ 13) then skip .blanks rest else b :: rest

def skipBlanks : Bytes → Bytes := skip .blanks

/-- A text after its opening quote, spelled anew in strict JSON up to the
closing quote behind what `front` holds in reverse; and what follows it. -/
def respelled (quote : UInt8) (front : Bytes) : Bytes → Option (Bytes × Bytes)
  | [] => none
  | b :: rest =>
      if b = quote then some ((ascii '"' :: front).reverse, rest)
      else if b ≠ ascii '\\' then respelled quote ((escaped b).reverseAux front) rest
      else match rest with
        | 13 :: 10 :: rest => respelled quote front rest
        | 0xE2 :: 0x80 :: c :: rest =>
            if c = 0xA8 || c = 0xA9 then respelled quote front rest else none
        | c :: rest =>
            if c = 10 || c = 13 then respelled quote front rest
            else if c = ascii '\'' then respelled quote (c :: front) rest
            else if c = ascii 'v' then
              respelled quote ((Bytes.ofText "\\u000b").reverseAux front) rest
            else if c = ascii '0' then
              respelled quote ((Bytes.ofText "\\u0000").reverseAux front) rest
            else if c = ascii 'x' then
              respelled quote ((Bytes.ofText "\\u00").reverseAux front) rest
            else respelled quote (c :: b :: front) rest
        | [] => none

/-- A text from its opening quote on. -/
def text? (bytes : Bytes) : Option (Bytes × Bytes) :=
  match bytes with
  | q :: rest =>
      if q = ascii '"' || q = ascii '\'' then do
        let (spelling, rest) ← respelled q [] rest
        let (content, _) ← string [] spelling
        some (content, rest)
      else none
  | [] => none

def isLetter (b : UInt8) : Bool := (65 ≤ b && b ≤ 90) || (97 ≤ b && b ≤ 122)

def lower (b : UInt8) : UInt8 := if 65 ≤ b && b ≤ 90 then b + 32 else b

/-- A number beyond all doubles. -/
def infinity : Bytes := Bytes.ofText "9e999"

def infinityWords : List Bytes := ["inf", "infinity"].map Bytes.ofText

/-- The names of what is not a number, which counts as null. -/
def nullWords : List Bytes := ["nan", "qnan", "snan"].map Bytes.ofText

/-- A word that stands for a value.  Infinity and what is not a number may be
written in capitals. -/
def word? (bytes : Bytes) : Option (Document × Bytes) :=
  let word := bytes.takeWhile fun b => isLetter b || isDigit b
  let rest := bytes.drop word.length
  if word = Bytes.ofText "null" then some (.null, rest)
  else if word = Bytes.ofText "true" then some (.truth true, rest)
  else if word = Bytes.ofText "false" then some (.truth false, rest)
  else if infinityWords.contains (word.map lower) then some (.real infinity, rest)
  else if nullWords.contains (word.map lower) then some (.null, rest)
  else none

def isHex (b : UInt8) : Bool := (hexValue? b).isSome

/-- A hexadecimal number after its mark.  Its digits are the bits of a signed
64-bit integer, which a minus sign negates; a number with more bits is kept as
it is written. -/
def hexadecimal? (negative : Bool) (bytes : Bytes) : Option (Document × Bytes) :=
  let digits := bytes.takeWhile isHex
  let n := digits.foldl (fun n b => n * 16 + (hexValue? b).getD 0) 0
  if digits.isEmpty then none
  else some (if UInt64.size ≤ n then .real (Bytes.ofText "0x" ++ digits)
    else .integer (Int.bmod (if negative then -n else n) UInt64.size), bytes.dropWhile isHex)

/-- A decimal number after its sign.  There has to be a digit on one side of
the point. -/
def decimal? (negative : Bool) (bytes : Bytes) : Option (Document × Bytes) := do
  let whole := bytes.takeWhile isDigit
  let (fraction, rest) := match bytes.dropWhile isDigit with
    | b :: rest =>
        if b = ascii '.' then (b :: rest.takeWhile isDigit, rest.dropWhile isDigit)
        else ([], b :: rest)
    | [] => ([], [])
  if whole.isEmpty && fraction.length < 2 then none
  else if whole.head? = some 48 ∧ whole ≠ [48] then none
  else
    let (exponent, rest) ← exponent? rest
    some (numberOf negative whole (fraction ++ exponent), rest)

def magnitude? (negative : Bool) (bytes : Bytes) : Option (Document × Bytes) :=
  match bytes with
  | 48 :: x :: rest =>
      if x = ascii 'x' || x = ascii 'X' then hexadecimal? negative rest
      else decimal? negative bytes
  | _ => decimal? negative bytes

/-- A number after its sign, which infinity may be. -/
def signed? (negative : Bool) (bytes : Bytes) : Option (Document × Bytes) :=
  let word := bytes.takeWhile isLetter
  if infinityWords.contains (word.map lower) then
    some (.real ((if negative then [ascii '-'] else []) ++ infinity), bytes.drop word.length)
  else magnitude? negative bytes

def number? : Bytes → Option (Document × Bytes)
  | b :: rest =>
      if b = ascii '-' then signed? true rest
      else if b = ascii '+' then signed? false rest
      else magnitude? false (b :: rest)
  | [] => none

def scalar? (bytes : Bytes) : Option (Document × Bytes) :=
  match text? bytes with
  | some (content, rest) => some (.text content, rest)
  | none => word? bytes <|> number? bytes

/-- The bytes of a name: letters, digits and all that is not ASCII. -/
def isNameByte (b : UInt8) : Bool :=
  isLetter b || isDigit b || b = ascii '_' || b = ascii '$' || 0x80 ≤ b

/-- Whether the code of a character follows a backslash. -/
def startsCode : Bytes → Bool
  | u :: h₁ :: h₂ :: h₃ :: h₄ :: _ => u = ascii 'u' && (code? h₁ h₂ h₃ h₄).isSome
  | _ => false

/-- A name as it is written, up to the first blank.  It may spell characters by
their codes. -/
def name : Bytes → Bytes × Bytes
  | [] => ([], [])
  | b :: rest =>
      if (isNameByte b && skipBlanks (b :: rest) = b :: rest) ||
          (b = ascii '\\' && startsCode rest) then
        let (more, rest) := name rest
        (b :: more, rest)
      else ([], b :: rest)

/-- A key: a text in quotes, or a name that is no value. -/
def key? (bytes : Bytes) : Option (Bytes × Bytes) :=
  match text? bytes with
  | some (key, rest) => some (key, rest)
  | none =>
      if bytes.head?.any isDigit || (word? bytes).isSome then none
      else match name bytes with
        | ([], _) => none
        | (key, rest) => some (key, rest)

def dialect : Dialect := ⟨skipBlanks, scalar?, key?, true⟩

/-- The document that a byte string spells in JSON5. -/
def read? (bytes : Bytes) : Option Document := dialect.read? bytes

end ObjectVault.Json5
