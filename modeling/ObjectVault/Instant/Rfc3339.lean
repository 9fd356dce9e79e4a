/-
The text of an instant by RFC 3339.  Writing gives the fraction no, three, six
or nine digits, as few as lose nothing, and signs a year that has not exactly
four digits.  There are two readers: the exact one takes only the canonical
field widths and four-digit years, the tolerant one also takes signed years,
short fields and blanks between the fields.
-/
import ObjectVault.Instant
import ObjectVault.Text.Scan

namespace ObjectVault.Rfc3339

/-- A number filled up with leading zeros to `width` digits. -/
def padded (width n : Nat) : List Char :=
  let ds := Nat.toDigits 10 n
  List.replicate (width - ds.length) '0' ++ ds

/-- Years from 0 to 9999 have four digits; others a sign and at least four. -/
def yearText (year : Int) : List Char :=
  if 0 ≤ year ∧ year ≤ 9999 then padded 4 year.toNat
  else (if year < 0 then '-' else '+') :: padded 4 year.natAbs

def fractionText (nanos : Nat) : List Char :=
  if nanos = 0 then []
  else if nanos % 1000000 = 0 then '.' :: padded 3 (nanos / 1000000)
  else if nanos % 1000 = 0 then '.' :: padded 6 (nanos / 1000)
  else '.' :: padded 9 nanos

/-- The characters of an instant, with the given spelling of the zone. -/
def chars (zone : List Char) (moment : Instant) : List Char :=
  let date := Date.ofDays (moment.second / Instant.secondsPerDay)
  let ofDay := (moment.second % Instant.secondsPerDay).toNat
  let leap := moment.nanos ≥ 1000000000
  let second := if leap then ofDay % 60 + 1 else ofDay % 60
  let nanos := if leap then moment.nanos - 1000000000 else moment.nanos
  yearText date.year ++ '-' :: padded 2 date.month ++ '-' :: padded 2 date.day ++
    'T' :: padded 2 (ofDay / 3600) ++ ':' :: padded 2 (ofDay / 60 % 60) ++
    ':' :: padded 2 second ++ fractionText nanos ++ zone

/-- The instant with the zone written `Z`. -/
def zuluText (moment : Instant) : String := String.ofList (chars ['Z'] moment)

/-- The instant with the zone written as an offset, as commit logs hold it. -/
def offsetText (moment : Instant) : String :=
  String.ofList (chars ['+', '0', '0', ':', '0', '0'] moment)

/-- The fields a text names. -/
structure Fields where
  date : Date
  hour : Nat
  minute : Nat
  second : Nat
  nanos : Nat
  /-- Seconds that local time is ahead of UTC. -/
  offset : Int

/-- The instant the fields name.  Each field has to be in its range, the day
has to exist in its month, and the second 60 counts as a leap second. -/
def Fields.instant? (fields : Fields) : Option Instant :=
  let date := fields.date
  if date.isValid ∧ -262143 ≤ date.year ∧ date.year ≤ 262142 ∧ fields.hour ≤ 23 ∧
      fields.minute ≤ 59 ∧ fields.second ≤ 60 ∧ fields.offset.natAbs < 86400 then
    let leap := fields.second = 60
    let second := if leap then 59 else fields.second
    let nanos := if leap then fields.nanos + 1000000000 else fields.nanos
    let moment : Instant :=
      ⟨date.toDays * Instant.secondsPerDay +
        (3600 * fields.hour + 60 * fields.minute + second : Nat) - fields.offset, nanos⟩
    if moment.hasDate then some moment else none
  else none

/-- A fraction of a second in nanoseconds.  Digits after the ninth are cut
off; a point needs at least one digit after it. -/
def fraction : List Char → Option (Nat × List Char)
  | '.' :: rest =>
      let (ds, left) := Scan.digits 9 rest
      if ds.isEmpty then none
      else some (Scan.ofDigits ds * Nat.pow 10 (9 - ds.length),
        left.dropWhile fun c => (Scan.digit? c).isSome)
  | cs => some (0, cs)

/-- An offset from UTC in seconds: `Z`, or a sign, hours, a separator that
`separator` recognises, and minutes.  The minus sign of mathematics counts as
a sign too. -/
def offset (separator : List Char → Option (List Char)) :
    List Char → Option (Int × List Char)
  | c :: rest =>
      if c = 'Z' ∨ c = 'z' then some (0, rest)
      else if c = '+' ∨ c = '-' ∨ c = '\u2212' then do
        let (hours, rest) ← Scan.number 2 2 rest
        let rest ← separator rest
        let (minutes, rest) ← Scan.number 2 2 rest
        if minutes ≤ 59 then
          let seconds : Int := (3600 * hours + 60 * minutes : Nat)
          some (if c = '+' then seconds else -seconds, rest)
        else none
      else none
  | [] => none

/-- The mark between date and time. -/
def dateEnd : List Char → Option (List Char)
  | c :: rest => if c = 'T' ∨ c = 't' ∨ c = ' ' then some rest else none
  | [] => none

/-- Reads the canonical form: four-digit years, two-digit fields and no
blanks. -/
def exactFields (cs : List Char) : Option (Fields × List Char) := do
  let (year, cs) ← Scan.number 4 4 cs
  let (month, cs) ← Scan.number 2 2 (← Scan.char '-' cs)
  let (day, cs) ← Scan.number 2 2 (← Scan.char '-' cs)
  let (hour, cs) ← Scan.number 2 2 (← dateEnd cs)
  let (minute, cs) ← Scan.number 2 2 (← Scan.char ':' cs)
  let (second, cs) ← Scan.number 2 2 (← Scan.char ':' cs)
  let (nanos, cs) ← fraction cs
  let (offset, cs) ← offset (Scan.char ':') cs
  some (⟨⟨year, month, day⟩, hour, minute, second, nanos, offset⟩, cs)

/-- The instant an exactly written text names. -/
def readExact? (text : String) : Option Instant := do
  let (fields, rest) ← exactFields text.toList
  if rest.isEmpty then fields.instant? else none

/-- A year of up to four digits, or of any number of digits after a sign. -/
def tolerantYear (cs : List Char) : Option (Int × List Char) :=
  match cs with
  | '-' :: rest => (Scan.number 1 rest.length rest).map fun (n, left) => (-n, left)
  | '+' :: rest => (Scan.number 1 rest.length rest).map fun (n, left) => (n, left)
  | _ => (Scan.number 1 4 cs).map fun (n, left) => (n, left)

/-- The zone of a tolerantly read text: the letters `UTC` in either case, or
an offset whose fields colons and blanks may separate. -/
def tolerantOffset (cs : List Char) : Option (Int × List Char) :=
  match cs with
  | a :: b :: c :: rest =>
      if a.toUpper = 'U' ∧ b.toUpper = 'T' ∧ c.toUpper = 'C' then some (0, rest)
      else separated cs
  | _ => separated cs
where
  separated := offset fun cs => some (cs.dropWhile fun c => c = ':' || Scan.isBlank c)

/-- Reads a text whose fields may be short and set apart by blanks. -/
def tolerantFields (cs : List Char) : Option (Fields × List Char) := do
  let short cs := Scan.number 1 2 (Scan.skipBlanks cs)
  let mark c cs := Scan.char c (Scan.skipBlanks cs)
  let (year, cs) ← tolerantYear (Scan.skipBlanks cs)
  let (month, cs) ← short (← mark '-' cs)
  let (day, cs) ← short (← mark '-' cs)
  let (hour, cs) ← short (← dateEnd cs)
  let (minute, cs) ← short (← mark ':' cs)
  let (second, cs) ← short (← mark ':' cs)
  let (nanos, cs) ← fraction cs
  let (offset, cs) ← tolerantOffset (Scan.skipBlanks cs)
  some (⟨⟨year, month, day⟩, hour, minute, second, nanos, offset⟩, cs)

/-- The instant a tolerantly written text names. -/
def readTolerant? (text : String) : Option Instant := do
  let (fields, rest) ← tolerantFields text.toList
  if (Scan.skipBlanks rest).isEmpty then fields.instant? else none

end ObjectVault.Rfc3339
