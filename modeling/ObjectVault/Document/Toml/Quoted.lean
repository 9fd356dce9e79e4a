/-
Quoted texts of TOML.  There are four kinds: a basic text knows escapes and a
literal one does not, and both may run over several lines between triple
delimiters.  One machine reads them all, a character at a time.
-/
namespace ObjectVault.Toml.Quoted

/-- Which characters stand for themselves: no controls but the tab. -/
def isPlain (c : Char) : Bool :=
  c = '\t' || (0x20 ≤ c.toNat && c.toNat ≠ 0x7F)

def isBlank (c : Char) : Bool := c = ' ' || c = '\t'

/-- A kind of quoted text. -/
structure Kind where
  delimiter : Char
  multiline : Bool

/-- Basic texts are those in double quotes; only they know escapes. -/
def Kind.escapes (kind : Kind) : Bool := kind.delimiter = '"'

/-- What the machine is in the middle of. -/
inductive Mode where
  | plain
  /-- So many delimiters in a row. -/
  | delimiters (count : Nat)
  | escape
  /-- A character code, with so many digits to come. -/
  | code (left value : Nat)
  /-- A backslash at the end of a line, before the end of that line. -/
  | joining
  /-- The blank stretch that a backslash at the end of a line swallows. -/
  | joined
  /-- A carriage return, which only a line feed may follow. -/
  | lineEnd
  /-- The same inside a swallowed stretch. -/
  | joinedEnd

/-- The machine with the text so far in reverse. -/
structure State where
  front : List Char := []
  mode : Mode := .plain

/-- What one character leads to. -/
inductive Outcome where
  | more (state : State)
  /-- The text ended with this character. -/
  | ended (front : List Char)
  /-- The text ended before this character. -/
  | endedBefore (front : List Char)
  | refused

def push (front : List Char) (c : Char) : Outcome := .more ⟨c :: front, .plain⟩

def hexValue? (c : Char) : Option Nat :=
  if '0' ≤ c ∧ c ≤ '9' then some (c.toNat - 48)
  else if 'a' ≤ c ∧ c ≤ 'f' then some (c.toNat - 87)
  else if 'A' ≤ c ∧ c ≤ 'F' then some (c.toNat - 55)
  else none

/-- The character that a two-character escape stands for. -/
def escapeOf? (c : Char) : Option Char :=
  if c = 'b' then some '\x08'
  else if c = 't' then some '\t'
  else if c = 'n' then some '\n'
  else if c = 'f' then some '\x0c'
  else if c = 'r' then some '\r'
  else if c = '"' ∨ c = '\\' then some c
  else none

def feedPlain (kind : Kind) (front : List Char) (c : Char) : Outcome :=
  if c = kind.delimiter then
    if kind.multiline then .more ⟨front, .delimiters 1⟩ else .ended front
  else if c = '\\' && kind.escapes then .more ⟨front, .escape⟩
  else if c = '\n' && kind.multiline then push front c
  else if c = '\r' && kind.multiline then .more ⟨front, .lineEnd⟩
  else if isPlain c then push front c
  else .refused

/-- A backslash and the blanks after it swallow the end of a line. -/
def feedJoining (kind : Kind) (front : List Char) (c : Char) : Outcome :=
  if !kind.multiline then .refused
  else if isBlank c then .more ⟨front, .joining⟩
  else if c = '\n' then .more ⟨front, .joined⟩
  else if c = '\r' then .more ⟨front, .joinedEnd⟩
  else .refused

def feedCode (front : List Char) (left value : Nat) (c : Char) : Outcome :=
  match hexValue? c with
  | none => .refused
  | some d =>
      let value := value * 16 + d
      if 1 < left then .more ⟨front, .code (left - 1) value⟩
      else if h : value.isValidChar then push front (Char.ofNatAux value h)
      else .refused

def feed (kind : Kind) (state : State) (c : Char) : Outcome :=
  let front := state.front
  match state.mode with
  | .plain => feedPlain kind front c
  | .delimiters count =>
      if c = kind.delimiter then
        if count = 4 then .ended (c :: c :: front) else .more ⟨front, .delimiters (count + 1)⟩
      else if 3 ≤ count then .endedBefore (List.replicate (count - 3) kind.delimiter ++ front)
      else feedPlain kind (List.replicate count kind.delimiter ++ front) c
  | .escape =>
      match escapeOf? c with
      | some d => push front d
      | none =>
          if c = 'u' then .more ⟨front, .code 4 0⟩
          else if c = 'U' then .more ⟨front, .code 8 0⟩
          else feedJoining kind front c
  | .code left value => feedCode front left value c
  | .joining => feedJoining kind front c
  | .joined =>
      if isBlank c || c = '\n' then .more state
      else if c = '\r' then .more ⟨front, .joinedEnd⟩
      else feedPlain kind front c
  | .lineEnd => if c = '\n' then push front c else .refused
  | .joinedEnd => if c = '\n' then .more ⟨front, .joined⟩ else .refused

/-- Run the machine to the end of the text; the text and what follows it. -/
def run (kind : Kind) : State → List Char → Option (List Char × List Char)
  | ⟨front, .delimiters count⟩, [] =>
      if 3 ≤ count then
        some ((List.replicate (count - 3) kind.delimiter ++ front).reverse, [])
      else none
  | _, [] => none
  | state, c :: rest =>
      match feed kind state c with
      | .more state => run kind state rest
      | .ended front => some (front.reverse, rest)
      | .endedBefore front => some (front.reverse, c :: rest)
      | .refused => none

/-- The first end of line after an opening triple delimiter does not count. -/
def skipFirstLineEnd : List Char → List Char
  | '\n' :: rest => rest
  | '\r' :: '\n' :: rest => rest
  | cs => cs

/-- A text on one line, after its opening delimiter. -/
def line? (delimiter : Char) (cs : List Char) : Option (List Char × List Char) :=
  run ⟨delimiter, false⟩ {} cs

/-- A text of either extent, from its opening delimiter on. -/
def text? (cs : List Char) : Option (List Char × List Char) :=
  match cs with
  | a :: b :: c :: rest =>
      if a = b && b = c then run ⟨a, true⟩ {} (skipFirstLineEnd rest)
      else line? a (b :: c :: rest)
  | a :: rest => line? a rest
  | [] => none

end ObjectVault.Toml.Quoted
