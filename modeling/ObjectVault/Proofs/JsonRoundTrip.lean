/-
Reading JSON back.  What is written for a document spells that document again,
if each of its numbers is an integer of 64 bits.  The reader is followed along
the writer, over values, items and fields at once; its bound is the number of
bytes there are, as each step begins with a byte of its own.
-/
import ObjectVault.Document.Json
import Mathlib.Data.List.TakeWhile

namespace ObjectVault

mutual

/-- Whether each number is an integer that fits 64 bits, signed or not. -/
def Document.isPlain : Document → Bool
  | .integer n => -0x8000000000000000 ≤ n && n < UInt64.size
  | .real _ => false
  | .list items => arePlain items
  | .record fields => fieldsArePlain fields
  | _ => true

def Document.arePlain : List Document → Bool
  | [] => true
  | item :: items => item.isPlain && arePlain items

def Document.fieldsArePlain : List (Bytes × Document) → Bool
  | [] => true
  | (_, value) :: fields => value.isPlain && fieldsArePlain fields

end

theorem Document.arePlain_iff {items : List Document} :
    arePlain items ↔ ∀ item ∈ items, item.isPlain := by
  induction items with
  | nil => simp [arePlain]
  | cons item items ih => simp [arePlain, ih]

namespace Json

theorem ascii_digitChar {n : Nat} (h : n < 10) :
    ascii n.digitChar = UInt8.ofNat (48 + n) := by
  revert n
  decide

theorem isDigit_ofNat {n : Nat} (h : n < 10) : isDigit (UInt8.ofNat (48 + n)) = true := by
  revert n
  decide

theorem decimal_of_lt {n : Nat} (h : n < 10) : decimal n = [UInt8.ofNat (48 + n)] := by
  rw [decimal, Nat.toDigits_of_lt_base h, List.map_singleton, ascii_digitChar h]

/-- A number is written as its leading digits and its last one. -/
theorem decimal_of_le {n : Nat} (h : 10 ≤ n) :
    decimal n = decimal (n / 10) ++ [UInt8.ofNat (48 + n % 10)] := by
  rw [decimal, Nat.toDigits_of_base_le (by decide) h, List.map_append, List.map_singleton,
    ascii_digitChar (Nat.mod_lt n (by decide))]
  rfl

theorem isDigit_of_mem_decimal {n : Nat} {b : UInt8} (h : b ∈ decimal n) : isDigit b := by
  induction n using Nat.strongRecOn with
  | ind n ih =>
      rcases lt_or_ge n 10 with hlt | hge
      · rw [decimal_of_lt hlt, List.mem_singleton] at h
        exact h ▸ isDigit_ofNat hlt
      · rw [decimal_of_le hge, List.mem_append, List.mem_singleton] at h
        rcases h with hleading | rfl
        · exact ih (n / 10) (by omega) hleading
        · exact isDigit_ofNat (Nat.mod_lt n (by decide))

theorem ofDigits_concat (digits : Bytes) (b : UInt8) :
    ofDigits (digits ++ [b]) = 10 * ofDigits digits + (b.toNat - 48) := by
  simp [ofDigits]

theorem toNat_digit {n : Nat} (h : n < 10) : (UInt8.ofNat (48 + n)).toNat - 48 = n := by
  revert n
  decide

theorem ofDigits_decimal (n : Nat) : ofDigits (decimal n) = n := by
  induction n using Nat.strongRecOn with
  | ind n ih =>
      rcases lt_or_ge n 10 with hlt | hge
      · rw [decimal_of_lt hlt]
        simpa [ofDigits] using toNat_digit hlt
      · rw [decimal_of_le hge, ofDigits_concat, ih (n / 10) (by omega),
          toNat_digit (Nat.mod_lt n (by decide))]
        omega

theorem decimal_ne_nil (n : Nat) : decimal n ≠ [] := by
  simp [decimal]

theorem digit_ne_zero {n : Nat} (hpos : 0 < n) (h : n < 10) : UInt8.ofNat (48 + n) ≠ 48 := by
  revert hpos
  revert n
  decide

/-- Only zero starts with a zero. -/
theorem head?_decimal_of_pos {n : Nat} (h : 0 < n) : (decimal n).head? ≠ some 48 := by
  induction n using Nat.strongRecOn with
  | ind n ih =>
      rcases lt_or_ge n 10 with hlt | hge
      · rw [decimal_of_lt hlt]
        exact fun hzero => digit_ne_zero h hlt (Option.some.inj hzero)
      · rw [decimal_of_le hge, List.head?_append,
          Option.or_of_isSome (by simpa using decimal_ne_nil (n / 10))]
        exact ih (n / 10) (by omega) (by omega)

/-- Whether a number may end before these bytes. -/
def EndsNumber (rest : Bytes) : Prop :=
  ∀ b, rest.head? = some b → !isDigit b ∧ b ≠ ascii '.' ∧ b ≠ ascii 'e' ∧ b ≠ ascii 'E'

theorem endsNumber_nil : EndsNumber [] := by simp [EndsNumber]

theorem takeWhile_decimal {n : Nat} {rest : Bytes} (hrest : EndsNumber rest) :
    (decimal n ++ rest).takeWhile isDigit = decimal n ∧
      (decimal n ++ rest).dropWhile isDigit = rest := by
  have hdigits : ∀ b ∈ decimal n, isDigit b := fun _ => isDigit_of_mem_decimal
  rw [List.takeWhile_append_of_pos hdigits, List.dropWhile_append_of_pos hdigits]
  cases rest with
  | nil => simp
  | cons b after =>
      have hnone : isDigit b = false := by simpa using (hrest b rfl).1
      simp [hnone]

theorem digits?_decimal {n : Nat} {rest : Bytes} (hrest : EndsNumber rest) :
    digits? (decimal n ++ rest) = some (decimal n, rest) := by
  obtain ⟨htake, hdrop⟩ := takeWhile_decimal (n := n) hrest
  rw [digits?, htake, hdrop]
  cases hdecimal : decimal n with
  | nil => exact absurd hdecimal (decimal_ne_nil n)
  | cons => rfl

theorem whole?_decimal {n : Nat} {rest : Bytes} (hrest : EndsNumber rest) :
    whole? (decimal n ++ rest) = some (decimal n, rest) := by
  rw [whole?, digits?_decimal hrest]
  rcases Nat.eq_zero_or_pos n with rfl | hpos
  · simp [decimal_of_lt]
  · simp [head?_decimal_of_pos hpos]

theorem fraction?_of_endsNumber {rest : Bytes} (hrest : EndsNumber rest) :
    fraction? rest = some ([], rest) := by
  cases rest with
  | nil => rfl
  | cons b after => simp [fraction?, (hrest b rfl).2.1]

theorem exponent?_of_endsNumber {rest : Bytes} (hrest : EndsNumber rest) :
    exponent? rest = some ([], rest) := by
  cases rest with
  | nil => rfl
  | cons b after => simp [exponent?, (hrest b rfl).2.2.1, (hrest b rfl).2.2.2]

theorem minus_notMem_decimal {n : Nat} : ascii '-' ∉ decimal n := fun hmem => by
  have hdigit := isDigit_of_mem_decimal hmem
  revert hdigit
  decide

theorem number?_integer {n : Int} {rest : Bytes} (hplain : (Document.integer n).isPlain)
    (hrest : EndsNumber rest) : number? (integer n ++ rest) = some (.integer n, rest) := by
  simp only [Document.isPlain, Bool.and_eq_true, decide_eq_true_eq] at hplain
  cases n with
  | ofNat n =>
      have hsize : ¬ UInt64.size ≤ n := by
        exact Nat.not_le_of_lt (Int.ofNat_lt.mp hplain.2)
      obtain ⟨b, after, hdecimal⟩ := List.exists_cons_of_ne_nil (decimal_ne_nil n)
      have hminus : b ≠ ascii '-' := by
        rintro rfl
        exact minus_notMem_decimal (hdecimal ▸ List.mem_cons_self)
      rw [integer, hdecimal, List.cons_append, number?]
      simp only [hminus, ↓reduceIte]
      rw [← List.cons_append, ← hdecimal, whole?_decimal hrest]
      simp [fraction?_of_endsNumber hrest, exponent?_of_endsNumber hrest, numberOf,
        ofDigits_decimal, hsize]
  | negSucc n =>
      have hsize : ¬ 0x8000000000000000 < n + 1 := by omega
      rw [integer, List.cons_append, number?]
      simp only [↓reduceIte, whole?_decimal hrest]
      simp [fraction?_of_endsNumber hrest, exponent?_of_endsNumber hrest, numberOf,
        ofDigits_decimal, hsize, Int.negSucc_eq]

theorem integer_head (n : Int) :
    ∃ b tail, integer n = b :: tail ∧ (isDigit b ∨ b = ascii '-') := by
  cases n with
  | ofNat n =>
      obtain ⟨b, tail, hdecimal⟩ := List.exists_cons_of_ne_nil (decimal_ne_nil n)
      exact ⟨b, tail, hdecimal, Or.inl (isDigit_of_mem_decimal (hdecimal ▸ List.mem_cons_self))⟩
  | negSucc n => exact ⟨ascii '-', decimal (n + 1), rfl, Or.inr rfl⟩

/-- A control character comes back from its code. -/
theorem code?_control {n : Nat} (h : n < 32) :
    code? (ascii '0') (ascii '0') (hexDigit (UInt8.ofNat n / 16)) (hexDigit (UInt8.ofNat n % 16)) =
      some n := by
  revert n
  decide

/-- A code below the surrogates is no half of a pair. -/
theorem lowAfter?_of_lt {high : Nat} (h : high < 0xD800) (s u l₁ l₂ l₃ l₄ : UInt8) :
    string.lowAfter? high s u l₁ l₂ l₃ l₄ = none := by
  have hpair : pair? high = fun _ => none := by
    funext low
    rw [pair?, if_neg (by omega)]
  simp [string.lowAfter?, hpair]

theorem string_control {n : Nat} (h : n < 32) (front rest : Bytes) :
    string front (ascii '\\' :: ascii 'u' :: ascii '0' :: ascii '0' ::
        hexDigit (UInt8.ofNat n / 16) :: hexDigit (UInt8.ofNat n % 16) :: rest) =
      string (UInt8.ofNat n :: front) rest := by
  have hbytes : codeBytes n = [UInt8.ofNat n] := by
    rw [codeBytes, if_pos (by omega)]
  rw [string.eq_def]
  simp only [show ¬ ascii '\\' = ascii '"' by decide, show ¬ ascii '\\' < 32 by decide,
    show escapeOf? (ascii 'u') = none by decide, ne_eq, not_true_eq_false, ↓reduceIte,
    code?_control h, hbytes]
  split
  · rw [lowAfter?_of_lt (by omega)]
    rfl
  · rfl

theorem string_escaped (b : UInt8) (front rest : Bytes) :
    string front (escaped b ++ rest) = string (b :: front) rest := by
  -- a byte with an escape of two characters
  have htwo : ∀ e, escapeOf? e = some b →
      string front ([ascii '\\', e] ++ rest) = string (b :: front) rest := by
    intro e hescape
    rw [List.cons_append, string.eq_def]
    simp [show ¬ ascii '\\' = ascii '"' by decide, show ¬ ascii '\\' < 32 by decide, hescape]
  unfold escaped
  split_ifs with hquote hback h8 h9 h10 h12 h13 hcontrol
  · exact htwo b (by rw [hquote]; decide)
  · rw [hback]
    exact hback ▸ htwo (ascii '\\') (by rw [hback]; decide)
  · exact htwo (ascii 'b') (by rw [h8]; decide)
  · exact htwo (ascii 't') (by rw [h9]; decide)
  · exact htwo (ascii 'n') (by rw [h10]; decide)
  · exact htwo (ascii 'f') (by rw [h12]; decide)
  · exact htwo (ascii 'r') (by rw [h13]; decide)
  · have hlt : b.toNat < 32 := UInt8.lt_iff_toNat_lt.mp hcontrol
    have h := string_control hlt front rest
    rw [UInt8.ofNat_toNat] at h
    exact h
  · rw [List.cons_append, string.eq_def]
    simp [hquote, hcontrol, hback]

theorem string_content (content front rest : Bytes) :
    string front (content.flatMap escaped ++ ascii '"' :: rest) =
      some (front.reverse ++ content, rest) := by
  induction content generalizing front with
  | nil =>
      rw [List.flatMap_nil, List.nil_append, string.eq_def]
      simp
  | cons b content ih =>
      rw [List.flatMap_cons, List.append_assoc, string_escaped, ih]
      simp

theorem string_quoted (content rest : Bytes) :
    ∃ after, quoted content ++ rest = ascii '"' :: after ∧
      string [] after = some (content, rest) := by
  refine ⟨content.flatMap escaped ++ ascii '"' :: rest, by simp [quoted], ?_⟩
  rw [string_content]
  rfl

theorem skipBlanks_cons {b : UInt8} {rest : Bytes} (h : isBlank b = false) :
    skipBlanks (b :: rest) = b :: rest := by
  rw [skipBlanks, List.dropWhile_cons_of_neg (by simp [h])]

theorem isBlank_of_isDigit {b : UInt8} (h : isDigit b) : isBlank b = false := by
  simp only [isDigit, Bool.and_eq_true, decide_eq_true_eq, UInt8.le_iff_toNat_le] at h
  simp only [isBlank, Bool.or_eq_false_iff, decide_eq_false_iff_not]
  refine ⟨⟨⟨?_, ?_⟩, ?_⟩, ?_⟩ <;> rintro rfl <;> exact absurd h (by decide)

/-- The first byte of a document's text is no blank and closes no list. -/
theorem write_head {document : Document} (hplain : document.isPlain) :
    ∃ b tail, write document = b :: tail ∧ isBlank b = false ∧ b ≠ ascii ']' := by
  match document with
  | .null | .truth true | .truth false | .text _ | .list [] | .list (_ :: _) | .record _ =>
      simp only [write, quoted, Bytes.ofText]
      exact ⟨_, _, rfl, by decide, by decide⟩
  | .integer n =>
      obtain ⟨b, tail, hbytes, hfirst⟩ := integer_head n
      refine ⟨b, tail, by rw [write, hbytes], ?_⟩
      rcases hfirst with hdigit | rfl
      · refine ⟨isBlank_of_isDigit hdigit, ?_⟩
        rintro rfl
        exact absurd hdigit (by decide)
      · decide

theorem endsNumber_cons {b : UInt8} {rest : Bytes}
    (h : b = ascii ',' ∨ b = ascii ']' ∨ b = ascii '\x7d') : EndsNumber (b :: rest) := by
  rintro _ ⟨⟩
  rcases h with rfl | rfl | rfl <;> decide

theorem value_scalar {bound : Nat} {b : UInt8} {rest : Bytes} (hblank : isBlank b = false)
    (hlist : b ≠ ascii '[') (hrecord : b ≠ ascii '\x7b') :
    strict.value (bound + 1) (b :: rest) = scalar? (b :: rest) := by
  rw [Dialect.value]
  simp only [strict, skipBlanks_cons hblank, hlist, hrecord, ↓reduceIte]

theorem after?_ofText (word : String) (rest : Bytes) :
    after? word (Bytes.ofText word ++ rest) = some rest := by
  simp [after?]

theorem scalar?_integer {n : Int} {rest : Bytes} (hplain : (Document.integer n).isPlain)
    (hrest : EndsNumber rest) : scalar? (integer n ++ rest) = some (.integer n, rest) := by
  obtain ⟨b, tail, hbytes, hfirst⟩ := integer_head n
  have hother : ∀ c, isDigit c = false → c ≠ ascii '-' → b ≠ c := by
    rintro c hdigit hminus rfl
    rcases hfirst with h | h
    · exact absurd h (by simp [hdigit])
    · exact hminus h
  rw [← number?_integer hplain hrest, hbytes, List.cons_append, scalar?]
  simp only [hother (ascii '"') (by decide) (by decide), hother (ascii 'n') (by decide) (by decide),
    hother (ascii 't') (by decide) (by decide), hother (ascii 'f') (by decide) (by decide),
    ↓reduceIte]

theorem scalar?_null (rest : Bytes) :
    scalar? (Bytes.ofText "null" ++ rest) = some (.null, rest) := by
  calc scalar? (Bytes.ofText "null" ++ rest)
      = (after? "null" (Bytes.ofText "null" ++ rest)).map (Document.null, ·) := rfl
    _ = some (.null, rest) := by rw [after?_ofText]; rfl

theorem scalar?_true (rest : Bytes) :
    scalar? (Bytes.ofText "true" ++ rest) = some (.truth true, rest) := by
  calc scalar? (Bytes.ofText "true" ++ rest)
      = (after? "true" (Bytes.ofText "true" ++ rest)).map (Document.truth true, ·) := rfl
    _ = some (.truth true, rest) := by rw [after?_ofText]; rfl

theorem scalar?_false (rest : Bytes) :
    scalar? (Bytes.ofText "false" ++ rest) = some (.truth false, rest) := by
  calc scalar? (Bytes.ofText "false" ++ rest)
      = (after? "false" (Bytes.ofText "false" ++ rest)).map (Document.truth false, ·) := rfl
    _ = some (.truth false, rest) := by rw [after?_ofText]; rfl

theorem scalar?_text (content rest : Bytes) :
    scalar? (quoted content ++ rest) = some (.text content, rest) := by
  obtain ⟨after, hquoted, hstring⟩ := string_quoted content rest
  rw [hquoted, scalar?]
  simp only [↓reduceIte, hstring, Option.map_some]

/-- A value that is read as a scalar, as its first byte opens nothing else. -/
theorem value_of_scalar {document : Document} {bytes rest : Bytes} {bound : Nat}
    (hscalar : scalar? (bytes ++ rest) = some (document, rest))
    (hhead : ∃ b tail, bytes = b :: tail ∧ isBlank b = false ∧ b ≠ ascii '[' ∧ b ≠ ascii '\x7b') :
    strict.value (bound + 1) (bytes ++ rest) = some (document, rest) := by
  obtain ⟨b, tail, rfl, hblank, hlist, hrecord⟩ := hhead
  rw [← hscalar, List.cons_append, value_scalar hblank hlist hrecord]

theorem value_list {bound : Nat} {b : UInt8} {tail : Bytes} (hblank : isBlank b = false)
    (hopen : b ≠ ascii ']') :
    strict.value (bound + 1) (ascii '[' :: b :: tail) = strict.items bound [] (b :: tail) := by
  rw [Dialect.value]
  simp only [strict, skipBlanks_cons (b := ascii '[') rfl, skipBlanks_cons hblank, hopen,
    ↓reduceIte]

theorem value_record {bound : Nat} {b : UInt8} {tail : Bytes} (hblank : isBlank b = false)
    (hopen : b ≠ ascii '\x7d') :
    strict.value (bound + 1) (ascii '\x7b' :: b :: tail) = strict.fields bound [] (b :: tail) := by
  rw [Dialect.value]
  simp only [strict, skipBlanks_cons (b := ascii '\x7b') rfl, skipBlanks_cons hblank, hopen,
    ↓reduceIte, show ascii '\x7b' ≠ ascii '[' by decide]

section Items

variable {bound : Nat} {front : List Document} {item : Document} {bytes rest : Bytes}

theorem items_last (hvalue : strict.value bound bytes = some (item, ascii ']' :: rest)) :
    strict.items (bound + 1) front bytes = some (.list (front.reverse ++ [item]), rest) := by
  rw [Dialect.items, hvalue]
  simp [strict, skipBlanks_cons (b := ascii ']') rfl, show ascii ']' ≠ ascii ',' by decide]

theorem items_next (hvalue : strict.value bound bytes = some (item, ascii ',' :: rest)) :
    strict.items (bound + 1) front bytes = strict.items bound (item :: front) rest := by
  rw [Dialect.items, hvalue]
  simp [strict, skipBlanks_cons (b := ascii ',') rfl, Dialect.closed?]

end Items

theorem label?_quoted (key rest : Bytes) :
    strict.label? (quoted key ++ ascii ':' :: rest) = some (key, rest) := by
  obtain ⟨after, hquoted, hstring⟩ := string_quoted key (ascii ':' :: rest)
  rw [hquoted, Dialect.label?]
  simp only [strict, skipBlanks_cons (b := ascii '"') rfl, key?, ↓reduceIte, hstring,
    skipBlanks_cons (b := ascii ':') rfl]

section Fields

variable {bound : Nat} {front : List (Bytes × Document)} {key : Bytes} {item : Document}
  {bytes rest : Bytes}

theorem fields_last (hvalue : strict.value bound bytes = some (item, ascii '\x7d' :: rest)) :
    strict.fields (bound + 1) front (quoted key ++ ascii ':' :: bytes) =
      some (.record (front.reverse ++ [(key, item)]), rest) := by
  rw [Dialect.fields, label?_quoted]
  simp only [hvalue]
  simp [strict, skipBlanks_cons (b := ascii '\x7d') rfl, show ascii '\x7d' ≠ ascii ',' by decide]

theorem fields_next (hvalue : strict.value bound bytes = some (item, ascii ',' :: rest)) :
    strict.fields (bound + 1) front (quoted key ++ ascii ':' :: bytes) =
      strict.fields bound ((key, item) :: front) rest := by
  rw [Dialect.fields, label?_quoted]
  simp only [hvalue]
  simp [strict, skipBlanks_cons (b := ascii ',') rfl, Dialect.closed?]

end Fields

/-- Values whose text is no longer than the bound are read back, and what
follows is left. -/
def ReadsValues (bound : Nat) : Prop :=
  ∀ document rest, document.isPlain → EndsNumber rest → (write document).length ≤ bound →
    strict.value bound (write document ++ rest) = some (document, rest)

def ReadsItems (bound : Nat) : Prop :=
  ∀ item items front rest, item.isPlain → Document.arePlain items →
    (write item ++ writeItems items).length ≤ bound →
      strict.items bound front (write item ++ (writeItems items ++ rest)) =
        some (.list (front.reverse ++ item :: items), rest)

def ReadsFields (bound : Nat) : Prop :=
  ∀ key value fields front rest, value.isPlain → Document.fieldsArePlain fields →
    (quoted key ++ ascii ':' :: (write value ++ writeFields false fields)).length ≤ bound →
      strict.fields bound front
          (quoted key ++ ascii ':' :: (write value ++ (writeFields false fields ++ rest))) =
        some (.record (front.reverse ++ (key, value) :: fields), rest)

theorem readsValues_succ {bound : Nat} (hitems : ReadsItems bound) (hfields : ReadsFields bound) :
    ReadsValues (bound + 1) := by
  intro document rest hplain hrest hbound
  match document with
  | .null =>
      rw [write]
      exact value_of_scalar (scalar?_null rest) ⟨_, _, rfl, by decide⟩
  | .truth true =>
      rw [write]
      exact value_of_scalar (scalar?_true rest) ⟨_, _, rfl, by decide⟩
  | .truth false =>
      rw [write]
      exact value_of_scalar (scalar?_false rest) ⟨_, _, rfl, by decide⟩
  | .text content =>
      rw [write]
      exact value_of_scalar (scalar?_text content rest) ⟨_, _, rfl, by decide⟩
  | .integer n =>
      obtain ⟨b, tail, hbytes, hfirst⟩ := integer_head n
      rw [write]
      refine value_of_scalar (scalar?_integer hplain hrest) ⟨b, tail, hbytes, ?_⟩
      rcases hfirst with hdigit | rfl
      · refine ⟨isBlank_of_isDigit hdigit, ?_, ?_⟩ <;> rintro rfl <;>
          exact absurd hdigit (by decide)
      · decide
  | .list [] => rw [write, Dialect.value]; rfl
  | .list (item :: items) =>
      obtain ⟨hitem, hrest⟩ : item.isPlain ∧ Document.arePlain items := by
        simpa [Document.isPlain, Document.arePlain] using hplain
      obtain ⟨b, tail, hbytes, hblank, hopen⟩ := write_head hitem
      have hread := hitems item items [] rest hitem hrest (by simpa [write] using hbound)
      rw [write, List.cons_append, List.append_assoc]
      rw [hbytes, List.cons_append] at hread ⊢
      exact (value_list hblank hopen).trans hread
  | .record [] => rw [write, Dialect.value]; rfl
  | .record ((key, value) :: fields) =>
      obtain ⟨hvalue, hrest⟩ : value.isPlain ∧ Document.fieldsArePlain fields := by
        simpa [Document.isPlain, Document.fieldsArePlain] using hplain
      have hread := hfields key value fields [] rest hvalue hrest
        (by simpa [write, writeFields] using hbound)
      rw [write, writeFields]
      refine (value_record (b := ascii '"') rfl (by decide)).trans ?_
      simpa [quoted] using hread

theorem readsItems_succ {bound : Nat} (hvalues : ReadsValues bound) (hitems : ReadsItems bound) :
    ReadsItems (bound + 1) := by
  intro item items front rest hitem hplain hbound
  rw [List.length_append] at hbound
  cases items with
  | nil =>
      rw [writeItems, List.length_singleton] at hbound
      rw [writeItems]
      exact items_last (hvalues item _ hitem (endsNumber_cons (by simp)) (by omega))
  | cons next items =>
      obtain ⟨hnext, hplain⟩ : next.isPlain ∧ Document.arePlain items := by
        simpa [Document.arePlain] using hplain
      rw [writeItems, List.length_cons] at hbound
      rw [writeItems, List.cons_append, List.append_assoc,
        items_next (hvalues item _ hitem (endsNumber_cons (by simp)) (by omega)),
        hitems next items (item :: front) rest hnext hplain (by omega)]
      simp

theorem readsFields_succ {bound : Nat} (hvalues : ReadsValues bound)
    (hfields : ReadsFields bound) : ReadsFields (bound + 1) := by
  intro key value fields front rest hvalue hplain hbound
  rw [List.length_append, List.length_cons, List.length_append] at hbound
  cases fields with
  | nil =>
      rw [writeFields, List.length_singleton] at hbound
      rw [writeFields]
      exact fields_last (hvalues value _ hvalue (endsNumber_cons (by simp)) (by omega))
  | cons field fields =>
      obtain ⟨nextKey, next⟩ := field
      obtain ⟨hnext, hplain⟩ : next.isPlain ∧ Document.fieldsArePlain fields := by
        simpa [Document.fieldsArePlain] using hplain
      simp only [writeFields, Bool.false_eq_true, ↓reduceIte, List.length_cons] at hbound
      simp only [writeFields, Bool.false_eq_true, ↓reduceIte, List.cons_append, List.append_assoc]
      rw [fields_next (hvalues value _ hvalue (endsNumber_cons (by simp)) (by omega)),
        hfields nextKey next fields ((key, value) :: front) rest hnext hplain (by omega)]
      simp

theorem reads_all (bound : Nat) : ReadsValues bound ∧ ReadsItems bound ∧ ReadsFields bound := by
  induction bound with
  | zero =>
      refine ⟨?_, ?_, ?_⟩
      · intro document rest hplain _ hbound
        obtain ⟨b, tail, hbytes, _⟩ := write_head hplain
        simp [hbytes] at hbound
      · intro item items front rest hitem _ hbound
        obtain ⟨b, tail, hbytes, _⟩ := write_head hitem
        simp [hbytes] at hbound
      · intro key value fields front rest _ _ hbound
        simp at hbound
  | succ bound ih =>
      obtain ⟨hvalues, hitems, hfields⟩ := ih
      exact ⟨readsValues_succ hitems hfields, readsItems_succ hvalues hitems,
        readsFields_succ hvalues hfields⟩

/-- What is written for a plain document is read back as that document. -/
theorem read?_write {document : Document} (hplain : document.isPlain) :
    read? (write document) = some document := by
  have hvalue := (reads_all (2 * (write document).length + 1)).1 document [] hplain
    endsNumber_nil (by omega)
  rw [List.append_nil] at hvalue
  rw [read?, Dialect.read?, hvalue]
  rfl

end Json

end ObjectVault
