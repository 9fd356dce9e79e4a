/-
Byte strings and the texts they spell in UTF-8.
-/
namespace ObjectVault

/-- A byte string. -/
abbrev Bytes := List UInt8

namespace Bytes

/-- The UTF-8 bytes of a text. -/
def ofText (text : String) : Bytes := text.toUTF8.data.toList

/-- The text that a byte string spells in UTF-8. -/
def text? (bytes : Bytes) : Option String := String.fromUTF8? ⟨bytes.toArray⟩

@[simp]
theorem text?_ofText (text : String) : text? (ofText text) = some text := by
  simp only [text?, ofText, String.fromUTF8?, Array.toArray_toList]
  exact dif_pos text.isValidUTF8

theorem ofText_inj {a b : String} (h : ofText a = ofText b) : a = b :=
  Option.some.inj <| by rw [← text?_ofText a, ← text?_ofText b, h]

end Bytes

end ObjectVault
