import PortableImage.Text.Units

/-!
# Texts of 16-bit units

A name that is stored in 16-bit units is put together again: a high surrogate makes one character
with the unit behind it, and every other unit is a character of its own.

* `Text.decodeUtf16` — the characters of units.
* `Text.decodeUtf16_utf16` — they are those of the text that was stored.
-/

set_option autoImplicit false

namespace PortableImage.Text

/-- The characters of units. -/
def decodeUtf16 : List UInt16 → List Char
  | [] => []
  | [unit] => [Char.ofNat unit.toNat]
  | high :: low :: rest =>
    if 0xd800 ≤ high.toNat ∧ high.toNat < 0xdc00 then
      Char.ofNat (0x10000 + (high.toNat - 0xd800) * 0x400 + (low.toNat - 0xdc00)) ::
        decodeUtf16 rest
    else Char.ofNat high.toNat :: decodeUtf16 (low :: rest)

/-- A unit that is not a high surrogate is a character of its own. -/
theorem decodeUtf16_cons {unit : UInt16} (h : ¬(0xd800 ≤ unit.toNat ∧ unit.toNat < 0xdc00))
    (rest : List UInt16) : decodeUtf16 (unit :: rest) = Char.ofNat unit.toNat :: decodeUtf16 rest := by
  cases rest with
  | nil => rfl
  | cons next rest => rw [decodeUtf16, if_neg h]

/-- The units of a character are read as the character. -/
theorem decodeUtf16_utf16Units (c : Char) (rest : List UInt16) :
    decodeUtf16 (utf16Units c ++ rest) = c :: decodeUtf16 rest := by
  have hvalid : c.toNat < 0xd800 ∨ 0xdfff < c.toNat ∧ c.toNat < 0x110000 := c.valid
  rw [utf16Units]
  split
  · next hsmall =>
    have hunit : (UInt16.ofNat c.toNat).toNat = c.toNat := UInt16.toNat_ofNat_of_lt' hsmall
    rw [List.singleton_append, decodeUtf16_cons (by omega), hunit, Char.ofNat_toNat]
  · next hlarge =>
    have hhigh : (UInt16.ofNat (0xd800 + (c.toNat - 0x10000) / 0x400)).toNat =
        0xd800 + (c.toNat - 0x10000) / 0x400 := UInt16.toNat_ofNat_of_lt' (by rw [UInt16.size]; omega)
    have hlow : (UInt16.ofNat (0xdc00 + (c.toNat - 0x10000) % 0x400)).toNat =
        0xdc00 + (c.toNat - 0x10000) % 0x400 := UInt16.toNat_ofNat_of_lt' (by rw [UInt16.size]; omega)
    have hback : 0x10000 + (0xd800 + (c.toNat - 0x10000) / 0x400 - 0xd800) * 0x400 +
        (0xdc00 + (c.toNat - 0x10000) % 0x400 - 0xdc00) = c.toNat := by omega
    rw [List.cons_append, List.singleton_append, decodeUtf16, if_pos (by omega), hhigh, hlow, hback,
      Char.ofNat_toNat]

/-- **The units of a text are read as the text.** -/
theorem decodeUtf16_utf16 (s : String) : decodeUtf16 (utf16 s) = s.toList := by
  rw [utf16]
  induction s.toList with
  | nil => rfl
  | cons c rest ih => rw [List.flatMap_cons, decodeUtf16_utf16Units, ih]

end PortableImage.Text
