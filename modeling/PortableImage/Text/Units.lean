/-!
# Bytes and 16-bit units of a text

* `utf8` — the bytes of a text; names are stored in an image this way.
* `utf16` — its 16-bit units, a surrogate pair for a code point above `0xffff`; the names of a
  resource directory are stored and sorted this way.
-/

set_option autoImplicit false

namespace PortableImage.Text

/-- The UTF-8 bytes of `s`. -/
def utf8 (s : String) : List UInt8 := s.toUTF8.data.toList

/-- The UTF-16 units of one character. -/
def utf16Units (c : Char) : List UInt16 :=
  let n := c.toNat
  if n < 0x10000 then [UInt16.ofNat n]
  else
    [UInt16.ofNat (0xd800 + (n - 0x10000) / 0x400),
      UInt16.ofNat (0xdc00 + (n - 0x10000) % 0x400)]

/-- The UTF-16 units of `s`. -/
def utf16 (s : String) : List UInt16 := s.toList.flatMap utf16Units

example : utf8 "é" = [0xc3, 0xa9] := by decide +kernel

example : utf16 "a𐀀" = [0x61, 0xd800, 0xdc00] := by decide +kernel

end PortableImage.Text
