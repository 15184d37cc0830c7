import PortableImage.Text.FormlessTable
import PortableImage.Text.Hex

/-!
# Quoted text

A name inside a log line stands between double quotes.  The quote, the backslash and the usual
controls are written behind a backslash, and a character without a form of its own is written by its
number, so that the line shows exactly which name is meant.

* `escapeChar` — one character.
* `quoted` — a text between quotes.
-/

set_option autoImplicit false

namespace PortableImage.Text

/-- A character by its number: `\u` and the hexadecimal digits in braces. -/
def byNumber (c : Char) : List Char :=
  ['\\', 'u', '\x7b'] ++ hexDigits c.toNat ++ ['\x7d']

/-- One character of a quoted text. -/
def escapeChar (c : Char) : List Char :=
  if c = '\x00' then ['\\', '0']
  else if c = '\t' then ['\\', 't']
  else if c = '\r' then ['\\', 'r']
  else if c = '\n' then ['\\', 'n']
  else if c = '\\' then ['\\', '\\']
  else if c = '"' then ['\\', '"']
  else if formlessRanges.contains c then byNumber c
  else [c]

/-- `s` between double quotes. -/
def quoted (s : String) : String :=
  String.ofList ('"' :: s.toList.flatMap escapeChar ++ ['"'])

example : quoted "a\"b\\" = "\"a\\\"b\\\\\"" := by decide +kernel

example : escapeChar '\x7f' = "\\u\x7b7f\x7d".toList ∧ escapeChar 'ß' = ['ß'] := by decide +kernel

end PortableImage.Text
