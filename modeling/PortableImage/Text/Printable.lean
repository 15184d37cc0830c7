/-!
# Text without control sequences

What a terminal would print of a text: control characters other than blanks are left out, and so are
the sequences that an escape character starts.  Every sequence ends where an escape character starts
another one, so what a word leaves open ends with the style the word is shown in.

* `Screen` — what a terminal is in the middle of.
* `printable` — the characters that are printed.
* `emphasized` — a text in a style of its own.
-/

set_option autoImplicit false

namespace PortableImage.Text

/-- What a terminal is in the middle of. -/
inductive Screen
  /-- Plain text. -/
  | plain
  /-- Behind the escape character. -/
  | escape
  /-- Behind the escape character and punctuation that needs one character more. -/
  | escapeMore
  /-- A sequence with parameters, which a letter ends. -/
  | control
  /-- A command, which the bell or an escape character ends. -/
  | command
  /-- At the start of a device control string. -/
  | device
  /-- Among the parameters of a device control string. -/
  | deviceParameters
  /-- Behind the parameters of a device control string. -/
  | deviceMore
  /-- A string, which the string terminator or an escape character ends. -/
  | text
  deriving DecidableEq

namespace Screen

/-- The characters that end any sequence. -/
def cancels (c : Char) : Bool := c == '\x18' || c == '\x1a'

/-- The blanks among the control characters. -/
def isControlBlank (c : Char) : Bool := c == '\t' || c == '\n' || c == '\x0c' || c == '\r'

/-- Whether the character is printed in plain text. -/
def isPlain (c : Char) : Bool := isControlBlank c || (' ' ≤ c && c != '\x7f')

/-- Whether the string terminator, the byte `0x9c`, is among the bytes of the character. -/
def terminates (c : Char) : Bool := (String.utf8EncodeChar c).contains 0x9c

/-- Behind the escape character, what another character leads to. -/
def afterEscape (c : Char) : Screen :=
  if c = '[' then control
  else if c = ']' then command
  else if c = 'P' then device
  else if c = 'X' ∨ c = '^' ∨ c = '_' then text
  else if ' ' ≤ c ∧ c ≤ '/' then escapeMore
  else if '0' ≤ c ∧ c ≤ '~' then plain
  else escape

/-- What a character that is not printed leads to. -/
def next (screen : Screen) (c : Char) : Screen :=
  if c = '\x1b' then escape
  else if cancels c then plain
  else
    match screen with
    | plain => plain
    | escape => afterEscape c
    | escapeMore => if '0' ≤ c ∧ c ≤ '~' then plain else escapeMore
    | control => if '@' ≤ c ∧ c ≤ '~' then plain else control
    | command => if c = '\x07' then plain else command
    | device =>
      if ' ' ≤ c ∧ c ≤ '/' then deviceMore
      else if '0' ≤ c ∧ c ≤ '?' then deviceParameters
      else if '@' ≤ c ∧ c ≤ '~' then text
      else device
    | deviceParameters =>
      if ' ' ≤ c ∧ c ≤ '/' then deviceMore
      else if '<' ≤ c ∧ c ≤ '~' then text
      else deviceParameters
    | deviceMore => if '0' ≤ c ∧ c ≤ '~' then text else deviceMore
    | text => if terminates c then plain else text

/-- Whether the character is printed.  Blanks are, in the middle of most sequences too. -/
def prints (screen : Screen) (c : Char) : Bool :=
  match screen with
  | plain => isPlain c
  | escape | escapeMore | control => isControlBlank c
  | command | device | deviceParameters | deviceMore | text => false

end Screen

/-- The characters that are printed, in the middle of something; a printed character ends that. -/
def printableFrom (screen : Screen) : List Char → List Char
  | [] => []
  | c :: rest =>
    if screen.prints c then c :: printableFrom .plain rest
    else printableFrom (screen.next c) rest

/-- What a terminal would print of a text. -/
def printable (s : String) : String := String.ofList (printableFrom .plain s.toList)

/-- `s` in a style of its own: one sequence starts the style and another one ends it. -/
def emphasized (s : String) : String := "\x1b[1m" ++ s ++ "\x1b[0m"

example : printableFrom .plain "a\x1b[31mb\x00\tc".toList = "ab\tc".toList := by decide +kernel

example : printableFrom .plain (emphasized "a\x1b]b" ++ "c").toList = "ac".toList := by
  decide +kernel

example : printableFrom .plain "\x1bP 0Üa\x1b_Üb\x1b]Üc".toList = "ab".toList := by decide +kernel

end PortableImage.Text
