import PortableImage.Text.Blank

/-!
# Numbers on the command line

A number is decimal, or hexadecimal behind `0x`; blanks around it do not count, and a `+` may stand
in front of its digits.

* `readNumber` — the number that digits stand for, below `2 ^ 64`.
* `parseNumber`, `parseWord` — the number that a text stands for, below `2 ^ 64` or `2 ^ 32`.
-/

set_option autoImplicit false

namespace PortableImage.CommandLine

/-- The base that a number is written in. -/
inductive Base
  | decimal
  | hex
  deriving DecidableEq

namespace Base

/-- The number of digits. -/
def radix : Base → Nat
  | decimal => 10
  | hex => 16

/-- The base in words. -/
def name : Base → String
  | decimal => "decimal"
  | hex => "hex"

/-- The value of a digit or a letter. -/
def letterValue (c : Char) : Option Nat :=
  if '0' ≤ c ∧ c ≤ '9' then some (c.toNat - '0'.toNat)
  else if 'a' ≤ c ∧ c ≤ 'f' then some (c.toNat - 'a'.toNat + 10)
  else if 'A' ≤ c ∧ c ≤ 'F' then some (c.toNat - 'A'.toNat + 10)
  else none

/-- The value of a digit of the base. -/
def digit? (base : Base) (c : Char) : Option Nat := (letterValue c).filter (· < base.radix)

end Base

/-- Why digits are not a number. -/
inductive DigitFault
  | noDigits
  | badDigit
  | tooLarge
  deriving DecidableEq

/-- The fault in words. -/
def DigitFault.message : DigitFault → String
  | noDigits => "cannot parse integer from empty string"
  | badDigit => "invalid digit found in string"
  | tooLarge => "number too large to fit in target type"

/-- Digits behind a number that has been read; the first fault counts. -/
def readDigits (base : Base) : (value : Nat) → List Char → Except DigitFault Nat
  | value, [] => .ok value
  | value, c :: rest =>
    match base.digit? c with
    | none => .error .badDigit
    | some d =>
      let next := value * base.radix + d
      if next < UInt64.size then readDigits base next rest else .error .tooLarge

/-- The number that one or more digits stand for; a `+` may stand in front of them. -/
def readNumber (base : Base) : List Char → Except DigitFault Nat
  | [] => .error .noDigits
  | ['+'] => .error .badDigit
  | '+' :: digits => readDigits base 0 digits
  | digits => readDigits base 0 digits

/-- Why a text is not a number. -/
inductive NumberError
  | digits (base : Base) (text : String) (fault : DigitFault)
  /-- The number is not below `2 ^ 32`. -/
  | tooWide (text : String)
  deriving DecidableEq

/-- The error in words. -/
def NumberError.message : NumberError → String
  | digits base text fault =>
    "invalid " ++ base.name ++ " value '" ++ text ++ "': " ++ fault.message
  | tooWide text => "value '" ++ text ++ "' does not fit in 32 bits"

/-- The base of a number without blanks around it, and its digits. -/
def splitBase : List Char → Base × List Char
  | '0' :: 'x' :: digits => (.hex, digits)
  | '0' :: 'X' :: digits => (.hex, digits)
  | digits => (.decimal, digits)

/-- The number below `2 ^ 64` that a text stands for. -/
def parseNumber (text : String) : Except NumberError Nat :=
  let (base, digits) := splitBase (Text.trimChars text.toList)
  (readNumber base digits).mapError (.digits base text)

/-- The number below `2 ^ 32` that a text stands for. -/
def parseWord (text : String) : Except NumberError UInt32 := do
  let n ← parseNumber text
  if n < UInt32.size then return UInt32.ofNat n else .error (.tooWide text)

example : readNumber .hex ['+', '7'] = .ok 7 := rfl

example : readNumber .hex ['+'] = .error .badDigit := rfl

end PortableImage.CommandLine
