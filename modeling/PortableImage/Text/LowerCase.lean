import PortableImage.Text.CaseTables

/-!
# Lower case

Two mappings.  `asciiLower` changes the letters `A` to `Z` only; it is what keywords, permission
words and library names are compared by.  `lowerCase` is the full mapping of the Unicode character
database, by which the names of a resource directory are sorted: every letter by the simple mapping,
except that `İ` becomes two characters and that `Σ` becomes `ς` at the end of a word.

* `simpleLower`, `lowerRanges` — one letter.
* `isFinalSigma` — whether a `Σ` ends its word: a cased letter before it, none after it, where
  case-ignorable characters are passed over in both directions.
* `lowerCase`, `asciiLower` — a text.
-/

set_option autoImplicit false

namespace PortableImage.Text

/-- `s` with the letters `A` to `Z` in lower case, all else unchanged. -/
def asciiLower (s : String) : String := String.ofList (s.toList.map Char.toLower)

/-- Whether the row covers the code point: between its ends and a whole number of steps in. -/
def inRun (n first last step : Nat) : Bool :=
  first ≤ n && n ≤ last && (n - first) % step == 0

/-- The lower-case letter of `c` by the simple mapping. -/
def simpleLower (c : Char) : Char :=
  match lowerRanges.find? fun (first, last, step, _) => inRun c.toNat first last step with
  | some (_, _, _, distance) => Char.ofNat (c.toNat + distance).toNat
  | none => c

/-- Whether the first character that is not case-ignorable is a cased letter. -/
def startsCased (s : List Char) : Bool :=
  match s.dropWhile caseIgnorableRanges.contains with
  | c :: _ => casedRanges.contains c
  | [] => false

/-- Whether a sigma between `before` (read backwards) and `after` ends its word. -/
def isFinalSigma (before after : List Char) : Bool :=
  startsCased before && !startsCased after

/-- The lower case of the second argument, where the first holds what precedes it, backwards. -/
def lowerAfter (before : List Char) : List Char → List Char
  | [] => []
  | c :: rest =>
    let here :=
      if c = 'İ' then ['i', '\u0307']
      else if c = 'Σ' then [if isFinalSigma before rest then 'ς' else 'σ']
      else [simpleLower c]
    here ++ lowerAfter (c :: before) rest

/-- `s` in lower case. -/
def lowerCase (s : String) : String := String.ofList (lowerAfter [] s.toList)

example : asciiLower "X86_É" = "x86_É" := by decide +kernel

example : lowerAfter [] "ΑΣ".toList = "ας".toList := by decide +kernel

example : lowerAfter [] "ΣÉß".toList = "σéß".toList := by decide +kernel

end PortableImage.Text
