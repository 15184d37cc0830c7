import PortableImage.CommandLine.Number
import PortableImage.Coff.Flags
import PortableImage.Coff.Machine

/-!
# The values of options

* `SectionValue` — `NAME:PERMS:FILE[:BASE]`, a section and the file it comes from.
* `Position` — `SECTION[+OFFSET]`, a place in a section.
* `ExportValue` — `NAME=SECTION[+OFFSET]`, a symbol to offer.
* `ImportValue` — `LIB:SYMBOL` or `LIB:#ORDINAL`, a symbol to take from a library.
-/

set_option autoImplicit false

namespace PortableImage.CommandLine

/-- Why a text is no value of its kind. -/
inductive ValueError
  | number (error : NumberError)
  | sectionForm (text : String)
  | permissions (word text : String)
  | exportForm (text : String)
  | noExportName (text : String)
  | noSectionName (text : String)
  | importForm (text : String)
  | ordinalTooLarge (digits : String)
  | unknownMachine (word : String)
  | unknownTarget (word : String)
  deriving DecidableEq

/-- The error in words. -/
def ValueError.message : ValueError → String
  | number error => error.message
  | sectionForm text => "expected NAME:PERMS:FILE[:BASE], got '" ++ text ++ "'"
  | permissions word text => "invalid permissions '" ++ word ++ "' in '" ++ text ++ "'"
  | exportForm text => "expected NAME=SECTION[+OFFSET], got '" ++ text ++ "'"
  | noExportName text => "missing export name in '" ++ text ++ "'"
  | noSectionName text => "missing section name in '" ++ text ++ "'"
  | importForm text => "expected LIB:SYMBOL or LIB:#ORDINAL, got '" ++ text ++ "'"
  | ordinalTooLarge digits => "ordinal '" ++ digits ++ "' out of range"
  | unknownMachine word => "unknown machine '" ++ word ++ "'"
  | unknownTarget word => "unknown target '" ++ word ++ "' (expected exe, dll, kmod or obj)"

/-- What stands in front of the first separator, and what stands behind it if there is one. -/
def cut (separator : Char) : List Char → List Char × Option (List Char)
  | [] => ([], none)
  | c :: rest =>
    if c = separator then ([], some rest)
    else
      let (before, behind) := cut separator rest
      (c :: before, behind)

/-- A number below `2 ^ 32` as a part of a value. -/
def wordPart (digits : List Char) : Except ValueError UInt32 :=
  (parseWord (String.ofList digits)).mapError .number

/-- The machine that a word names. -/
def parseMachine (word : String) : Except ValueError Machine :=
  match Machine.ofWord word with
  | some m => .ok m
  | none => .error (.unknownMachine word)

/-- The kind of image that a word names. -/
def parseTarget (word : String) : Except ValueError Target :=
  match Target.ofWord word with
  | some t => .ok t
  | none => .error (.unknownTarget word)

/-! ## Sections -/

/-- A section, its permissions and the file it comes from. -/
structure SectionValue where
  name : String
  flags : SectionFlags
  file : String
  /-- A fixed address, relative to the start of the image. -/
  base : Option UInt32
  deriving DecidableEq

/-- An optional number behind a separator. -/
def baseOf : Option (List Char) → Except ValueError (Option UInt32)
  | none => .ok none
  | some digits => some <$> wordPart digits

/-- Reads `NAME:PERMS:FILE[:BASE]`. -/
def SectionValue.parse (text : String) : Except ValueError SectionValue :=
  match cut ':' text.toList with
  | (_, none) => .error (.sectionForm text)
  | (name, some rest) =>
    match cut ':' rest with
    | (_, none) => .error (.sectionForm text)
    | (permissions, some rest) =>
      let (file, base) := cut ':' rest
      if name.isEmpty || file.isEmpty then .error (.sectionForm text)
      else
        let word := String.ofList permissions
        match SectionFlags.ofWord word with
        | none => .error (.permissions word text)
        | some flags => do
          return ⟨String.ofList name, flags, String.ofList file, ← baseOf base⟩

/-! ## Positions and exports -/

/-- A place in a section. -/
structure Position where
  sectionName : String
  offset : UInt32
  deriving DecidableEq

/-- Reads `SECTION[+OFFSET]`. -/
def Position.parse (text : String) : Except ValueError Position := do
  let (name, digits) := cut '+' text.toList
  let offset ←
    match digits with
    | some digits => wordPart digits
    | none => pure 0
  if name.isEmpty then .error (.noSectionName text)
  else return ⟨String.ofList name, offset⟩

/-- A symbol to offer, and where it is. -/
structure ExportValue where
  name : String
  position : Position
  deriving DecidableEq

/-- Reads `NAME=SECTION[+OFFSET]`. -/
def ExportValue.parse (text : String) : Except ValueError ExportValue :=
  match cut '=' text.toList with
  | (_, none) => .error (.exportForm text)
  | (name, some position) =>
    if name.isEmpty then .error (.noExportName text)
    else do return ⟨String.ofList name, ← Position.parse (String.ofList position)⟩

/-! ## Imports -/

/-- What a symbol of a library is found by. -/
inductive ImportSymbol
  | name (name : String)
  | ordinal (ordinal : UInt16)
  deriving DecidableEq

/-- A symbol to take from a library. -/
structure ImportValue where
  library : String
  symbol : ImportSymbol
  deriving DecidableEq

/-- Reads `SYMBOL` or `#ORDINAL`. -/
def ImportSymbol.parse : List Char → Except ValueError ImportSymbol
  | '#' :: digits => do
    let n ← (parseNumber (String.ofList digits)).mapError .number
    if n < UInt16.size then return .ordinal (UInt16.ofNat n)
    else .error (.ordinalTooLarge (String.ofList digits))
  | symbol => .ok (.name (String.ofList symbol))

/-- Reads `LIB:SYMBOL` or `LIB:#ORDINAL`. -/
def ImportValue.parse (text : String) : Except ValueError ImportValue :=
  match cut ':' text.toList with
  | (_, none) => .error (.importForm text)
  | (library, some symbol) =>
    if library.isEmpty || symbol.isEmpty then .error (.importForm text)
    else do return ⟨String.ofList library, ← ImportSymbol.parse symbol⟩

end PortableImage.CommandLine
