import PortableImage.Coff.Machine
import PortableImage.Field.Type
import PortableImage.LinkValue
import PortableImage.Text.Hex

/-!
# What can go wrong

Encoding an image fails for one of six reasons, each a constructor of `EncodeError` that carries its
causes; `EncodeError.message` is the one place where they are put into words.

* `Quantity` — what a number that is too large was meant to be.
* `LayoutFault` — why something has no place in the image.
* `ImagePart` — what was being read when the bytes of an image ended.
-/

set_option autoImplicit false

namespace PortableImage

/-- What a number is meant for: an integer field, or a size or count with a limit of its own. -/
inductive Quantity
  | field (type : FieldType)
  | sectionVirtualSize
  | sectionCount
  | optionalHeaderSize
  | codeSize
  | dataSize
  | uninitializedDataSize
  | directoryCount
  deriving DecidableEq

/-- The quantity in words. -/
def Quantity.name : Quantity → String
  | field type => type.name
  | sectionVirtualSize => "section virtual size"
  | sectionCount => "section count"
  | optionalHeaderSize => "optional header size"
  | codeSize => "size of code"
  | dataSize => "size of data"
  | uninitializedDataSize => "size of uninitialized data"
  | directoryCount => "number of directories"

/-- One of the two alignments of an image. -/
inductive Alignment
  | section
  | file
  deriving DecidableEq

/-- The alignment in words. -/
def Alignment.name : Alignment → String
  | .section => "section alignment"
  | .file => "file alignment"

/-- Why something cannot be placed. -/
inductive LayoutFault
  /-- The section is fixed at `rva`, but the sections before it reach up to `next`. -/
  | fixedTooLow (name : String) (rva next : Nat)
  /-- An alignment that is not a power of two. -/
  | notPowerOfTwo (alignment : Alignment) (value : Nat)
  /-- An exported ordinal below the first ordinal of its directory. -/
  | ordinalBelowBase (ordinal base : Nat)
  /-- Two exports with one ordinal. -/
  | ordinalTwice (ordinal : Nat)
  /-- A call stub for an import that has no address slot. -/
  | stubWithoutSlot (stub : String)
  /-- An import that is neither by name nor by ordinal. -/
  | namelessImport (library : String)
  /-- An address table fixed at `rva`, where there is no section. -/
  | tableOutsideSections (rva : Nat)
  /-- An address table fixed at `rva` that does not end inside its section. -/
  | tableOverrun (rva : Nat)
  deriving DecidableEq

namespace LayoutFault

/-- The section, or the part of the image, that has no place. -/
def place : LayoutFault → String
  | fixedTooLow name _ _ => name
  | notPowerOfTwo _ _ => "headers"
  | ordinalBelowBase _ _ | ordinalTwice _ => ".edata"
  | stubWithoutSlot _ => ".plt"
  | namelessImport _ => ".idata"
  | tableOutsideSections _ | tableOverrun _ => ".iat"

/-- The reason in words. -/
def reason : LayoutFault → String
  | fixedTooLow _ rva next =>
    "fixed address " ++ Text.hex rva ++ " is below the next free address " ++ Text.hex next
  | notPowerOfTwo alignment value =>
    alignment.name ++ " " ++ Text.hex value ++ " is not a power of two"
  | ordinalBelowBase ordinal base =>
    "ordinal " ++ toString ordinal ++ " is below the ordinal base " ++ toString base
  | ordinalTwice ordinal => "ordinal " ++ toString ordinal ++ " is exported twice"
  | stubWithoutSlot stub => "thunk " ++ stub ++ " has no import slot"
  | namelessImport library => "import from " ++ library ++ " has neither a name nor an ordinal"
  | tableOutsideSections rva => "no section holds the import address table at " ++ Text.hex rva
  | tableOverrun rva => "import address table at " ++ Text.hex rva ++ " overruns its section"

end LayoutFault

/-- A part of an image that is read back. -/
inductive ImagePart
  | headerOffset
  | signature
  | sectionCount
  | optionalHeaderSize
  | headersSize
  | headers
  | sectionRawSize
  | sectionRawAddress
  | sectionData
  deriving DecidableEq

/-- The part in words. -/
def ImagePart.name : ImagePart → String
  | headerOffset => "e_lfanew"
  | signature => "PE signature"
  | sectionCount => "section count"
  | optionalHeaderSize => "optional header size"
  | headersSize => "headers size"
  | headers => "headers"
  | sectionRawSize => "section raw size"
  | sectionRawAddress => "section raw address"
  | sectionData => "section data"

/-- Why an image cannot be encoded, or its bytes cannot be read back. -/
inductive EncodeError
  /-- Labels without a value are left in some field. -/
  | unresolvedSymbol (symbols : List String)
  /-- Two definitions of one label. -/
  | duplicateBinding (label : String)
  /-- A number outside the range of what it is meant for. -/
  | encodingOverflow (value : LinkValue) (quantity : Quantity)
  | layout (fault : LayoutFault)
  /-- No call stubs are known for the machine. -/
  | unsupportedArchitecture (machine : Machine)
  /-- The bytes of an image end before the part that starts at `offset` does. -/
  | truncatedImage (part : ImagePart) (offset : Nat)
  deriving DecidableEq

namespace EncodeError

/-- The error in words; a negative value is shown by its word. -/
def message : EncodeError → String
  | unresolvedSymbol symbols => "unresolved symbol(s): " ++ ", ".intercalate symbols
  | duplicateBinding label => "label bound twice: " ++ label
  | encodingOverflow value quantity =>
    "value " ++ Text.hex value.toNat ++ " does not fit in " ++ quantity.name ++ " field"
  | layout fault => "cannot lay out section " ++ fault.place ++ ": " ++ fault.reason
  | unsupportedArchitecture machine =>
    "no import thunk encoding for machine " ++ machine.name
  | truncatedImage part offset =>
    "image truncated while reading " ++ part.name ++ " at " ++ Text.hex offset

end EncodeError

end PortableImage
