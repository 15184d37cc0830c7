import PortableImage.Coff.Flags
import PortableImage.LabelPool

/-!
# Sections

A section is a named buffer with flags.  Its address and its sizes follow from the layout of the
image unless they are given.  Encoding an image leaves labels in its sections; they stay there when
the finished image is changed and encoded again.
-/

set_option autoImplicit false

namespace PortableImage

/-- A section of an image. -/
structure Section where
  /-- The name; the section table holds its first eight bytes. -/
  name : String
  content : Buffer
  flags : SectionFlags
  /-- A fixed address, relative to the start of the image. -/
  address : Option UInt32
  /-- A fixed size in memory. -/
  virtSize : Option UInt32
  /-- A fixed size in the file. -/
  rawSize : Option UInt32
  relocAddress : UInt32
  lineAddress : UInt32
  relocCount : UInt16
  lineCount : UInt16
  /-- The label of the place in the file, from the last time that the section was encoded. -/
  rawAddressLabel : Option (LinkerLabel "sect_rawaddr") := none
  /-- The label of the size in the file, from the last time that the section was encoded without a
  fixed one. -/
  rawSizeLabel : Option (LinkerLabel "sect_rawsize") := none
  deriving DecidableEq

namespace Section

/-- A section whose address and sizes follow from the layout. -/
def new (name : String) (flags : SectionFlags) (content : Buffer) : Section where
  name := name
  content := content
  flags := flags
  address := none
  virtSize := none
  rawSize := none
  relocAddress := 0
  lineAddress := 0
  relocCount := 0
  lineCount := 0

/-- The permissions of the standard sections; other names have none. -/
def standardFlags (name : String) : SectionFlags :=
  if name = ".text" then SectionFlags.read ||| SectionFlags.execute
  else if name = ".data" ∨ name = ".bss" then SectionFlags.read ||| SectionFlags.write
  else if name = ".rodata" then SectionFlags.read
  else SectionFlags.none

/-- The size in memory: the fixed one, or that of the content. -/
def sizeInMemory (s : Section) : Nat :=
  match s.virtSize with
  | some size => size.toNat
  | none => s.content.virtSize

/-- Whether the section has a fixed address and covers `rva`. -/
def covers (s : Section) (rva : Nat) : Bool :=
  match s.address with
  | none => false
  | some address =>
    let size := min s.sizeInMemory (UInt32.size - 1)
    address.toNat ≤ rva && rva < address.toNat + size

end Section

end PortableImage
