import PortableImage.Coff.Flags
import PortableImage.Coff.Format
import PortableImage.Coff.Machine
import PortableImage.Expr.Basic

/-!
# Headers of an image

Each field of the file header and of the optional header may be given; the fields left out follow
from the rest of the image, or have defaults.
-/

set_option autoImplicit false

namespace PortableImage

/-- The file header. -/
structure FileHeader where
  machine : Option Machine
  sectionCount : Option UInt16
  timestamp : Option UInt32
  symbolTable : Option UInt32
  symbolCount : Option UInt32
  optionalHeaderSize : Option UInt16
  flags : Option FileFlags
  deriving DecidableEq

/-- Nothing is given. -/
def FileHeader.empty : FileHeader := ⟨none, none, none, none, none, none, none⟩

/-- The optional header, without its data directories. -/
structure OptionalHeader where
  magic : Option UInt16
  linkerMajor : Option UInt8
  linkerMinor : Option UInt8
  codeSize : Option UInt32
  dataSize : Option UInt32
  uninitializedDataSize : Option UInt32
  /-- Where the program starts: an address, or a constant relative to the start of the image. -/
  entryPoint : Option Expr
  baseOfCode : Option Expr
  baseOfData : Option Expr
  imageBase : Option UInt64
  sectionAlignment : Option UInt32
  fileAlignment : Option UInt32
  osMajor : Option UInt16
  osMinor : Option UInt16
  imageMajor : Option UInt16
  imageMinor : Option UInt16
  subsystemMajor : Option UInt16
  subsystemMinor : Option UInt16
  reserved : Option UInt32
  checksum : Option UInt32
  subsystem : Option Subsystem
  dllFlags : Option DllFlags
  stackReserve : Option UInt64
  stackCommit : Option UInt64
  heapReserve : Option UInt64
  heapCommit : Option UInt64
  loaderFlags : Option UInt32
  directoryCount : Option UInt32
  deriving DecidableEq

/-- Nothing is given. -/
def OptionalHeader.empty : OptionalHeader where
  magic := none
  linkerMajor := none
  linkerMinor := none
  codeSize := none
  dataSize := none
  uninitializedDataSize := none
  entryPoint := none
  baseOfCode := none
  baseOfData := none
  imageBase := none
  sectionAlignment := none
  fileAlignment := none
  osMajor := none
  osMinor := none
  imageMajor := none
  imageMinor := none
  subsystemMajor := none
  subsystemMinor := none
  reserved := none
  checksum := none
  subsystem := none
  dllFlags := none
  stackReserve := none
  stackCommit := none
  heapReserve := none
  heapCommit := none
  loaderFlags := none
  directoryCount := none

end PortableImage
