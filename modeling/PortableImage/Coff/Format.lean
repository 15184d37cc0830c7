/-!
# Numbers of the file format

The signatures, sizes and defaults of a COFF or PE image, and its enumerations.

* `Subsystem` — what runs the image.
* `DirectorySlot` — the sixteen data directories, in the order they have in the file.
* `BaseRelocKind` — what a base relocation changes.
-/

set_option autoImplicit false

namespace PortableImage

/-- The bytes in front of the file header of an image that is not an object file. -/
def peSignature : List UInt8 := [0x50, 0x45, 0, 0]

/-- The bytes an image that is not an object file starts with. -/
def dosSignature : List UInt8 := [0x4d, 0x5a]

/-- Where the file offset of the signature is stored. -/
def headerOffsetPosition : Nat := 0x3c

def dosHeaderSize : Nat := 0x40
def fileHeaderSize : Nat := 20
def sectionHeaderSize : Nat := 40

/-- The magic number of an optional header with 32-bit addresses. -/
def magicPe32 : UInt16 := 0x010b

/-- The magic number of an optional header with 64-bit addresses. -/
def magicPe32Plus : UInt16 := 0x020b

/-- Where the optional header holds the size of all headers. -/
def headersSizePosition : Nat := 60

/-- Where the optional header holds the checksum. -/
def checksumPosition : Nat := 64

def defaultImageBase : UInt64 := 0x400000
def defaultSectionAlignment : UInt32 := 0x1000
def defaultFileAlignment : UInt32 := 0x200

/-- What runs an image. -/
inductive Subsystem
  | unknown
  | native
  | windowsGui
  | windowsCui
  | efiApplication
  deriving DecidableEq, Inhabited

/-- The number of the subsystem in the optional header. -/
def Subsystem.raw : Subsystem → UInt16
  | unknown => 0
  | native => 1
  | windowsGui => 2
  | windowsCui => 3
  | efiApplication => 10

/-- A data directory of the optional header. -/
inductive DirectorySlot
  | exportTable
  | importTable
  | resourceTable
  | exceptionTable
  | certificateTable
  | baseRelocationTable
  | debug
  | architecture
  | globalPointer
  | tlsTable
  | loadConfig
  | boundImport
  | importAddressTable
  | delayImport
  | comRuntime
  | reserved
  deriving DecidableEq, Inhabited

/-- The data directories, in the order they have in the file. -/
def DirectorySlot.all : List DirectorySlot :=
  [exportTable, importTable, resourceTable, exceptionTable, certificateTable, baseRelocationTable,
    debug, architecture, globalPointer, tlsTable, loadConfig, boundImport, importAddressTable,
    delayImport, comRuntime, reserved]

theorem DirectorySlot.mem_all (d : DirectorySlot) : d ∈ all := by cases d <;> decide

/-- What a base relocation changes. -/
inductive BaseRelocKind
  | absolute
  | high
  | low
  | highLow
  | highAdj
  | dir64
  deriving DecidableEq, Inhabited

/-- The number of the kind in a relocation block. -/
def BaseRelocKind.raw : BaseRelocKind → UInt16
  | absolute => 0
  | high => 1
  | low => 2
  | highLow => 3
  | highAdj => 4
  | dir64 => 10

end PortableImage
