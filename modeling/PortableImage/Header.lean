import PortableImage.Context
import PortableImage.Image.Basic
import PortableImage.Text.Units

/-!
# Headers

The fields of the headers that are not given follow from the sections, or have defaults.  What
depends on the layout of the whole image (sizes, file positions, the checksum) is a fresh label that
gets its value in the end.

* `encodeSectionHeader` — a row of the section table.
* `encodeOptionalHeader` — the optional header with its data directories.
* `encodeFileHeader`, `encodeDosStub` — what stands before it.
-/

set_option autoImplicit false

namespace PortableImage

/-! ## Limits -/

/-- A number that must be below a limit. -/
def checkBelow (limit n : Nat) (quantity : Quantity) : Except EncodeError Nat :=
  if n < limit then .ok n else .error (.encodingOverflow (.ofSize n) quantity)

/-- Whether the number is a power of two. -/
def isPowerOfTwo (n : Nat) : Bool := n != 0 && n &&& (n - 1) == 0

/-- An alignment that must be a power of two. -/
def checkAlignment (alignment : Alignment) (n : Nat) : Except EncodeError Unit :=
  if isPowerOfTwo n then .ok () else .error (.layout (.notPowerOfTwo alignment n))

/-! ## The section table -/

/-- The address of a section relative to the start of the image: the fixed one, or that of the label
of its start. -/
def sectionRva (c : Context) (s : Section) : Expr × Section × Context :=
  match s.address with
  | some address => (.ofSize address.toNat, s, c)
  | none =>
    let (label, c, content) := c.labelAt s.content 0 "sect_start"
    (c.rva (.label label), { s with content }, c)

/-- A row of the section table, with the section it describes. -/
structure SectionRow where
  row : Buffer
  entry : Section
  context : Context

/-- The size of a section in the file: the fixed one, or a fresh label.  Where the size is fixed, a
label that the section still has stays. -/
def sectionRawSize (c : Context) (s : Section) : Expr × Section × Context :=
  match s.rawSize with
  | some size => (.ofSize size.toNat, s, c)
  | none =>
    let (label, c) := c.freshLabel "sect_rawsize"
    (.label label.name, { s with rawSizeLabel := some label }, c)

/-- The place of a section in the file, which is always a fresh label. -/
def sectionRawAddress (c : Context) (s : Section) : Expr × Section × Context :=
  let (label, c) := c.freshLabel "sect_rawaddr"
  (.label label.name, { s with rawAddressLabel := some label }, c)

/-- The first eight bytes of a name, with zeros behind a shorter one. -/
def shortName (name : String) : List UInt8 := padTo 8 ((Text.utf8 name).take 8)

/-- The section with a size in memory: the fixed one, or that of its content. -/
def sizeSection (s : Section) : Except EncodeError Section :=
  match s.virtSize with
  | some _ => .ok s
  | none => do
    let size ← checkBelow UInt32.size s.content.virtSize .sectionVirtualSize
    return { s with virtSize := some (UInt32.ofNat size) }

/-- The fields of a row behind the name. -/
def rowFields (s : Section) (rva rawSize rawAddress : Expr) : Record :=
  [(.u32, .ofSize (s.virtSize.getD 0).toNat),
    (.u32, rva),
    (.u32, rawSize),
    (.u32, rawAddress),
    (.u32, .ofSize s.relocAddress.toNat),
    (.u32, .ofSize s.lineAddress.toNat),
    (.u16, .ofSize s.relocCount.toNat),
    (.u16, .ofSize s.lineCount.toNat),
    (.u32, .ofSize s.flags.bits.toNat)]

/-- The row of a section.  The size in memory becomes fixed, and the section gets the labels of its
place and size in the file. -/
def encodeSectionHeader (c : Context) (s : Section) : Except EncodeError SectionRow := do
  let s ← sizeSection s
  let (rva, s, c) := sectionRva c s
  let (rawSize, s, c) := sectionRawSize c s
  let (rawAddress, s, c) := sectionRawAddress c s
  let fields ← c.encoder.record (rowFields s rva rawSize rawAddress)
  return ⟨.ofBytes (shortName s.name) ++ fields, s, c⟩

/-! ## The optional header -/

/-- The sizes of the sections with the flag, each rounded up, added up. -/
def totalSize (sections : List Section) (flag : SectionFlags) (alignment : Nat) : Nat :=
  (sections.filter (·.flags.contains flag)).foldl
    (fun total s => total + alignSize ((s.virtSize.map (·.toNat)).getD 0) alignment) 0

/-- The given size, or the total of the sections with the flag. -/
def sizeOr (given : Option UInt32) (sections : List Section) (flag : SectionFlags)
    (alignment : Nat) (quantity : Quantity) : Except EncodeError UInt32 :=
  match given with
  | some size => .ok size
  | none => do
    return UInt32.ofNat (← checkBelow UInt32.size (totalSize sections flag alignment) quantity)

/-- The address of the first section with the flag, relative to the start of the image; zero if
there is none. -/
def firstRva (flag : SectionFlags) : List Section → Context → Expr × List Section × Context
  | [], c => (.const 0, [], c)
  | s :: rest, c =>
    if s.flags.contains flag then
      let (rva, s, c) := sectionRva c s
      (rva, s :: rest, c)
    else
      let (rva, rest, c) := firstRva flag rest c
      (rva, s :: rest, c)

/-- The given address, or that of the first section with the flag. -/
def rvaOr (given : Option Expr) (flag : SectionFlags) (sections : List Section) (c : Context) :
    Expr × List Section × Context :=
  match given with
  | some rva => (rva, sections, c)
  | none => firstRva flag sections c

/-- The optional header with every field that has a default, the sections and the context. -/
structure Defaults where
  header : OptionalHeader
  sections : List Section
  context : Context

/-- Fills in the fields that are not given. -/
def fillDefaults (c : Context) (h : OptionalHeader) (sections : List Section) :
    Except EncodeError Defaults := do
  let sectionAlignment := h.sectionAlignment.getD defaultSectionAlignment
  let fileAlignment := h.fileAlignment.getD defaultFileAlignment
  checkAlignment .section sectionAlignment.toNat
  checkAlignment .file fileAlignment.toNat
  let size (given : Option UInt32) (flag : SectionFlags) (quantity : Quantity) :=
    sizeOr given sections flag sectionAlignment.toNat quantity
  let codeSize ← size h.codeSize .containsCode .codeSize
  let dataSize ← size h.dataSize .containsData .dataSize
  let uninitializedDataSize ←
    size h.uninitializedDataSize .containsUninitializedData .uninitializedDataSize
  let (baseOfCode, sections, c) := rvaOr h.baseOfCode .containsCode sections c
  let (baseOfData, sections, c) := rvaOr h.baseOfData .containsData sections c
  let header : OptionalHeader :=
    { h with
      magic := some (h.magic.getD (if c.encoder.pe64 then magicPe32Plus else magicPe32))
      linkerMajor := some (h.linkerMajor.getD 1)
      linkerMinor := some (h.linkerMinor.getD 0)
      codeSize := some codeSize
      dataSize := some dataSize
      uninitializedDataSize := some uninitializedDataSize
      baseOfCode := some baseOfCode
      baseOfData := some baseOfData
      sectionAlignment := some sectionAlignment
      fileAlignment := some fileAlignment
      osMajor := some (h.osMajor.getD 4)
      osMinor := some (h.osMinor.getD 0)
      imageMajor := some (h.imageMajor.getD 0)
      imageMinor := some (h.imageMinor.getD 0)
      subsystemMajor := some (h.subsystemMajor.getD 4)
      subsystemMinor := some (h.subsystemMinor.getD 0)
      reserved := some (h.reserved.getD 0)
      subsystem := some (h.subsystem.getD .windowsGui)
      stackReserve := some (h.stackReserve.getD 0x100000)
      stackCommit := some (h.stackCommit.getD 0x1000)
      heapReserve := some (h.heapReserve.getD 0x100000)
      heapCommit := some (h.heapCommit.getD 0x1000)
      loaderFlags := some (h.loaderFlags.getD 0)
      directoryCount := some (h.directoryCount.getD 16) }
  return ⟨header, sections, c⟩

/-- The fields of the headers that get their value in the end. -/
structure PendingHeader where
  imageSize : String
  headersSize : String
  /-- Missing where the checksum is given. -/
  checksum : Option String
  deriving DecidableEq

/-- Fresh labels for them. -/
def pendingHeader (c : Context) (h : OptionalHeader) : PendingHeader × Context :=
  let (imageSize, c) := c.fresh "image_size"
  let (headersSize, c) := c.fresh "headers_size"
  match h.checksum with
  | some _ => (⟨imageSize, headersSize, none⟩, c)
  | none =>
    let (checksum, c) := c.fresh "checksum"
    (⟨imageSize, headersSize, some checksum⟩, c)

/-- An optional number as the value of a field; zero if it is missing. -/
def numberOr (n : Option Nat) : Expr := .ofSize (n.getD 0)

/-- Where the program starts, relative to the start of the image. -/
def entryRva (c : Context) : Option Expr → Expr
  | none => .const 0
  | some e => if e.constant?.isSome then e else c.rva e

/-- The fields of the optional header in front of the image base. -/
def codeFields (c : Context) (h : OptionalHeader) : Record :=
  [(.u16, numberOr (h.magic.map (·.toNat))),
    (.u8, numberOr (h.linkerMajor.map (·.toNat))),
    (.u8, numberOr (h.linkerMinor.map (·.toNat))),
    (.u32, numberOr (h.codeSize.map (·.toNat))),
    (.u32, numberOr (h.dataSize.map (·.toNat))),
    (.u32, numberOr (h.uninitializedDataSize.map (·.toNat))),
    (.u32, entryRva c h.entryPoint),
    (.u32, h.baseOfCode.getD (.const 0))]
  ++ if c.encoder.pe64 then [] else [(.u32, h.baseOfData.getD (.const 0))]

/-- The image base: the given one, or the address of the start of the image. -/
def imageBaseExpr (c : Context) (h : OptionalHeader) : Expr :=
  match h.imageBase with
  | some base => .ofSize base.toNat
  | none => .label c.start

/-- The fields between the image base and the checksum. -/
def layoutFields (h : OptionalHeader) (pending : PendingHeader) : Record :=
  [(.u32, numberOr (h.sectionAlignment.map (·.toNat))),
    (.u32, numberOr (h.fileAlignment.map (·.toNat))),
    (.u16, numberOr (h.osMajor.map (·.toNat))),
    (.u16, numberOr (h.osMinor.map (·.toNat))),
    (.u16, numberOr (h.imageMajor.map (·.toNat))),
    (.u16, numberOr (h.imageMinor.map (·.toNat))),
    (.u16, numberOr (h.subsystemMajor.map (·.toNat))),
    (.u16, numberOr (h.subsystemMinor.map (·.toNat))),
    (.u32, numberOr (h.reserved.map (·.toNat))),
    (.u32, .label pending.imageSize),
    (.u32, .label pending.headersSize)]

/-- The checksum: the given one, or its label. -/
def checksumExpr (h : OptionalHeader) (pending : PendingHeader) : Expr :=
  match pending.checksum with
  | some label => .label label
  | none => numberOr (h.checksum.map (·.toNat))

/-- The fields behind the checksum. -/
def runtimeFields (c : Context) (h : OptionalHeader) : Record :=
  let address := c.encoder.addressType
  [(.u16, numberOr (h.subsystem.map (·.raw.toNat))),
    (.u16, numberOr (h.dllFlags.map (·.bits.toNat))),
    (address, numberOr (h.stackReserve.map (·.toNat))),
    (address, numberOr (h.stackCommit.map (·.toNat))),
    (address, numberOr (h.heapReserve.map (·.toNat))),
    (address, numberOr (h.heapCommit.map (·.toNat))),
    (.u32, numberOr (h.loaderFlags.map (·.toNat))),
    (.u32, numberOr (h.directoryCount.map (·.toNat)))]

/-- The fields of the optional header in order, without the data directories. -/
def optionalFields (c : Context) (h : OptionalHeader) (pending : PendingHeader) : Record :=
  codeFields c h ++ (c.encoder.addressType, imageBaseExpr c h)
    :: layoutFields h pending ++ (.u32, checksumExpr h pending) :: runtimeFields c h

/-- The data directories up to their number; one without a place is zero. -/
def directoryFields (image : Image) (count : Nat) : Record :=
  (DirectorySlot.all.take count).flatMap fun slot =>
    match image.directory? slot with
    | some place => [(.u32, place.address), (.u32, place.size)]
    | none => [(.u32, .const 0), (.u32, .const 0)]

/-- There are no more data directories than sixteen. -/
def checkDirectoryCount (count : Nat) : Except EncodeError Unit :=
  if DirectorySlot.all.length < count then
    .error (.encodingOverflow (.ofSize count) .directoryCount)
  else .ok ()

/-- An optional header, the image it belongs to, and the labels of its pending fields. -/
structure OptionalHeaderResult where
  header : Buffer
  image : Image
  pending : PendingHeader
  context : Context

/-- The optional header of an image with its data directories. -/
def encodeOptionalHeader (c : Context) (image : Image) :
    Except EncodeError OptionalHeaderResult := do
  let ⟨h, sections, c⟩ ← fillDefaults c image.optionalHeader image.sections
  let (pending, c) := pendingHeader c h
  let count := (h.directoryCount.getD 0).toNat
  checkDirectoryCount count
  let header ← c.encoder.record (optionalFields c h pending ++ directoryFields image count)
  return ⟨header, { image with optionalHeader := h, sections }, pending, c⟩

/-! ## What stands before it -/

/-- A DOS header that leads to what follows it, and the signature. -/
def encodeDosStub (f : FieldEncoder) : Except EncodeError Buffer := do
  let position ← f.encode .u32 (.ofSize dosHeaderSize)
  return (Buffer.ofBytes (padTo headerOffsetPosition dosSignature) ++ position).extend peSignature

/-- The file header, with every field filled in; `now` is its timestamp if it has none.  The number
of sections and the size of the optional header are always those of the image. -/
def encodeFileHeader (f : FieldEncoder) (h : FileHeader) (sections optionalSize : Nat)
    (now : UInt32) : Except EncodeError (Buffer × FileHeader) := do
  let sectionCount ← checkBelow UInt16.size sections .sectionCount
  let optionalHeaderSize ← checkBelow UInt16.size optionalSize .optionalHeaderSize
  let machine := h.machine.getD .unknown
  let timestamp := h.timestamp.getD now
  let symbolTable := h.symbolTable.getD 0
  let symbolCount := h.symbolCount.getD 0
  let flags := h.flags.getD .none
  let header ← f.record
    [(.u16, .ofSize machine.raw.toNat),
      (.u16, .ofSize sectionCount),
      (.u32, .ofSize timestamp.toNat),
      (.u32, .ofSize symbolTable.toNat),
      (.u32, .ofSize symbolCount.toNat),
      (.u16, .ofSize optionalHeaderSize),
      (.u16, .ofSize flags.bits.toNat)]
  return (header, ⟨some machine, some (UInt16.ofNat sectionCount), some timestamp,
    some symbolTable, some symbolCount, some (UInt16.ofNat optionalHeaderSize), some flags⟩)

end PortableImage
