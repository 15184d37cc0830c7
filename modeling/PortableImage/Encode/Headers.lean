import PortableImage.Encode.Assembly
import PortableImage.Header

/-!
# The headers of the assembled image

Once all sections are there, the headers are put together: flags and the subsystem follow from the
kind of image, what a section contains from its permissions.

* `HeadedImage` — an image with its headers in front, their pending fields known by label.
* `Assembly.withHeaders` — the headers of an assembled image.
-/

set_option autoImplicit false

namespace PortableImage

/-- What the flags of the file header are, if they are not given. -/
def defaultFileFlags (target : Target) (pe64 hasRelocations : Bool) : FileFlags :=
  let kind : FileFlags :=
    match target with
    | .exe | .kmod => .executableImage
    | .dll => .executableImage ||| .dll
    | .obj => .none
  .lineNumbersStripped ||| .localSymbolsStripped ||| .debugStripped ||| kind
    ||| (if pe64 then .none else .machine32Bit)
    ||| (if hasRelocations then .none else .relocsStripped)

/-- What the subsystem is, if it is not given. -/
def defaultSubsystem : Target → Option Subsystem
  | .exe | .dll => some .windowsGui
  | .kmod => some .native
  | .obj => none

/-- The image with the header fields that follow from its kind. -/
def Image.withTargetDefaults (image : Image) (target : Target) : Image :=
  let hasRelocations := (image.directory? .baseRelocationTable).isSome
  let h := image.optionalHeader
  { image with
    header := { image.header with
      flags := some (image.header.flags.getD
        (defaultFileFlags target image.pe64 hasRelocations)) }
    optionalHeader := { h with
      subsystem := h.subsystem.or (defaultSubsystem target)
      dllFlags := h.dllFlags.or (if hasRelocations then some .dynamicBase else none) } }

/-- The section with the flags that say what it contains: code if it may be executed, uninitialized
data if it has no bytes, else data.  A section that may not be read is left as it is. -/
def Section.withContentFlags (s : Section) : Section :=
  if s.flags.contains .read then
    let kind : SectionFlags :=
      if s.flags.contains .execute then .containsCode
      else if s.content.rawSize = 0 then .containsUninitializedData
      else .containsData
    { s with flags := s.flags ||| kind }
  else s

/-- The rows of the section table in order, with the sections they describe. -/
structure SectionTable where
  rows : Buffer
  sections : List Section
  context : Context

/-- The section table. -/
def encodeSectionTable (c : Context) : List Section → Except EncodeError SectionTable
  | [] => .ok ⟨.empty, [], c⟩
  | s :: rest => do
    let row ← encodeSectionHeader c s.withContentFlags
    let others ← encodeSectionTable row.context rest
    return ⟨row.row ++ others.rows, row.entry :: others.sections, others.context⟩

/-- What stands before the file header: nothing in an object file. -/
def encodeStub (f : FieldEncoder) (target : Target) : Except EncodeError Buffer :=
  if target = .obj then .ok .empty else encodeDosStub f

/-- An image with its headers. -/
structure HeadedImage where
  image : Image
  context : Context
  headers : Buffer
  pending : PendingHeader

/-- The headers of an image. -/
def Assembly.withHeaders (a : Assembly) (target : Target) : Except EncodeError HeadedImage := do
  let image := a.image.withTargetDefaults target
  let table ← encodeSectionTable a.context image.sections
  let optional ← encodeOptionalHeader table.context { image with sections := table.sections }
  let f := optional.context.encoder
  let stub ← encodeStub f target
  let (fileHeader, header) ←
    encodeFileHeader f image.header optional.image.sections.length optional.header.virtSize a.now
  let start := Buffer.empty.addExport optional.context.start 0
  return {
    image := { optional.image with header }
    context := optional.context
    headers := start ++ stub ++ fileHeader ++ optional.header ++ table.rows
    pending := optional.pending }

end PortableImage
