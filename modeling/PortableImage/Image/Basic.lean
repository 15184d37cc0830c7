import PortableImage.Field.Type
import PortableImage.Image.Directories
import PortableImage.Image.Header
import PortableImage.Image.Section
import PortableImage.Image.Update

/-!
# Images

The description of an image that is to be encoded: its sections, its headers and what its
directories describe.  A front end builds one step by step.

* `Image` — the description.
* `Image.emit`, `Image.switchSection` — content for the current section; `.text` comes first where
  none has been chosen.
* `Image.addImport`, `Image.addExport` — a symbol more; imports are grouped by library.
-/

set_option autoImplicit false

namespace PortableImage

/-- An image that is to be encoded. -/
structure Image where
  order : ByteOrder
  /-- Whether addresses take 64 bits. -/
  pe64 : Bool
  /-- Whether call stubs must not depend on where the image is loaded. -/
  pic : Bool
  header : FileHeader
  optionalHeader : OptionalHeader
  sections : List Section
  exports : Option ExportDirectory
  imports : Option (List ImportDirectory)
  tls : Option TlsDirectory
  resources : Option ResourceDirectory
  relocations : Option (List RelocationTable)
  /-- The data directories that have a place. -/
  directories : List (DirectorySlot × DataDirectory)
  /-- The index of the current section. -/
  current : Option Nat

namespace Image

/-- An image without content. -/
def new (order : ByteOrder) (pe64 : Bool) : Image where
  order := order
  pe64 := pe64
  pic := false
  header := .empty
  optionalHeader := .empty
  sections := []
  exports := none
  imports := none
  tls := none
  resources := none
  relocations := none
  directories := []
  current := none

/-- A little-endian image with 32-bit addresses. -/
def empty : Image := new .little false

instance : Inhabited Image := ⟨empty⟩

/-- The first section of the name. -/
def section? (image : Image) (name : String) : Option Section :=
  image.sections.find? fun s => s.name == name

/-- Changes the first section of the name, if there is one. -/
def modifySection (image : Image) (name : String) (change : Section → Section) : Image :=
  { image with
    sections := image.sections.modify (image.sections.findIdx fun s => s.name == name) change }

/-- Makes the section of the name current; a new one has its standard permissions. -/
def switchSection (image : Image) (name : String) : Image :=
  let found := fun (s : Section) => s.name == name
  { image with
    sections := (updateFirst found (.new name (Section.standardFlags name) .empty)
      (fun s => (s, ())) image.sections).1
    current := some (image.sections.findIdx found) }

/-- Content behind that of the current section. -/
def emit (image : Image) (data : Buffer) : Image :=
  let image := if image.current.isSome then image else image.switchSection ".text"
  match image.current with
  | some i =>
    { image with
      sections := image.sections.modify i fun s => { s with content := s.content ++ data } }
  | none => image

/-- A symbol more from the library. -/
def addImport (image : Image) (library : String) (symbol : Import) : Image :=
  { image with
    imports := some (updateFirst (fun (d : ImportDirectory) => d.library == library) (.new library)
      (fun d => ({ d with imports := d.imports ++ [symbol] }, ())) (image.imports.getD [])).1 }

/-- A symbol more to offer. -/
def addExport (image : Image) (symbol : Export) : Image :=
  let directory := image.exports.getD .empty
  { image with exports := some { directory with exports := directory.exports ++ [symbol] } }

/-- Where a data directory is, if it has a place. -/
def directory? (image : Image) (slot : DirectorySlot) : Option DataDirectory :=
  image.directories.lookup slot

/-- Gives a data directory its place. -/
def setDirectory (image : Image) (slot : DirectorySlot) (place : DataDirectory) : Image :=
  { image with
    directories := (updateFirst (fun (e : DirectorySlot × DataDirectory) => e.1 == slot)
      (slot, place) (fun _ => ((slot, place), ())) image.directories).1 }

end Image

end PortableImage
