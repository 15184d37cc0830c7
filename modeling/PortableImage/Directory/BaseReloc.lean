import PortableImage.Context
import PortableImage.Image.Directories
import PortableImage.Image.Section
import PortableImage.Log

/-!
# Base relocations

A field that holds an absolute address in the image changes when the image is not loaded at its
base.  Such fields are listed per page of four kilobytes.

* `isImageAddress` — whether the value of a field is an address in the image: with all sections put
  one behind the other, it is the start of the image and a constant.
* `relocationTables` — the lists for the pending fields of all sections.
* `encodeRelocationTable` — the list of one page in the file.
-/

set_option autoImplicit false

namespace PortableImage

/-- The size of a page. -/
def pageSize : Nat := 0x1000

/-! ## Finding the fields -/

/-- The labels of the sections, when they lie one behind the other from `address` on. -/
def provisionalBinding (address : Expr) (b : Binding) : List Section → Except EncodeError Binding
  | [] => .ok b
  | s :: rest => do
    let b ← b.merge (← s.content.binding address)
    provisionalBinding (address + .ofSize s.content.virtSize).reduce b rest

/-- Whether the value is the start of the image and a constant, and does not depend on the start in
any other way. -/
def isImageAddress (start : Expr) (b : Binding) (target : Expr) : Bool :=
  (target.constantUnder b).isNone && ((target - start).constantUnder b).isSome

/-- Whether a pending field gets a base relocation: it has the width and the byte order of an
address and holds one. -/
def needsRelocation (c : Context) (b : Binding) (f : PendingField) : Bool :=
  f.order == c.encoder.order && f.type == c.encoder.addressType
    && isImageAddress (.label c.start) b f.target

/-- The offsets of the fields of a section that get a base relocation. -/
def relocatedOffsets (c : Context) (b : Binding) (s : Section) : List Nat :=
  (s.content.fields.entries.filter fun e => needsRelocation c b e.2).map (·.1)

/-- What is noted about the other fields of a section. -/
def skippedFields (c : Context) (b : Binding) (s : Section) : List Event :=
  (s.content.fields.entries.filter fun e => !needsRelocation c b e.2).map fun e =>
    .notRelocated s.name e.1 e.2.target

/-! ## Grouping by page -/

/-- Offsets grouped by the page they are in; neighbours in one page share a group. -/
def groupPages : List Nat → List (Nat × List Nat)
  | [] => []
  | offset :: rest =>
    let page := offset - offset % pageSize
    match groupPages rest with
    | [] => [(page, [offset])]
    | (p, offsets) :: pages =>
      if p = page then (p, offset :: offsets) :: pages
      else (page, [offset]) :: (p, offsets) :: pages

/-- The kind of base relocation that changes an address. -/
def addressRelocKind (f : FieldEncoder) : BaseRelocKind := if f.pe64 then .dir64 else .highLow

/-- The list for one page of a section that starts at the label. -/
def pageTable (c : Context) (sectionStart : String) (page : Nat × List Nat) : RelocationTable where
  base := .label sectionStart - .label c.start + .ofSize page.1
  relocs := page.2.map fun offset =>
    ⟨addressRelocKind c.encoder, UInt16.ofNat (offset % pageSize)⟩

/-- The lists of a section; a section that has some gets a label for its start. -/
def sectionTables (b : Binding) (s : Section) (c : Context) :
    (Section × List RelocationTable) × Context :=
  let pages := groupPages (relocatedOffsets c b s)
  if pages.isEmpty then ((s, []), c)
  else
    let (label, c, content) := c.labelAt s.content 0 "sect_start"
    (({ s with content }, pages.map (pageTable c label)), c)

/-- The sections, their lists of base relocations, and the context after that. -/
structure Relocated where
  sections : List Section
  tables : List RelocationTable
  context : Context

/-- The lists of all sections, under a binding of their labels. -/
def collectTables (b : Binding) : List Section → Context → Relocated
  | [], c => ⟨[], [], c⟩
  | s :: rest, c =>
    let ((s, tables), c) := sectionTables b s c
    let others := collectTables b rest c
    ⟨s :: others.sections, tables ++ others.tables, others.context⟩

/-- The base relocations of the pending fields of all sections. -/
def relocationTables (c : Context) (sections : List Section) : Logged EncodeError Relocated := do
  let b ← (provisionalBinding (.label c.start) .empty sections : Except EncodeError Binding)
  Logged.note (sections.flatMap (skippedFields c b))
  return collectTables b sections c

/-! ## The list of a page in the file -/

/-- The entries of a list, with an empty one behind them if their number is odd. -/
def padRelocs (relocs : List BaseRelocation) : List BaseRelocation :=
  if relocs.length % 2 = 0 then relocs else relocs ++ [⟨.absolute, 0⟩]

/-- An entry: the kind in the top four bits, then the offset in the page. -/
def BaseRelocation.word (r : BaseRelocation) : UInt16 :=
  (r.kind.raw <<< 12) ||| (r.offset &&& 0xfff)

/-- The list of one page: its address, its size, its entries. -/
def encodeRelocationTable (f : FieldEncoder) (table : RelocationTable) :
    Except EncodeError Buffer :=
  let relocs := padRelocs table.relocs
  f.record
    ([(.u32, table.base), (.u32, .ofSize (8 + 2 * relocs.length))]
      ++ relocs.map fun r => (.u16, .ofSize r.word.toNat))

end PortableImage
