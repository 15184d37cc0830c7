import PortableImage.Encode.Headers

/-!
# Placing the sections

Behind the headers the contents of the sections follow in order, each rounded up to the file
alignment; in memory each section gets its address.  All labels get their values on the way.

* `Placement` — the output so far, the values of labels, and where the sections are.
* `placeSections` — all sections in order.
* `writeTables` — the address tables that have a fixed address, over the sections that hold them.
-/

set_option autoImplicit false

namespace PortableImage

/-- Where a section is, in memory relative to the start of the image and in the file. -/
structure PlacedSection where
  rva : Nat
  virtSize : Nat
  rawAddress : Nat
  rawSize : Nat
  deriving DecidableEq

/-- The image as far as its sections have been placed. -/
structure Placement where
  output : Buffer
  binding : Binding
  cursor : AddressCursor
  placed : List PlacedSection

/-- What the layout depends on. -/
structure LayoutNumbers where
  base : Nat
  sectionAlignment : Nat
  fileAlignment : Nat

/-- The numbers of an optional header. -/
def LayoutNumbers.ofHeader (h : OptionalHeader) : LayoutNumbers where
  base := (h.imageBase.getD defaultImageBase).toNat
  sectionAlignment := (h.sectionAlignment.getD defaultSectionAlignment).toNat
  fileAlignment := (h.fileAlignment.getD defaultFileAlignment).toNat

/-- Gives an optional label a value. -/
def Binding.bindOption (b : Binding) (label : Option String) (value : Nat) :
    Except EncodeError Binding :=
  match label with
  | some name => b.bind name (.ofSize value)
  | none => .ok b

/-- Places one section behind the others.  The labels of its place and size in the file get their
values, also one that an earlier encoding has left.  The address of the section and the sizes are
numbers without a bound, as in `AddressCursor.place`. -/
def placeSection (n : LayoutNumbers) (s : Section) (p : Placement) :
    Logged EncodeError Placement := do
  let rawAddress := p.output.virtSize
  let binding ← (p.binding.bindOption (s.rawAddressLabel.map (·.name)) rawAddress :
    Except EncodeError _)
  let virtSize := (s.virtSize.getD 0).toNat
  let (address, cursor) := p.cursor.place s.name (s.address.map (·.toNat)) virtSize
  let address ← address
  let exported ← (s.content.binding (.ofSize address) : Except EncodeError _)
  let binding ← (binding.merge exported : Except EncodeError _)
  let output := (p.output ++ s.content.slice 0 s.content.rawSize).align n.fileAlignment
  let rawSize := output.virtSize - rawAddress
  let binding ← (binding.bindOption (s.rawSizeLabel.map (·.name)) rawSize : Except EncodeError _)
  let rva := address - n.base
  Logged.note [.sectionPlaced s.name rva virtSize rawAddress rawSize]
  return ⟨output, binding, cursor, p.placed ++ [⟨rva, virtSize, rawAddress, rawSize⟩]⟩

/-- Places the sections in order. -/
def placeSections (n : LayoutNumbers) :
    List Section → Placement → Logged EncodeError Placement
  | [], p => pure p
  | s :: rest, p => do
    let p ← placeSection n s p
    placeSections n rest p

/-- Writes an address table over the section that holds it.  It must lie in one section, both in
memory and in the file. -/
def writeTable (base : Nat) (p : Placement) (rva : Nat) (table : Buffer) :
    Except EncodeError Placement :=
  match p.placed.find? fun s => s.rva ≤ rva && rva < s.rva + s.virtSize with
  | none => .error (.layout (.tableOutsideSections rva))
  | some s =>
    let offset := s.rawAddress + (rva - s.rva)
    let size := table.virtSize
    if s.rva + s.virtSize < rva + size ∨ s.rawAddress + s.rawSize < offset + size then
      .error (.layout (.tableOverrun rva))
    else do
      let exported ← table.binding (.ofSize (base + rva))
      let binding ← p.binding.merge exported
      return { p with output := p.output.patch offset table, binding }

/-- Writes address tables in the order of their addresses.  The zero entry at the end of one table
may lie where a later one starts, so the order counts. -/
def writeTables (base : Nat) : List (Nat × Buffer) → Placement → Except EncodeError Placement
  | [], p => .ok p
  | (rva, table) :: rest, p => do
    let p ← writeTable base p rva table
    writeTables base rest p

end PortableImage
