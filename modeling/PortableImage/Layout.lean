import PortableImage.Image.Section
import PortableImage.Log

/-!
# Layout

Where sections go.  A generated section that is small becomes part of a section that allows as much;
any other is a section of its own.  Addresses are given out in order, each rounded up to the section
alignment unless it is fixed.  They are numbers without a bound: a linker has 64 bits for them, and
runs in which a sum of addresses and sizes passes `2 ^ 64` are left out.  Rounding up stops at the
largest address, as it does there.

* `appendSection` — adds a generated section to a list of sections; `mergeIndex` finds the section
  it becomes part of.
* `AddressCursor.place` — the address of the next section.
-/

set_option autoImplicit false

namespace PortableImage

/-! ## Adding a generated section -/

/-- A section of at least this size is never merged. -/
def mergeThreshold : Nat := 0x1000

/-- The flags that two merged sections must agree on. -/
def stickyFlags : SectionFlags := SectionFlags.discardable ||| SectionFlags.shared

namespace Section

/-- Whether content with the given flags may become part of the section: it allows as much, agrees
on the sticky flags, and its sizes are not fixed. -/
def accepts (s : Section) (flags : SectionFlags) : Bool :=
  s.flags &&& stickyFlags == flags &&& stickyFlags && s.virtSize.isNone && s.rawSize.isNone
    && s.flags.contains (flags \ stickyFlags)

/-- Content behind that of the section, at a multiple of eight. -/
def merge (s : Section) (content : Buffer) : Section :=
  { s with content := s.content.align 8 ++ content }

end Section

/-- The first section that content with the given flags may become part of.  A section in front of
one with a fixed address must not grow. -/
def mergeIndex (flags : SectionFlags) : List Section → Option Nat
  | [] => none
  | s :: rest =>
    if s.accepts flags && rest.all (·.address.isNone) then some 0
    else (mergeIndex flags rest).map (· + 1)

/-- Where a generated section goes: into the section with this index, or to the end. -/
def mergeTarget (sections : List Section) (s : Section) : Option Nat :=
  if s.sizeInMemory < mergeThreshold then mergeIndex s.flags sections else none

/-- Adds a generated section: the sections after it, and the index of the one that holds it. -/
def appendSection (sections : List Section) (s : Section) : List Section × Nat :=
  match mergeTarget sections s with
  | some i => (sections.modify i (·.merge s.content), i)
  | none => (sections ++ [s], sections.length)

/-- What is noted when a generated section is added. -/
def appendLog (sections : List Section) (s : Section) : List Event :=
  match mergeTarget sections s with
  | some i =>
    match sections[i]? with
    | some target => [.sectionMerged s.name target.name (target.content.align 8).virtSize]
    | none => []
  | none => []

/-! ## Addresses -/

/-- The state of giving out addresses: the base of the image, the first address that is free, and
the alignment of sections. -/
structure AddressCursor where
  base : Nat
  next : Nat
  alignment : Nat
  deriving DecidableEq

namespace AddressCursor

/-- The state behind the headers.  Left out is a base so large that the sum passes `2 ^ 64`. -/
def new (base headersSize alignment : Nat) : AddressCursor := ⟨base, base + headersSize, alignment⟩

/-- The next free address, rounded up. -/
def aligned (c : AddressCursor) : Nat := alignAddress c.next c.alignment

/-- The address of a section of the given size.  A fixed address is kept, unless the sections before
reach beyond it.  Left out are fixed addresses and sizes with which a sum passes `2 ^ 64`. -/
def place (c : AddressCursor) (name : String) (fixed : Option Nat) (size : Nat) :
    Except EncodeError Nat × AddressCursor :=
  match fixed with
  | none => (.ok c.aligned, { c with next := c.aligned + size })
  | some rva =>
    if c.base + rva < c.aligned then
      (.error (.layout (.fixedTooLow name rva (c.aligned - c.base))), { c with next := c.aligned })
    else (.ok (c.base + rva), { c with next := c.base + rva + size })

/-- The size of the image in memory, rounded up.  It is that of a linker with 64 bits for addresses
unless a sum has passed `2 ^ 64` before. -/
def imageSize (c : AddressCursor) : Nat := c.aligned - c.base

end AddressCursor

end PortableImage
