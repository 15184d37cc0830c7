import PortableImage.Directory.Tables
import PortableImage.Image.Directories
import PortableImage.Sorting
import PortableImage.Text.Units

/-!
# The export directory

* `assignSlots` — every export gets a place in the address table.  One with an ordinal has its
  place fixed; the others fill the places that are free, in the order of their names.
* `encodeExports` — the directory: a header, the address table, the name table in the order of the
  names (a loader searches it by bisection) with the place of each name beside it, and the texts.
-/

set_option autoImplicit false

namespace PortableImage

/-- The name of an image that has none. -/
def defaultLibraryName : String := "metalib"

/-! ## Places in the address table -/

/-- A table of places; a place may be empty. -/
abbrev Slots := List (Option Export)

/-- Puts an export with an ordinal into its place; the table grows as far as needed. -/
def pinExport (base : Nat) (slots : Slots) (e : Export) (ordinal : Nat) :
    Except EncodeError Slots :=
  if ordinal < base then .error (.layout (.ordinalBelowBase ordinal base))
  else
    let slot := ordinal - base
    let slots := slots ++ List.replicate (slot + 1 - slots.length) none
    if (slots[slot]?.join).isSome then .error (.layout (.ordinalTwice ordinal))
    else .ok (slots.set slot (some e))

/-- Puts the exports that have an ordinal into their places. -/
def pinExports (base : Nat) : List Export → Slots → Except EncodeError Slots
  | [], slots => .ok slots
  | e :: rest, slots =>
    match e.ordinal with
    | none => pinExports base rest slots
    | some ordinal => do pinExports base rest (← pinExport base slots e ordinal.toNat)

/-- Puts exports into the empty places, in order, and behind the table when there are no more. -/
def fillSlots : Slots → List Export → Slots
  | slots, [] => slots
  | [], e :: rest => (e :: rest).map some
  | some pinned :: slots, e :: rest => some pinned :: fillSlots slots (e :: rest)
  | none :: slots, e :: rest => some e :: fillSlots slots rest

/-- Whether the name of `a` may stand before that of `b`; no name is an empty one. -/
def nameLe (a b : Export) : Bool := compare (a.name.getD "") (b.name.getD "") != .gt

/-- The place of every export in the address table. -/
def assignSlots (exports : List Export) (base : Nat) : Except EncodeError Slots := do
  let pinned ← pinExports base exports []
  return fillSlots pinned (sortBy nameLe (exports.filter (·.ordinal.isNone)))

/-! ## The directory -/

/-- The text of a forwarder: the library and, behind a dot, the symbol. -/
def forwarderText (library : String) : ForwardedSymbol → String
  | .name name => library ++ "." ++ name
  | .ordinal ordinal => library ++ ".#" ++ toString ordinal.toNat

/-- The entry of one place in the address table: zero if it is empty, the address of an export, or
the place of the text of a forwarder. -/
def encodeSlot (slot : Option Export) (t : Tables) : Except EncodeError (Buffer × Tables) := do
  let f := t.context.encoder
  match slot with
  | none => return (← f.encode .u32 (.const 0), t)
  | some e =>
    match e.target with
    | .address target => return (← f.encode .u32 (t.context.rva target), t)
    | .forwarder library symbol =>
      let (rva, t) := t.rvaEnd "nametable"
      let t := t.text "nametable" (Text.utf8 (forwarderText library symbol))
      return (← f.encode .u32 rva, t)

/-- The entries of the address table. -/
def encodeSlots : Slots → Tables → Except EncodeError (List Buffer × Tables)
  | [], t => .ok ([], t)
  | slot :: slots, t => do
    let (entry, t) ← encodeSlot slot t
    let (entries, t) ← encodeSlots slots t
    return (entry :: entries, t)

/-- The names with their places, from the place `slot` on. -/
def namedSlots : (slot : Nat) → Slots → List (String × Nat)
  | _, [] => []
  | slot, e :: rest =>
    match e.bind (·.name) with
    | some name => (name, slot) :: namedSlots (slot + 1) rest
    | none => namedSlots (slot + 1) rest

/-- Whether a name may stand before another one; equal names are in the order of their places. -/
def namedSlotLe (a b : String × Nat) : Bool :=
  (compare a.1 b.1).then (compare a.2 b.2) != .gt

/-- The names in order: their places, the addresses of their texts, and the texts. -/
def encodeNames : List (String × Nat) → Tables → Except EncodeError Tables
  | [], t => .ok t
  | (name, slot) :: rest, t => do
    let f := t.context.encoder
    let t := t.append "ord_table" (← f.encode .u16 (.ofSize slot))
    let (rva, t) := t.rvaEnd "nametable"
    let t := t.append "namptable" (← f.encode .u32 rva)
    encodeNames rest (t.text "nametable" (Text.utf8 name))

/-- The tables of an export directory, in order. -/
def exportTables : List String :=
  ["edata", "addrtable", "namptable", "ord_table", "libname", "nametable"]

/-- The export directory; `now` is its timestamp if it has none. -/
def encodeExports (context : Context) (dir : ExportDirectory) (now : UInt32) :
    Except EncodeError (Buffer × Context) := do
  let base := (dir.ordinalBase.getD 1).toNat
  let slots ← assignSlots dir.exports base
  let t := Tables.new context exportTables
  let (libraryName, t) := t.label "libname"
  let (addresses, t) := t.label "addrtable"
  let (names, t) := t.label "namptable"
  let (ordinals, t) := t.label "ord_table"
  let rva (label : String) : Expr := context.rva (.label label)
  let header ← context.encoder.record
    [(.u32, .ofSize dir.reserved.toNat),
      (.u32, .ofSize (dir.timestamp.getD now).toNat),
      (.u16, .ofSize dir.major.toNat),
      (.u16, .ofSize dir.minor.toNat),
      (.u32, rva libraryName),
      (.u32, .ofSize base),
      (.u32, .ofSize slots.length),
      (.u32, .ofSize (dir.exports.countP (·.name.isSome))),
      (.u32, rva addresses),
      (.u32, rva names),
      (.u32, rva ordinals)]
  let t := t.append "edata" header
  let t := t.text "libname" (Text.utf8 (dir.libraryName.getD defaultLibraryName))
  let (entries, t) ← encodeSlots slots t
  let t := t.append "addrtable" (.concat entries)
  let t ← encodeNames (sortBy namedSlotLe (namedSlots 0 slots)) t
  return (t.concat, t.context)

end PortableImage
