import PortableImage.Directory.Tables
import PortableImage.Image.Directories
import PortableImage.Sorting
import PortableImage.Text.LowerCase
import PortableImage.Text.Units

/-!
# The resource directory

A resource tree is written level by level.  The entries of a level are in order: names first, by
their lower-case 16-bit units, then numbers.  An entry leads to another level or to a resource; the
levels below one follow it, so the place of a level is known only when it is reached.

* `ResourceDirectory.sorted` — the tree with every level in order.
* `encodeResources` — the tables of the levels, the names, the descriptions of the resources and
  their bytes.
-/

set_option autoImplicit false

namespace PortableImage

/-! ## The order of entries -/

/-- What a name is sorted by. -/
def nameKey (name : String) : List Nat := (Text.utf16 (Text.lowerCase name)).map (·.toNat)

/-- Whether an entry with the first identifier may stand before one with the second. -/
def ResourceId.le : ResourceId → ResourceId → Bool
  | name a, name b => compare (nameKey a) (nameKey b) != .gt
  | name _, number _ => true
  | number _, name _ => false
  | number a, number b => a ≤ b

/-- Entries in order. -/
def sortEntries (entries : List (ResourceId × ResourceContent)) :
    List (ResourceId × ResourceContent) :=
  sortBy (fun a b => a.1.le b.1) entries

mutual

/-- The tree with every level in order. -/
def ResourceContent.sorted : ResourceContent → ResourceContent
  | .directory info entries => .directory info (sortEntries (sortedEntries entries))
  | .data bytes codepage reserved => .data bytes codepage reserved

/-- The entries as they are, with everything below them in order. -/
def sortedEntries : List (ResourceId × ResourceContent) → List (ResourceId × ResourceContent)
  | [] => []
  | (id, content) :: rest => (id, content.sorted) :: sortedEntries rest

end

/-- The tree with every level in order. -/
def ResourceDirectory.sorted (d : ResourceDirectory) : ResourceDirectory :=
  ⟨d.info, sortEntries (sortedEntries d.entries)⟩

/-! ## The directory -/

/-- The bit that marks the place of a name or of another level. -/
def subdirectoryFlag : Expr := .const 0x80000000

/-- The tables of a resource directory, in order. -/
def resourceTables : List String := ["table", "names", "dataentries", "data"]

/-- Whether an entry has a name. -/
def isNamed (e : ResourceId × ResourceContent) : Bool :=
  match e.1 with
  | .name _ => true
  | .number _ => false

/-- The identifier of an entry; a name is put into its table. -/
def encodeId (id : ResourceId) (t : Tables) : Except EncodeError Tables := do
  let f := t.context.encoder
  match id with
  | .name name =>
    let (place, t) := t.offsetEnd "names" "table"
    let units := Text.utf16 name
    let text ← f.record
      ((.u16, .ofSize units.length) :: units.map fun u => (.u16, .ofSize u.toNat))
    let t := t.append "names" text
    return t.append "table" (← f.encode .u32 (place ||| subdirectoryFlag))
  | .number id => return t.append "table" (← f.encode .u32 (.ofSize id.toNat))

/-- What an entry leads to.  The place of another level is the value of a fresh label, which is the
result; a resource is put into its tables. -/
def encodeContent (content : ResourceContent) (t : Tables) :
    Except EncodeError (Option String × Tables) := do
  let f := t.context.encoder
  match content with
  | .directory _ _ =>
    let (label, context) := t.context.fresh "rsrc_curoff"
    let place ← f.encode .u32 (.label label ||| subdirectoryFlag)
    return (some label, { t with context }.append "table" place)
  | .data bytes codepage reserved =>
    let (place, t) := t.offsetEnd "dataentries" "table"
    let (address, t) := t.rvaEnd "data"
    let description ← f.record
      [(.u32, address),
        (.u32, .ofSize bytes.length),
        (.u32, .ofSize codepage.toNat),
        (.u32, .ofSize reserved.toNat)]
    let t := t.append "dataentries" description
    let t := t.extend "data" bytes
    return (none, t.append "table" (← f.encode .u32 place))

/-- The entries of one level; the result is the label of the place each leads to, if that is another
level. -/
def encodeLevelEntries : List (ResourceId × ResourceContent) → Tables →
    Except EncodeError (List (Option String) × Tables)
  | [], t => .ok ([], t)
  | (id, content) :: rest, t => do
    let t ← encodeId id t
    let (label, t) ← encodeContent content t
    let (labels, t) ← encodeLevelEntries rest t
    return (label :: labels, t)

/-- One level without what is below it: its fields, then its entries. -/
def encodeLevel (info : ResourceInfo) (entries : List (ResourceId × ResourceContent)) (t : Tables) :
    Except EncodeError (List (Option String) × Tables) := do
  let named := entries.countP isNamed
  let header ← t.context.encoder.record
    [(.u32, .ofSize info.characteristics.toNat),
      (.u32, .ofSize info.timestamp.toNat),
      (.u16, .ofSize info.major.toNat),
      (.u16, .ofSize info.minor.toNat),
      (.u16, .ofSize named),
      (.u16, .ofSize (entries.length - named))]
  encodeLevelEntries entries (t.append "table" header)

/-- Gives the label of a level its value: the next byte of the table is where the level starts. -/
def startLevel (label : String) (t : Tables) : Except EncodeError Tables := do
  let here ← Binding.empty.bind label (.ofSize (t.table "table").virtSize)
  let table ← (t.table "table").fixup here
  return t.modify "table" fun _ => table

mutual

/-- What is below an entry. -/
def encodeBelow (content : ResourceContent) (label : Option String) (t : Tables) :
    Except EncodeError Tables :=
  match content, label with
  | .directory info entries, some label => do
    let t ← startLevel label t
    let (labels, t) ← encodeLevel info entries t
    encodeAllBelow entries labels t
  | _, _ => .ok t

/-- What is below the entries of one level, one after the other. -/
def encodeAllBelow (entries : List (ResourceId × ResourceContent)) (labels : List (Option String))
    (t : Tables) : Except EncodeError Tables :=
  match entries, labels with
  | (_, content) :: rest, label :: labels => do
    let t ← encodeBelow content label t
    encodeAllBelow rest labels t
  | _, _ => .ok t

end

/-- The resource directory. -/
def encodeResources (context : Context) (root : ResourceDirectory) :
    Except EncodeError (Buffer × Context) := do
  let root := root.sorted
  let (labels, t) ← encodeLevel root.info root.entries (.new context resourceTables)
  let t ← encodeAllBelow root.entries labels t
  let t := t.modify "names" (·.align 4)
  return (t.concat, t.context)

end PortableImage
