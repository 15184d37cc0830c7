import PortableImage.Directory.BaseReloc
import PortableImage.Directory.Export
import PortableImage.Directory.Import
import PortableImage.Directory.Resource
import PortableImage.Directory.Tls
import PortableImage.Encode.Options
import PortableImage.Image.Basic
import PortableImage.Layout
import PortableImage.Thunk

/-!
# Generating the directories

The directories that an image describes are encoded one after the other.  Each becomes content of a
section, generated or merged into one that is there, and gets its place in the table of data
directories.

* `Assembly` — the image while directories are added to it.
* `Assembly.addExports`, `addImports`, `addResources`, `addTls`, `addRelocations` — one step each.
* `Assembly.withDirectories` — all steps in order.
-/

set_option autoImplicit false

namespace PortableImage

/-- An image that directories are added to. -/
structure Assembly where
  image : Image
  context : Context
  /-- Address tables with a fixed address inside a section of the image. -/
  tablesInPlace : List (Nat × Buffer)
  /-- The time for timestamps that are not given. -/
  now : UInt32

namespace Assembly

/-! ## Starting -/

/-- The labels that the caller gives to slots and call stubs. -/
def importLabels (dirs : List ImportDirectory) : List String :=
  dirs.flatMap fun d => d.imports.flatMap fun i => i.target.toList ++ i.thunk.toList

/-- All labels of the caller are in use; the start of the image gets a fresh one. -/
def start (image : Image) (now : UInt32) : Assembly :=
  let labels := definedLabels image.sections ++ importLabels (image.imports.getD [])
  { image
    context := .new (LabelPool.empty.reserveAll labels) ⟨image.order, image.pe64⟩
    tablesInPlace := []
    now }

/-! ## Adding sections and directories -/

/-- Adds a generated section. -/
def addSection (a : Assembly) (s : Section) : Logged EncodeError Assembly := do
  Logged.note (appendLog a.image.sections s)
  return { a with image := { a.image with sections := (appendSection a.image.sections s).1 } }

/-- Makes the buffer a data directory: from its start, with its present size. -/
def setDirectory (a : Assembly) (slot : DirectorySlot) (b : Buffer) (hint : String) :
    Assembly × Buffer :=
  let (label, context, labelled) := a.context.labelAt b 0 hint
  let place : DataDirectory := ⟨context.rva (.label label), .ofSize b.virtSize⟩
  ({ a with context, image := a.image.setDirectory slot place }, labelled)

/-- Imports what the pending fields refer to, if there is a catalogue. -/
def addAutoImports (a : Assembly) (catalog : Option Catalog) : Logged EncodeError Assembly :=
  match catalog with
  | none => pure a
  | some catalog => do
    let r := autoImport a.context.pool a.image.sections a.image.imports catalog
    Logged.note r.log
    return { a with
      image := { a.image with imports := r.imports }
      context := { a.context with pool := r.pool } }

/-- The export directory. -/
def addExports (a : Assembly) : Logged EncodeError Assembly :=
  match a.image.exports with
  | none => pure a
  | some dir => do
    let (b, context) ← (encodeExports a.context dir a.now : Except EncodeError _)
    let (a, b) := { a with context }.setDirectory .exportTable b "export_table"
    a.addSection (.new ".edata" .read b)

/-! ## Imports -/

/-- What the slot of an import without a label is named after: the symbol, unless its call stub has
that name. -/
def slotHint (i : Import) : String :=
  let name := i.name.getD ("ord_" ++ toString (i.ordinal.getD 0).toNat)
  if i.thunk = some name then "iat_" ++ name else name

/-- The import with a label for its slot. -/
def labelSlot (i : Import) (c : Context) : Import × Context :=
  match i.target with
  | some _ => (i, c)
  | none =>
    let (label, c) := c.fresh (slotHint i)
    ({ i with target := some label }, c)

/-- The libraries with a label for every slot. -/
def labelSlots (dirs : List ImportDirectory) (c : Context) : List ImportDirectory × Context :=
  mapState (fun (d : ImportDirectory) c =>
    let (imports, c) := mapState labelSlot d.imports c
    ({ d with imports }, c)) dirs c

/-- The indices of the address tables in the order they have in memory.  If the first library has a
fixed address, they are in the order of the fixed addresses, the others behind them. -/
def tableOrder (dirs : List ImportDirectory) : List Nat :=
  let indices := List.range dirs.length
  let key (i : Nat) : Nat :=
    match dirs[i]? with
    | some d => (d.tableAddress.getD 0xffffffff).toNat
    | none => 0
  if (dirs.head?.bind (·.tableAddress)).isSome then sortBy (fun i j => key i ≤ key j) indices
  else indices

/-- Labels an offset of one of the buffers. -/
def labelIn (tables : List Buffer) (index : Nat) (offset : Buffer → Nat) (hint : String)
    (c : Context) : String × List Buffer × Context :=
  let b := (tables[index]?).getD .empty
  let (label, c, b) := c.labelAt b (offset b) hint
  (label, tables.set index b, c)

/-- The data directory of the address tables, from the first to the end of the last. -/
def setTableDirectory (a : Assembly) (order : List Nat) (tables : List Buffer) :
    Assembly × List Buffer :=
  match order.head?, order.getLast? with
  | some first, some last =>
    let (start, tables, c) := labelIn tables first (fun _ => 0) "iat" a.context
    let (stop, tables, c) := labelIn tables last (·.virtSize) "iat_end" c
    let place : DataDirectory := ⟨c.rva (.label start), .label stop - .label start⟩
    ({ a with context := c, image := a.image.setDirectory .importAddressTable place }, tables)
  | _, _ => (a, tables)

/-- The address tables and the call stubs as they are put together. -/
structure ImportParts where
  /-- Address tables with a fixed address inside a section. -/
  inPlace : List (Nat × Buffer)
  /-- The other address tables, if there are any. -/
  table : Option Buffer
  stubs : Buffer
  pool : LabelPool

/-- The address of a table that lies inside a section of the image. -/
def fixedPlace (sections : List Section) (dir : ImportDirectory) : Option Nat :=
  match dir.tableAddress with
  | none => none
  | some rva => if sections.any (·.covers rva.toNat) then some rva.toNat else none

/-- The call stubs of a library. -/
def addStubs (stubs : Option StubEncoder) (sections : List Section) :
    List Import → ImportParts → Except EncodeError ImportParts
  | [], parts => .ok parts
  | i :: rest, parts =>
    match stubs with
    | none => .ok parts
    | some e => do
      let (pool, plt) ← e.encode parts.pool parts.stubs i sections
      addStubs stubs sections rest { parts with pool, stubs := plt }

/-- The address tables and the call stubs of the libraries. -/
def collectParts (stubs : Option StubEncoder) (sections : List Section) :
    List (ImportDirectory × Buffer) → ImportParts → Except EncodeError ImportParts
  | [], parts => .ok parts
  | (dir, table) :: rest, parts => do
    let parts :=
      match fixedPlace sections dir with
      | some rva => { parts with inPlace := parts.inPlace ++ [(rva, table)] }
      | none => { parts with table := some (parts.table.getD .empty ++ table) }
    let parts ← addStubs stubs sections dir.imports parts
    collectParts stubs sections rest parts

/-- The stubs of the machine, if some import is to have one. -/
def stubEncoder (image : Image) (dirs : List ImportDirectory) :
    Except EncodeError (Option StubEncoder) :=
  if dirs.any fun d => d.imports.any (·.thunk.isSome) then
    some <$> StubEncoder.forMachine (image.header.machine.getD .unknown) image.pic
  else .ok none

/-- The address tables without a fixed place, in a section. -/
def addTable (a : Assembly) (table : Option Buffer) : Logged EncodeError Assembly :=
  match table with
  | some table => a.addSection (.new ".iat" (.read ||| .write) table)
  | none => pure a

/-- The call stubs in a section, if there are any. -/
def addCallStubs (a : Assembly) (stubs : Buffer) : Logged EncodeError Assembly :=
  if stubs.isEmpty then pure a else a.addSection (.new ".plt" (.read ||| .execute) stubs)

/-- The address tables and the call stubs of the libraries. -/
def addParts (a : Assembly) (dirs : List ImportDirectory) (tables : List Buffer) :
    Logged EncodeError Assembly := do
  let stubs ← (stubEncoder a.image dirs : Except EncodeError _)
  let parts ←
    (collectParts stubs a.image.sections (dirs.zip tables) ⟨[], none, .empty, a.context.pool⟩ :
      Except EncodeError _)
  let a :=
    { a with
      tablesInPlace := parts.inPlace
      context := { a.context with pool := parts.pool } }
  let a ← a.addTable parts.table
  let a ← a.addCallStubs parts.stubs
  return { a with image := { a.image with imports := some dirs } }

/-- The import directory, the address tables and the call stubs. -/
def addImports (a : Assembly) : Logged EncodeError Assembly :=
  match a.image.imports with
  | none | some [] => pure a
  | some dirs => do
    let (dirs, context) := labelSlots dirs a.context
    let (b, tables, context) ← (encodeImports context dirs : Except EncodeError _)
    let (a, b) := { a with context }.setDirectory .importTable b "idata"
    let a ← a.addSection (.new ".idata" (.read ||| .write ||| .discardable) b)
    let (a, tables) := a.setTableDirectory (tableOrder dirs) tables
    a.addParts dirs tables

/-! ## Resources, thread-local storage, base relocations -/

/-- The resource directory. -/
def addResources (a : Assembly) : Logged EncodeError Assembly :=
  match a.image.resources with
  | none => pure a
  | some root => do
    let (b, context) ← (encodeResources a.context root : Except EncodeError _)
    let (a, b) := { a with context }.setDirectory .resourceTable b "resource_table"
    a.addSection (.new ".rsrc" .read b)

/-- The TLS directory; its data directory covers the record, not the callbacks behind it. -/
def addTls (a : Assembly) : Logged EncodeError Assembly :=
  match a.image.tls with
  | none => pure a
  | some tls => do
    let (b, callbacks, context) ← (encodeTls a.context tls : Except EncodeError _)
    let (a, b) := { a with context }.setDirectory .tlsTable b "tls_table"
    a.addSection (.new ".tls" (.read ||| .write) (b ++ callbacks))

/-- Finds the base relocations of the pending fields. -/
def findRelocations (a : Assembly) (options : EncodeOptions) : Logged EncodeError Assembly :=
  if options.wantsRelocations then do
    let r ← relocationTables a.context a.image.sections
    return { a with
      image := { a.image with sections := r.sections, relocations := some r.tables }
      context := r.context }
  else pure a

/-- The lists of base relocations, one behind the other. -/
def encodeRelocations (f : FieldEncoder) : List RelocationTable → Except EncodeError Buffer
  | [] => .ok .empty
  | table :: rest => do
    let first ← encodeRelocationTable f table
    let others ← encodeRelocations f rest
    return first ++ others

/-- The base relocations; without any, there is one empty list. -/
def addRelocations (a : Assembly) : Logged EncodeError Assembly :=
  match a.image.relocations with
  | none => pure a
  | some tables => do
    let tables := if tables.isEmpty then [⟨.const 0, []⟩] else tables
    let b ← (encodeRelocations a.context.encoder tables : Except EncodeError _)
    let a := { a with image := { a.image with relocations := some tables } }
    let (a, b) := a.setDirectory .baseRelocationTable b "reloc_table"
    a.addSection (.new ".reloc" (.read ||| .discardable) b)

/-- The image with all its directories. -/
def withDirectories (a : Assembly) (options : EncodeOptions) : Logged EncodeError Assembly := do
  let a ← a.addAutoImports options.catalog
  let a ← a.addExports
  let a ← a.addImports
  let a ← a.addResources
  let a ← a.addTls
  let a ← a.findRelocations options
  a.addRelocations

end Assembly

end PortableImage
