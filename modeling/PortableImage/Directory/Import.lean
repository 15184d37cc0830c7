import PortableImage.Directory.Tables
import PortableImage.Image.Directories
import PortableImage.Text.Units

/-!
# The import directory

For every library there is a descriptor, a lookup table that says what is imported, and an address
table, which a loader overwrites with the addresses.  Both tables have the same entries and end with
a zero one.

* `encodeImports` — the descriptors with the lookup tables and the texts in one buffer, and one
  address table per library, each slot labelled by the import it belongs to.
-/

set_option autoImplicit false

namespace PortableImage

/-- The tables of an import directory, in order. -/
def importTables : List String := ["idata", "ilt", "nametable"]

/-- The value of the entry of an import: its ordinal with the flag, or the address of its hint and
name. -/
def importEntry (library : String) (i : Import) (t : Tables) : Except EncodeError (Expr × Tables) :=
  match i.ordinal, i.name with
  | some ordinal, _ =>
    let value := ordinal.toNat.toUInt64 ||| t.context.encoder.ordinalFlag
    .ok (.ofSize value.toNat, t)
  | none, some name => do
    let t := t.modify "nametable" (·.align 2)
    let (rva, t) := t.rvaEnd "nametable"
    let hint ← t.context.encoder.encode .u16 (.ofSize (i.hint.getD 0).toNat)
    let t := t.append "nametable" hint
    return (rva, t.text "nametable" (Text.utf8 name))
  | none, none => .error (.layout (.namelessImport library))

/-- The entries of a library, in its lookup table and in its address table, with the zero entry
behind them. -/
def encodeEntries (library : String) :
    List Import → (addresses : Buffer) → Tables → Except EncodeError (Buffer × Tables)
  | [], addresses, t => do
    let stop ← t.context.encoder.address (.const 0)
    return (addresses ++ stop, t.append "ilt" stop)
  | i :: rest, addresses, t => do
    let addresses :=
      match i.target with
      | some target => addresses.addExport target addresses.virtSize
      | none => addresses
    let (value, t) ← importEntry library i t
    let entry ← t.context.encoder.address value
    encodeEntries library rest (addresses ++ entry) (t.append "ilt" entry)

/-- The descriptor and the entries of a library; the result is its address table. -/
def encodeLibrary (dir : ImportDirectory) (t : Tables) : Except EncodeError (Buffer × Tables) := do
  let (start, context, addresses) := t.context.labelAt .empty 0 "iat"
  let t := { t with context }
  let (lookup, t) := t.rvaEnd "ilt"
  let (name, t) := t.rvaEnd "nametable"
  let descriptor ← t.context.encoder.record
    [(.u32, lookup),
      (.u32, .ofSize dir.timestamp.toNat),
      (.u32, .ofSize dir.forwarderChain.toNat),
      (.u32, name),
      (.u32, t.context.rva (.label start))]
  let t := t.append "idata" descriptor
  let t := t.text "nametable" (Text.utf8 dir.library)
  encodeEntries dir.library dir.imports addresses t

/-- The libraries in order; the result is one address table for each. -/
def encodeLibraries : List ImportDirectory → Tables → Except EncodeError (List Buffer × Tables)
  | [], t => .ok ([], t)
  | dir :: dirs, t => do
    let (addresses, t) ← encodeLibrary dir t
    let (others, t) ← encodeLibraries dirs t
    return (addresses :: others, t)

/-- The import directory of the libraries, and the address table of each. -/
def encodeImports (context : Context) (dirs : List ImportDirectory) :
    Except EncodeError (Buffer × List Buffer × Context) := do
  let (addresses, t) ← encodeLibraries dirs (.new context importTables)
  let stop ← context.encoder.record (List.replicate 5 (.u32, .const 0))
  let t := t.append "idata" stop
  return (t.concat, addresses, t.context)

end PortableImage
