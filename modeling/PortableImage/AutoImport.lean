import PortableImage.Image.Directories
import PortableImage.Image.Section
import PortableImage.Image.Update
import PortableImage.LabelPool
import PortableImage.Log

/-!
# Automatic imports

A pending field may refer to a symbol that no section defines but that a catalogue finds in a
library.  Such a symbol is imported, under the label that the field uses.

* `classify` — how a field refers to an external symbol: by the label of its address slot, or by the
  distance to its call stub.
* `autoImport` — the imports that all pending fields of an image ask for.  Requests that contradict
  an import that is there are noted and left out.
-/

set_option autoImplicit false

namespace PortableImage

/-- How a field refers to an external symbol. -/
inductive Reference
  /-- By the address slot of the symbol, whose label is the symbol, or `iat_` and the symbol. -/
  | slot (symbol label : String)
  /-- By the distance to a call stub, whose label is the symbol. -/
  | stub (symbol : String)
  deriving DecidableEq

/-- The symbol referred to. -/
def Reference.symbol : Reference → String
  | slot symbol _ => symbol
  | stub symbol => symbol

/-- The symbol whose address slot has the label: the label without one leading `iat_`. -/
def slotSymbol (label : String) : String :=
  match label.toList with
  | 'i' :: 'a' :: 't' :: '_' :: rest => String.ofList rest
  | _ => label

/-- How the value of a field refers to an external symbol.  A label alone is a slot, the difference
of two labels, with or without a constant, a call stub; nothing else is a reference. -/
def classify (target : Expr) : Option Reference :=
  match target.reduce with
  | .label name => some (.slot (slotSymbol name) name)
  | .binary .sub (.label symbol) (.label _) => some (.stub symbol)
  | .binary .sub (.binary .add (.label symbol) (.const _)) (.label _) => some (.stub symbol)
  | _ => none

/-- Symbols with the libraries they are found in. -/
abbrev Catalog := List (String × String)

namespace Catalog

/-- Adds a symbol, or changes its library. -/
def insert (c : Catalog) (symbol library : String) : Catalog :=
  (updateFirst (fun (e : String × String) => e.1 == symbol) (symbol, library)
    (fun _ => ((symbol, library), ())) c).1

/-- The catalogue of the pairs, where the last one for a symbol counts. -/
def ofPairs (pairs : List (String × String)) : Catalog :=
  pairs.foldl (fun c e => insert c e.1 e.2) []

end Catalog

/-- Whether `name` names the library: up to the case of ASCII letters, with or without `.dll` behind
it. -/
def libraryMatches (name library : String) : Bool :=
  Text.asciiLower name == Text.asciiLower library
    || Text.asciiLower name == Text.asciiLower library ++ ".dll"

/-- The imports so far, the labels in use, and what was noted. -/
structure AutoImport where
  pool : LabelPool
  imports : Option (List ImportDirectory)
  log : List Event

namespace Import

/-- Whether the import cannot be reached the way the reference asks for: its slot or its stub has
another label, or the label is that of the other one. -/
def conflicts (i : Import) : Reference → Bool
  | .slot _ label => (i.target.any (· != label)) || i.thunk == some label
  | .stub symbol => (i.thunk.any (· != symbol)) || i.target == some symbol

/-- The hint for the label of the slot of an import that has none. -/
def slotHint : Reference → String
  | .slot _ label => label
  | .stub symbol => "iat_" ++ symbol

/-- The import with the labels that the reference asks for. -/
def connect (pool : LabelPool) (r : Reference) (i : Import) : Import × LabelPool × List Event :=
  if i.conflicts r then (i, pool, [.conflictingReferences r.symbol i.target i.thunk])
  else
    let (target, pool) :=
      match i.target with
      | some target => (target, pool)
      | none => pool.fresh (slotHint r)
    let thunk :=
      match i.thunk, r with
      | none, .stub symbol => some symbol
      | thunk, _ => thunk
    ({ i with target := some target, thunk := thunk }, pool, [])

end Import

namespace ImportDirectory

/-- Whether a symbol is taken from the library by this name. -/
def imports? (d : ImportDirectory) (symbol : String) : Bool :=
  d.imports.any fun i => i.name == some symbol

/-- The directory with an import that has the labels that the reference asks for. -/
def request (pool : LabelPool) (r : Reference) (library : String) (d : ImportDirectory) :
    ImportDirectory × LabelPool × List Event :=
  let added := if d.imports? r.symbol then [] else [.symbolImported r.symbol library]
  let (imports, pool, log) :=
    updateFirst (fun (i : Import) => i.name == some r.symbol) (.byName r.symbol)
      (Import.connect pool r) d.imports
  ({ d with imports }, pool, added ++ log)

end ImportDirectory

namespace AutoImport

/-- Asks for a symbol of a library. -/
def request (st : AutoImport) (r : Reference) (library : String) : AutoImport :=
  let dirs := st.imports.getD []
  match dirs.find? fun d => !libraryMatches d.library library && d.imports? r.symbol with
  | some other =>
    { st with
      imports := some dirs
      log := st.log ++ [.importedElsewhere r.symbol other.library library] }
  | none =>
    let (dirs, pool, log) :=
      updateFirst (fun (d : ImportDirectory) => libraryMatches d.library library) (.new library)
        (ImportDirectory.request st.pool r library) dirs
    { pool, imports := some dirs, log := st.log ++ log }

/-- Asks for what the pending field of the named section refers to, if the catalogue has it and no
section defines it. -/
def field (catalog : Catalog) (defined : List String) (name : String) (st : AutoImport)
    (target : Expr) : AutoImport :=
  match classify target with
  | none => { st with log := st.log ++ [.referenceSkipped target name] }
  | some r =>
    if r.symbol ∈ defined then st
    else
      match catalog.lookup r.symbol with
      | none => st
      | some library => st.request r library

end AutoImport

/-- The labels that the sections define. -/
def definedLabels (sections : List Section) : List String :=
  sections.flatMap fun s => s.content.exports.map (·.1)

/-- Imports what the pending fields of the sections refer to. -/
def autoImport (pool : LabelPool) (sections : List Section)
    (imports : Option (List ImportDirectory)) (catalog : Catalog) : AutoImport :=
  let defined := definedLabels sections
  sections.foldl
    (fun st s =>
      s.content.fields.entries.foldl (fun st e => st.field catalog defined s.name e.2.target) st)
    ⟨pool, imports, []⟩

end PortableImage
