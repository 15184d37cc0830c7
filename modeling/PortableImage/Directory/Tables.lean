import PortableImage.Context
import PortableImage.Image.Update

/-!
# Tables that grow together

A directory consists of tables that refer to each other by address while all of them still grow; in
the end they are put one behind the other.  A place in a table is known by the label of the table's
start and the size the table has when the place is named, so it does not matter what the tables
become.

* `Tables` — the tables, by name, in the order they will stand in, and the context.
* `Tables.rvaEnd`, `Tables.offsetEnd` — where the next byte of a table will be, relative to the
  start of the image or of another table.
* `Tables.concat` — the whole directory.
-/

set_option autoImplicit false

namespace PortableImage

/-- Named tables of one directory, and the context they are written in. -/
structure Tables where
  context : Context
  entries : List (String × Buffer)

namespace Tables

/-- Empty tables of the given names. -/
def new (context : Context) (names : List String) : Tables :=
  ⟨context, names.map fun name => (name, .empty)⟩

/-- A table. -/
def table (t : Tables) (name : String) : Buffer := (t.entries.lookup name).getD .empty

/-- Changes a table. -/
def modify (t : Tables) (name : String) (change : Buffer → Buffer) : Tables :=
  { t with
    entries := (updateFirst (fun (e : String × Buffer) => e.1 == name) (name, .empty)
      (fun e => ((e.1, change e.2), ())) t.entries).1 }

/-- A buffer behind a table. -/
def append (t : Tables) (name : String) (b : Buffer) : Tables := t.modify name (· ++ b)

/-- Bytes behind a table. -/
def extend (t : Tables) (name : String) (bytes : List UInt8) : Tables :=
  t.modify name (·.extend bytes)

/-- Text behind a table, with a zero byte at its end. -/
def text (t : Tables) (name : String) (s : List UInt8) : Tables := (t.extend name s).extend name [0]

/-- The label of the start of a table; a fresh one is named after the table. -/
def label (t : Tables) (name : String) : String × Tables :=
  let (label, context, b) := t.context.labelAt (t.table name) 0 name
  (label, { t with context }.modify name fun _ => b)

/-- Where the next byte of a table will be, relative to the start of the image. -/
def rvaEnd (t : Tables) (name : String) : Expr × Tables :=
  let (label, t) := t.label name
  (t.context.rva (.label label) + .ofSize (t.table name).virtSize, t)

/-- Where the next byte of a table will be, relative to the start of another table. -/
def offsetEnd (t : Tables) (name base : String) : Expr × Tables :=
  let (label, t) := t.label name
  let (baseLabel, t) := t.label base
  (.label label - .label baseLabel + .ofSize (t.table name).virtSize, t)

/-- The tables one behind the other. -/
def concat (t : Tables) : Buffer := t.entries.foldl (fun acc e => acc ++ e.2) .empty

end Tables

end PortableImage
