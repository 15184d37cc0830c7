import PortableImage.Coff.Format
import PortableImage.Expr.Basic

/-!
# What the directories of an image describe

* `ExportDirectory` — the symbols an image offers: addresses of its own, or forwarders to other
  libraries.
* `ImportDirectory` — the symbols it takes from one library.
* `TlsDirectory` — its thread-local storage.
* `ResourceDirectory` — a tree of named or numbered resources.
* `RelocationTable` — the base relocations of one page.
-/

set_option autoImplicit false

namespace PortableImage

/-- The symbol of another library that a forwarder leads to. -/
inductive ForwardedSymbol
  | name (name : String)
  | ordinal (ordinal : UInt32)
  deriving DecidableEq

/-- What an export stands for. -/
inductive ExportTarget
  | address (target : Expr)
  | forwarder (library : String) (symbol : ForwardedSymbol)
  deriving DecidableEq

/-- A symbol an image offers, by name, by number or both. -/
structure Export where
  name : Option String
  target : ExportTarget
  /-- Fixes the place of the export in the address table. -/
  ordinal : Option UInt32
  deriving DecidableEq

/-- The symbols an image offers. -/
structure ExportDirectory where
  reserved : UInt32
  timestamp : Option UInt32
  major : UInt16
  minor : UInt16
  libraryName : Option String
  /-- The ordinal of the first place of the address table. -/
  ordinalBase : Option UInt32
  exports : List Export
  deriving DecidableEq

/-- No symbol is offered. -/
def ExportDirectory.empty : ExportDirectory := ⟨0, none, 0, 0, none, none, []⟩

/-- A symbol taken from a library, by ordinal or by name. -/
structure Import where
  name : Option String
  ordinal : Option UInt16
  hint : Option UInt16
  /-- The label of a call stub, if there is to be one. -/
  thunk : Option String
  /-- The label of the slot that holds the address of the symbol. -/
  target : Option String
  deriving DecidableEq

namespace Import

/-- A symbol taken by name. -/
def byName (name : String) : Import := ⟨some name, none, none, none, none⟩

/-- A symbol taken by ordinal. -/
def byOrdinal (ordinal : UInt16) : Import := ⟨none, some ordinal, none, none, none⟩

end Import

/-- The symbols taken from one library. -/
structure ImportDirectory where
  library : String
  timestamp : UInt32
  forwarderChain : UInt32
  imports : List Import
  /-- A fixed address for the table of the imported addresses, relative to the image start. -/
  tableAddress : Option UInt32
  deriving DecidableEq

/-- No symbol is taken from the library yet. -/
def ImportDirectory.new (library : String) : ImportDirectory :=
  ⟨library, 0, 0xffffffff, [], none⟩

/-- Thread-local storage. -/
structure TlsDirectory where
  start : Option Expr
  stop : Option Expr
  index : Option Expr
  callbacks : List Expr
  zeroFill : UInt32
  characteristics : UInt32
  deriving DecidableEq

/-- What a resource is found by. -/
inductive ResourceId
  | name (name : String)
  | number (id : UInt32)
  deriving DecidableEq

/-- The fields of one level of a resource tree. -/
structure ResourceInfo where
  characteristics : UInt32
  timestamp : UInt32
  major : UInt16
  minor : UInt16
  deriving DecidableEq

/-- What stands behind an entry of a resource tree: another level, or a resource. -/
inductive ResourceContent
  | directory (info : ResourceInfo) (entries : List (ResourceId × ResourceContent))
  | data (bytes : List UInt8) (codepage reserved : UInt32)

/-- A resource tree. -/
structure ResourceDirectory where
  info : ResourceInfo
  entries : List (ResourceId × ResourceContent)

/-- A field that changes when the image is not loaded at its base. -/
structure BaseRelocation where
  kind : BaseRelocKind
  /-- The place of the field in its page; the low twelve bits count. -/
  offset : UInt16
  deriving DecidableEq

/-- The base relocations of one page. -/
structure RelocationTable where
  /-- The address of the page, relative to the start of the image. -/
  base : Expr
  relocs : List BaseRelocation
  deriving DecidableEq

/-- Where a data directory is, relative to the start of the image, and its size. -/
structure DataDirectory where
  address : Expr
  size : Expr
  deriving DecidableEq

end PortableImage
