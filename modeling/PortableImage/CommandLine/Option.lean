/-!
# The options of the command line

* `Flag` — an option without a value.
* `Setting` — an option with a value.
* `OptionName.ofLong?`, `OptionName.ofShort?` — the option that a word or a letter names.
-/

set_option autoImplicit false

namespace PortableImage.CommandLine

/-- An option without a value. -/
inductive Flag
  | pe64
  | bigEndian
  | relocs
  | noRelocs
  | pic
  | verbose
  | quiet
  | help
  | version
  deriving DecidableEq

namespace Flag

/-- The name behind two dashes. -/
def long : Flag → String
  | pe64 => "pe64"
  | bigEndian => "big-endian"
  | relocs => "relocs"
  | noRelocs => "no-relocs"
  | pic => "pic"
  | verbose => "verbose"
  | quiet => "quiet"
  | help => "help"
  | version => "version"

/-- The letter behind one dash. -/
def short? : Flag → Option Char
  | verbose => some 'v'
  | quiet => some 'q'
  | help => some 'h'
  | version => some 'V'
  | _ => none

/-- All flags. -/
def all : List Flag := [pe64, bigEndian, relocs, noRelocs, pic, verbose, quiet, help, version]

theorem mem_all (f : Flag) : f ∈ all := by cases f <;> decide

/-- The flag that no longer counts once this one is given. -/
def overridden? : Flag → Option Flag
  | relocs => some noRelocs
  | noRelocs => some relocs
  | _ => none

/-- The flag that cannot be given together with this one. -/
def excluded? : Flag → Option Flag
  | verbose => some quiet
  | quiet => some verbose
  | _ => none

end Flag

/-- An option with a value. -/
inductive Setting
  | output
  | target
  | machine
  | imageBase
  | sections
  | exports
  | imports
  | entry
  | libraryName
  | timestamp
  | checksum
  deriving DecidableEq

namespace Setting

/-- The name behind two dashes. -/
def long : Setting → String
  | output => "output"
  | target => "target"
  | machine => "machine"
  | imageBase => "image-base"
  | sections => "section"
  | exports => "export"
  | imports => "import"
  | entry => "entry"
  | libraryName => "libname"
  | timestamp => "timestamp"
  | checksum => "checksum"

/-- The letter behind one dash. -/
def short? : Setting → Option Char
  | output => some 'o'
  | _ => none

/-- The form of the value, in messages. -/
def valueName : Setting → String
  | output => "OUTPUT"
  | target => "TARGET"
  | machine => "MACHINE"
  | imageBase => "IMAGE_BASE"
  | sections => "NAME:PERMS:FILE[:BASE]"
  | exports => "NAME=SECTION[+OFFSET]"
  | imports => "LIB:SYMBOL"
  | entry => "SECTION[+OFFSET]"
  | libraryName => "LIBNAME"
  | timestamp => "TIMESTAMP"
  | checksum => "FILE"

/-- Whether the option may be given more than once, each value adding to the others. -/
def isList : Setting → Bool
  | sections | exports | imports => true
  | _ => false

/-- All settings. -/
def all : List Setting :=
  [output, target, machine, imageBase, sections, exports, imports, entry, libraryName, timestamp,
    checksum]

theorem mem_all (s : Setting) : s ∈ all := by cases s <;> decide

end Setting

/-- An option. -/
inductive OptionName
  | flag (flag : Flag)
  | setting (setting : Setting)
  deriving DecidableEq

namespace OptionName

/-- The name behind two dashes. -/
def long : OptionName → String
  | flag f => f.long
  | setting s => s.long

/-- The letter behind one dash. -/
def short? : OptionName → Option Char
  | flag f => f.short?
  | setting s => s.short?

/-- The option in messages. -/
def text : OptionName → String
  | flag f => "--" ++ f.long
  | setting s => "--" ++ s.long ++ " <" ++ s.valueName ++ ">"

/-- All options. -/
def all : List OptionName := Flag.all.map flag ++ Setting.all.map setting

/-- The option with the name. -/
def ofLong? (name : String) : Option OptionName := all.find? fun o => o.long == name

/-- The option with the letter. -/
def ofShort? (letter : Char) : Option OptionName := all.find? fun o => o.short? == some letter

theorem ofLong?_long (o : OptionName) : ofLong? o.long = some o := by
  rcases o with f | s
  · cases f <;> decide +kernel
  · cases s <;> decide +kernel

end OptionName

end PortableImage.CommandLine
