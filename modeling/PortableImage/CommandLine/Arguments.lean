import PortableImage.CommandLine.Option
import PortableImage.CommandLine.Value
import PortableImage.Text.Printable

/-!
# Reading the command line

A word is an option, the value of the option before it, or out of place.  An option that takes its
value from the next word is looked at when the next option is recognised, or at the end; what is out
of place is reported before that.

* `Arguments` — what the command line asks for.
* `Stop` — why there are no arguments: a request for help, or an error.
* `Arguments.read` — the arguments of a list of words.
-/

set_option autoImplicit false

namespace PortableImage.CommandLine

/-- What the command line asks for. -/
structure Arguments where
  output : Option String
  target : Target
  machine : Machine
  pe64 : Bool
  bigEndian : Bool
  imageBase : Option UInt64
  sections : List SectionValue
  exports : List ExportValue
  imports : List ImportValue
  entry : Option Position
  libraryName : Option String
  timestamp : Option UInt32
  /-- Whether base relocations are asked for, or refused. -/
  relocations : Option Bool
  pic : Bool
  /-- An image whose checksum is to be printed. -/
  checksum : Option String
  verbose : Bool
  quiet : Bool
  deriving DecidableEq

/-- What no option changes. -/
def Arguments.default : Arguments where
  output := none
  target := .exe
  machine := .i386
  pe64 := false
  bigEndian := false
  imageBase := none
  sections := []
  exports := []
  imports := []
  entry := none
  libraryName := none
  timestamp := none
  relocations := none
  pic := false
  checksum := none
  verbose := false
  quiet := false

/-! ## Errors -/

/-- What is wrong with a command line. -/
inductive ArgumentError
  /-- A word that is neither an option nor a value. -/
  | unknown (word : String)
  /-- A value for an option that has none. -/
  | unexpectedValue (value : String) (flag : Flag)
  | missingValue (setting : Setting)
  | invalidValue (value : String) (setting : Setting) (cause : ValueError)
  | repeated (option : OptionName)
  | conflict (first second : Flag)
  deriving DecidableEq

/-- The option as an error shows it. -/
def OptionName.shown (option : OptionName) : String := Text.emphasized option.text

/-- The error in words, styled for a terminal. -/
def ArgumentError.sentence : ArgumentError → String
  | unknown word => "unexpected argument '" ++ Text.emphasized word ++ "' found"
  | unexpectedValue value flag =>
    "unexpected value '" ++ Text.emphasized value ++ "' for '" ++ (OptionName.flag flag).shown
      ++ "' found; no more were expected"
  | missingValue setting =>
    "a value is required for '" ++ (OptionName.setting setting).shown ++ "' but none was supplied"
  | invalidValue value setting cause =>
    "invalid value '" ++ Text.emphasized value ++ "' for '" ++ (OptionName.setting setting).shown
      ++ "': " ++ cause.message
  | repeated option => "the argument '" ++ option.shown ++ "' cannot be used multiple times"
  | conflict first second =>
    "the argument '" ++ (OptionName.flag first).shown ++ "' cannot be used with '"
      ++ (OptionName.flag second).shown ++ "'"

/-- What is shown of the error: the sentence, and where to find help. -/
def ArgumentError.message (e : ArgumentError) : String :=
  Text.printable (Text.emphasized "error:" ++ " " ++ e.sentence ++ "\n\nFor more information, try '"
    ++ Text.emphasized "--help" ++ "'.\n")

/-- Why a command line gives no arguments. -/
inductive Stop
  | help
  | version
  | failed (error : ArgumentError)
  deriving DecidableEq

/-! ## One option -/

/-- A value that names a file, which is never empty. -/
def pathValue (setting : Setting) (value : String) : Except ArgumentError String :=
  if value.isEmpty then .error (.missingValue setting) else .ok value

namespace Arguments

/-- The arguments with a flag. -/
def raise (a : Arguments) : Flag → Arguments
  | .pe64 => { a with pe64 := true }
  | .bigEndian => { a with bigEndian := true }
  | .relocs => { a with relocations := some true }
  | .noRelocs => { a with relocations := some false }
  | .pic => { a with pic := true }
  | .verbose => { a with verbose := true }
  | .quiet => { a with quiet := true }
  | .help | .version => a

/-- The arguments with a setting. -/
def set (a : Arguments) (setting : Setting) (value : String) : Except ArgumentError Arguments :=
  let read {α : Type} (r : Except ValueError α) : Except ArgumentError α :=
    r.mapError (.invalidValue value setting)
  match setting with
  | .output => do return { a with output := some (← pathValue setting value) }
  | .target => do return { a with target := ← read (parseTarget value) }
  | .machine => do return { a with machine := ← read (parseMachine value) }
  | .imageBase => do
    let n ← read ((parseNumber value).mapError .number)
    return { a with imageBase := some (UInt64.ofNat n) }
  | .sections => do return { a with sections := a.sections ++ [← read (SectionValue.parse value)] }
  | .exports => do return { a with exports := a.exports ++ [← read (ExportValue.parse value)] }
  | .imports => do return { a with imports := a.imports ++ [← read (ImportValue.parse value)] }
  | .entry => do return { a with entry := some (← read (Position.parse value)) }
  | .libraryName => .ok { a with libraryName := some value }
  | .timestamp => do
    return { a with timestamp := some (← read ((parseWord value).mapError .number)) }
  | .checksum => do return { a with checksum := some (← pathValue setting value) }

end Arguments

/-! ## One word after the other -/

/-- The command line as far as it has been read. -/
structure Reading where
  arguments : Arguments
  /-- The options that count so far, in the order they were given. -/
  given : List OptionName
  /-- The last option, if it has not been looked at, and its value, if it has one yet. -/
  pending : Option (Setting × Option String)

namespace Reading

/-- Nothing has been read. -/
def start : Reading := ⟨.default, [], none⟩

/-- A word that is out of place. -/
def refuse {α : Type} (word : String) : Except Stop α := .error (.failed (.unknown word))

/-- Takes the value of a setting. -/
def take (r : Reading) (setting : Setting) (value : String) : Except Stop Reading :=
  if !setting.isList && r.given.contains (.setting setting) then
    .error (.failed (.repeated (.setting setting)))
  else do
    let arguments ← (r.arguments.set setting value).mapError .failed
    return { r with arguments, given := r.given ++ [.setting setting] }

/-- Looks at the option that is pending. -/
def settle (r : Reading) : Except Stop Reading :=
  match r.pending with
  | none => .ok r
  | some (setting, none) => .error (.failed (.missingValue setting))
  | some (setting, some value) => { r with pending := none }.take setting value

/-- A setting whose value is known at once. -/
def attach (r : Reading) (setting : Setting) (value : String) : Except Stop Reading := do
  (← r.settle).take setting value

/-- A setting that waits for its value. -/
def await (r : Reading) (setting : Setting) : Except Stop Reading := do
  return { ← r.settle with pending := some (setting, none) }

/-- A flag; it ends what it overrides. -/
def raise (r : Reading) (flag : Flag) : Except Stop Reading := do
  let r ← r.settle
  if flag = .help then throw .help
  if flag = .version then throw .version
  if r.given.contains (.flag flag) then throw (.failed (.repeated (.flag flag)))
  let given := r.given.filter fun o => some o != flag.overridden?.map .flag
  return { r with arguments := r.arguments.raise flag, given := given ++ [.flag flag] }

/-- A word behind two dashes: an option, or one with its value behind an equals sign. -/
def long (r : Reading) (body : List Char) : Except Stop Reading :=
  let (name, value) := cut '=' body
  let name := String.ofList name
  match OptionName.ofLong? name, value with
  | none, _ => refuse ("--" ++ name)
  | some (.flag flag), none => r.raise flag
  | some (.flag flag), some value =>
    .error (.failed (.unexpectedValue (String.ofList value) flag))
  | some (.setting setting), none => r.await setting
  | some (.setting setting), some value => r.attach setting (String.ofList value)

/-- Letters behind one dash: flags, and at the end perhaps a setting, with the rest of the word as
its value. -/
def short (r : Reading) : List Char → Except Stop Reading
  | [] => .ok r
  | letter :: rest =>
    match OptionName.ofShort? letter with
    | none => refuse (String.ofList ['-', letter])
    | some (.flag flag) => do short (← r.raise flag) rest
    | some (.setting setting) =>
      match rest with
      | [] => r.await setting
      | '=' :: value => r.attach setting (String.ofList value)
      | value => r.attach setting (String.ofList value)

/-- A word that is no option: a value, if one is missing. -/
def value (r : Reading) (word : String) : Except Stop Reading :=
  match r.pending with
  | some (setting, none) => .ok { r with pending := some (setting, some word) }
  | _ => refuse word

/-- One word; one dash alone is no option. -/
def word (r : Reading) (word : String) : Except Stop Reading :=
  match word.toList with
  | '-' :: '-' :: body => r.long body
  | '-' :: letter :: rest => r.short (letter :: rest)
  | _ => r.value word

/-- All words.  Behind two dashes alone there are no options any more, so every word there is out of
place. -/
def words (r : Reading) : List String → Except Stop Reading
  | [] => .ok r
  | w :: rest =>
    if w = "--" then
      match rest with
      | [] => .ok r
      | next :: _ => refuse next
    else do words (← r.word w) rest

/-- The first flag that excludes another one that is given. -/
def conflict? (r : Reading) : Option (Flag × Flag) :=
  r.given.findSome? fun
    | .flag first =>
      match first.excluded? with
      | some second => if r.given.contains (.flag second) then some (first, second) else none
      | none => none
    | .setting _ => none

end Reading

/-- The arguments of a command line. -/
def Arguments.read (words : List String) : Except Stop Arguments := do
  let r ← (← Reading.start.words words).settle
  match r.conflict? with
  | some (first, second) => throw (.failed (.conflict first second))
  | none => return r.arguments

end PortableImage.CommandLine
