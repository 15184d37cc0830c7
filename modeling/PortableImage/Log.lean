import PortableImage.Coff.Flags
import PortableImage.Error
import PortableImage.Expr.Text

/-!
# The log

While an image is encoded, decisions that the caller may want to know are noted.

* `Event` — what is noted, with its `level` and its `message`.
* `Logged` — a computation that notes events and may fail; what was noted before a failure is kept.
-/

set_option autoImplicit false

namespace PortableImage

/-- How important an event is. -/
inductive Level
  | warn
  | info
  | debug
  deriving DecidableEq

/-- The level in words. -/
def Level.name : Level → String
  | warn => "warn"
  | info => "info"
  | debug => "debug"

/-- Something worth noting. -/
inductive Event
  /-- A generated section became part of another one. -/
  | sectionMerged (name into : String) (offset : Nat)
  /-- A section got its address and its place in the file. -/
  | sectionPlaced (name : String) (rva virtSize fileOffset rawSize : Nat)
  /-- A pending field gets no base relocation. -/
  | notRelocated (name : String) (offset : Nat) (target : Expr)
  /-- A pending field refers to no external symbol. -/
  | referenceSkipped (target : Expr) (name : String)
  /-- A symbol of the catalogue is imported. -/
  | symbolImported (symbol library : String)
  /-- A symbol of the catalogue is imported from another library already. -/
  | importedElsewhere (symbol other library : String)
  /-- A symbol cannot be reached under the label it is referred to by. -/
  | conflictingReferences (symbol : String) (target thunk : Option String)
  /-- The content of a section was read. -/
  | sectionRead (name : String) (size : Nat) (path : String)
  /-- A section of the image that was written. -/
  | sectionWritten (name : String) (virtSize : Nat) (flags : SectionFlags)
  /-- The image was written. -/
  | imageWritten (path : String) (size sections : Nat)
  /-- The checksum of the image that was written. -/
  | checksumWritten (value : Nat)

namespace Event

/-- An optional label in log lines. -/
def optionText : Option String → String
  | some s => "Some(" ++ Text.quoted s ++ ")"
  | none => "None"

/-- `s` with blanks behind it up to the width. -/
def padRight (width : Nat) (s : String) : String :=
  s ++ String.ofList (List.replicate (width - s.length) ' ')

/-- How important the event is. -/
def level : Event → Level
  | importedElsewhere .. | conflictingReferences .. => .warn
  | imageWritten .. | checksumWritten .. => .info
  | _ => .debug

/-- The event in words. -/
def message : Event → String
  | sectionMerged name into offset =>
    "merging " ++ name ++ " into " ++ into ++ " at offset " ++ Text.hex offset
  | sectionPlaced name rva virtSize fileOffset rawSize =>
    "placed " ++ name ++ " at rva " ++ Text.hex rva ++ " (virtsize " ++ Text.hex virtSize
      ++ "), file offset " ++ Text.hex fileOffset ++ " (rawsize " ++ Text.hex rawSize ++ ")"
  | notRelocated name offset target =>
    "no base relocation for " ++ name ++ " at " ++ Text.hex offset ++ ": " ++ target.text
  | referenceSkipped target name => "autoimport: skipping " ++ target.text ++ " in " ++ name
  | symbolImported symbol library => "autoimport: " ++ symbol ++ " from " ++ library
  | importedElsewhere symbol other library =>
    "autoimport: " ++ symbol ++ " is already imported from " ++ other ++ ", not from " ++ library
  | conflictingReferences symbol target thunk =>
    "autoimport: conflicting references to " ++ symbol ++ " (target " ++ optionText target
      ++ ", thunk " ++ optionText thunk ++ ")"
  | sectionRead name size path => name ++ ": " ++ toString size ++ " bytes from " ++ path
  | sectionWritten name virtSize flags =>
    padRight 8 name ++ " virtsize=" ++ Text.hex virtSize ++ " flags=" ++ flags.text
  | imageWritten path size sections =>
    "wrote " ++ path ++ " (" ++ toString size ++ " bytes, " ++ toString sections ++ " sections)"
  | checksumWritten value => "checksum " ++ Text.hexPadded 8 value

/-- The event as a line of a log. -/
def line (e : Event) : String := e.level.name ++ ": " ++ e.message

end Event

/-- The result of a computation that may fail with an error of type `ε`, and what it noted. -/
structure Logged (ε α : Type) where
  log : List Event
  result : Except ε α

namespace Logged

variable {ε α β : Type}

/-- The second computation behind the first, if that does not fail. -/
def bind (x : Logged ε α) (f : α → Logged ε β) : Logged ε β :=
  match x.result with
  | .ok a => ⟨x.log ++ (f a).log, (f a).result⟩
  | .error e => ⟨x.log, .error e⟩

instance : Monad (Logged ε) where
  pure a := ⟨[], .ok a⟩
  bind := Logged.bind

instance : MonadLift (Except ε) (Logged ε) := ⟨fun r => ⟨[], r⟩⟩

/-- Notes events. -/
def note (events : List Event) : Logged ε Unit := ⟨events, .ok ()⟩

/-- Fails. -/
def fail (e : ε) : Logged ε α := ⟨[], .error e⟩

/-- The computation with its error put into another type. -/
def mapError {ε' : Type} (f : ε → ε') (x : Logged ε α) : Logged ε' α :=
  ⟨x.log, x.result.mapError f⟩

@[simp]
theorem result_pure (a : α) : (pure a : Logged ε α).result = .ok a := rfl

@[simp]
theorem log_pure (a : α) : (pure a : Logged ε α).log = [] := rfl

@[simp]
theorem result_bind (x : Logged ε α) (f : α → Logged ε β) :
    (x >>= f).result = x.result >>= fun a => (f a).result := by
  obtain ⟨log, result⟩ := x
  cases result <;> rfl

@[simp]
theorem result_note (events : List Event) : (note events : Logged ε Unit).result = .ok () := rfl

end Logged

end PortableImage
