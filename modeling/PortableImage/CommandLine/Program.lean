import PortableImage.CommandLine.Link

/-!
# The program

* `Stop.code`, `Stop.text` — what is shown when the command line asks for nothing to be done.
* `Arguments.shows` — which events are shown.
* `run` — a whole run with the files of a tree: the exit code, the texts and the files.
-/

set_option autoImplicit false

namespace PortableImage.CommandLine

/-- The first line of the help. -/
def helpLine : String := "Encode raw sections into a COFF/PE image"

/-- The name and the version of the program. -/
def versionLine : String := "coffenc 0.1.0"

namespace Stop

/-- What is shown. -/
def text : Stop → String
  | help => helpLine
  | version => versionLine
  | failed error => error.message

/-- The exit code; asking for help is no error. -/
def code : Stop → Nat
  | help | version => 0
  | failed _ => 2

end Stop

/-- Whether events of the level are shown. -/
def Arguments.shows (a : Arguments) (level : Level) : Bool :=
  if a.verbose then true else if a.quiet then false else level = .warn

/-- What a run leaves. -/
structure Outcome where
  code : Nat
  /-- The standard output. -/
  output : String
  /-- The error, if the run fails. -/
  error : Option String
  /-- The events that are shown. -/
  log : List Event
  folder : Folder

/-- A run with the words of a command line and the files of a tree. -/
def run (folder : Folder) (clock : UInt32) (words : List String) : Outcome :=
  match Arguments.read words with
  | .error stop =>
    let text := stop.text
    if stop.code = 0 then ⟨0, text ++ "\n", none, [], folder⟩
    else ⟨stop.code, "", some text, [], folder⟩
  | .ok a =>
    let linked := link folder clock a
    let log := linked.log.filter fun e => a.shows e.level
    match linked.result with
    | .ok done => ⟨0, done.output, none, log, done.folder⟩
    | .error e => ⟨1, "", some e.message, log, folder⟩

end PortableImage.CommandLine
