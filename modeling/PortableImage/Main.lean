import PortableImage.CommandLine.Program
import Std.Time.DateTime.Timestamp

/-!
# The command

Reads the files that the command line names, and prints or writes what follows from them.
-/

set_option autoImplicit false

namespace PortableImage.CommandLine

/-- The system error behind a failure. -/
def fileError : IO.Error → FileError
  | .noFileOrDirectory _ number text | .inappropriateType _ number text
  | .invalidArgument _ number text | .permissionDenied _ number text
  | .resourceExhausted _ number text | .resourceBusy number text | .otherError number text =>
    .system text number.toNat
  | other => .system (toString other) 0

/-- The result of an action, or its failure. -/
def attempt {α : Type} (action : IO α) : IO (Except FileError α) :=
  try return .ok (← action) catch e => return .error (fileError e)

/-- The bytes of a file. -/
def readFile (path : String) : IO (Except FileError (List UInt8)) :=
  attempt do return (← (← IO.FS.Handle.mk path .read).readBinToEnd).data.toList

/-- Reads the files, each under its path. -/
def readFiles (paths : List String) : IO Reader := do
  let files ← paths.mapM fun path => return (path, ← readFile path)
  return fun path => (files.lookup path).getD (.error .notFound)

/-- Shows the events that the arguments ask for. -/
def showLog (a : Arguments) (log : List Event) : IO Unit :=
  (log.filter fun e => a.shows e.level).forM fun e => IO.eprintln e.line

/-- Reports an error. -/
def failWith (e : LinkError) : IO UInt32 := do
  IO.eprintln e.message
  return 1

/-- Prints or writes. -/
def perform (a : Arguments) : Action → IO UInt32
  | .print text => do
    IO.print text
    return 0
  | .write path bytes report => do
    match ← attempt (IO.FS.writeBinFile path ⟨bytes.toArray⟩) with
    | .error e => failWith (.cannotWrite path e)
    | .ok _ =>
      showLog a report
      return 0

/-- The time in seconds, as timestamps hold it. -/
def clock : IO UInt32 := do
  return UInt32.ofNat (← Std.Time.Timestamp.now).toSecondsSinceUnixEpoch.val.toNat

end PortableImage.CommandLine

open PortableImage.CommandLine in
/-- Runs the program. -/
def main (words : List String) : IO UInt32 := do
  match Arguments.read words with
  | .error stop =>
    if stop.code = 0 then IO.println stop.text else IO.eprintln stop.text
    return UInt32.ofNat stop.code
  | .ok a =>
    let planned := plan (← readFiles a.inputs) (← clock) a
    showLog a planned.log
    match planned.result with
    | .ok action => perform a action
    | .error e => failWith e
