/-!
# A tree of files

What reading and writing files gives, without a disk: names lead from directory to directory, `.`
stays, `..` goes back, and each kind of failure has its system error.

* `FileError` — why a file cannot be read or written.
* `Folder` — the files of a tree and the directory that paths start in.
* `Folder.read`, `Folder.write` — the bytes of a file, and a file with other bytes.
-/

set_option autoImplicit false

namespace PortableImage.CommandLine

/-- Why a file cannot be read or written. -/
inductive FileError
  /-- An error of the operating system, with its number. -/
  | system (text : String) (number : Nat)
  /-- A path with a character that no path can hold. -/
  | badPath
  deriving DecidableEq

namespace FileError

def notFound : FileError := system "No such file or directory" 2
def notDirectory : FileError := system "Not a directory" 20
def isDirectory : FileError := system "Is a directory" 21
def nameTooLong : FileError := system "File name too long" 36

/-- The error in words. -/
def message : FileError → String
  | system text number => text ++ " (os error " ++ toString number ++ ")"
  | badPath => "file name contained an unexpected NUL byte"

end FileError

/-- The names on the way from the top of a tree. -/
abbrev Route := List String

/-- A tree of files.  A directory is there if the way to a file, or to where paths start, leads
through it, or if every system has it. -/
structure Folder where
  files : List (Route × List UInt8)
  /-- The directory that paths start in. -/
  home : Route
  deriving DecidableEq

namespace Folder

/-- A directory with the files; each may lie deeper, behind slashes, and of two with one name the
later counts.  The directory is new, and its empty name is one that no path spells. -/
def ofFiles (files : List (String × List UInt8)) : Folder :=
  let home := ["tmp", ""]
  ⟨files.reverse.map fun f => (home ++ f.1.splitOn "/", f.2), home⟩

/-- The directories at the top of every system. -/
def systemDirectories : List String :=
  ["bin", "dev", "etc", "home", "lib", "mnt", "opt", "proc", "root", "run", "sbin", "srv", "sys",
    "tmp", "usr", "var"]

/-- The device that is always empty and keeps nothing of what is written to it. -/
def nullDevice : Route := ["dev", "null"]

/-- What lies at the end of a way. -/
inductive Entry
  | file (bytes : List UInt8)
  | directory
  | nothing
  deriving DecidableEq

/-- What lies at the end of a way from the top. -/
def entry (f : Folder) (route : Route) : Entry :=
  match f.files.lookup route with
  | some bytes => .file bytes
  | none =>
    if route = nullDevice then .file []
    else if route.isPrefixOf f.home || f.files.any fun e => route.isPrefixOf e.1 then .directory
    else if systemDirectories.any fun name => route = [name] then .directory
    else .nothing

/-- A step from what must be a directory. -/
def step (f : Folder) (route : Route) (name : String) : Except FileError Route :=
  match f.entry route with
  | .nothing => .error .notFound
  | .file _ => .error .notDirectory
  | .directory =>
    if name = "." then .ok route
    else if name = ".." then .ok route.dropLast
    else if 255 < name.utf8ByteSize then .error .nameTooLong
    else .ok (route ++ [name])

/-- A path from `route` on. -/
def walk (f : Folder) : Route → List String → Except FileError Route
  | route, [] => .ok route
  | route, name :: names => do f.walk (← f.step route name) names

/-- A path, as where it starts, its names, and whether a slash stands at its end. -/
structure Path where
  start : Route
  names : List String
  slash : Bool

/-- The parts of a path that the operating system takes. -/
def path (f : Folder) (text : String) : Except FileError Path :=
  if text.contains '\x00' then .error .badPath
  else if 4096 ≤ text.utf8ByteSize then .error .nameTooLong
  else if text.isEmpty then .error .notFound
  else
    let names := (text.splitOn "/").filter (!·.isEmpty)
    .ok ⟨if text.startsWith "/" then [] else f.home, names, text.endsWith "/"⟩

/-- The bytes of a file. -/
def read (f : Folder) (text : String) : Except FileError (List UInt8) := do
  let p ← f.path text
  let route ← f.walk p.start (if p.slash then p.names ++ ["."] else p.names)
  match f.entry route with
  | .nothing => .error .notFound
  | .directory => .error .isDirectory
  | .file bytes => .ok bytes

/-- The folder with other bytes in a file, which may be new.  A slash at the end asks for a
directory, so the name in front of it is not looked at. -/
def write (f : Folder) (text : String) (bytes : List UInt8) : Except FileError Folder := do
  let p ← f.path text
  match p.names.getLast? with
  | none => .error .isDirectory
  | some name =>
    let parent ← f.walk p.start (p.names.dropLast ++ ["."])
    if p.slash then .error .isDirectory
    else
      let route ← f.step parent name
      match f.entry route with
      | .directory => .error .isDirectory
      | _ =>
        if route = nullDevice then return f
        else return { f with files := (route, bytes) :: f.files.filter (·.1 != route) }

end Folder

end PortableImage.CommandLine
