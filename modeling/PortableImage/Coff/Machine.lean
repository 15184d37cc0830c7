import PortableImage.Text.LowerCase

/-!
# Machines and kinds of image

* `Machine` — the processor an image is for: its number in the file header, its name, and the
  words that name it on a command line.
* `Target` — what kind of image is written: a program, a library, a driver or an object file.
-/

set_option autoImplicit false

namespace PortableImage

/-- The processor an image is for. -/
inductive Machine
  | unknown
  | i386
  | amd64
  | arm
  | arm64
  deriving DecidableEq, Inhabited

namespace Machine

/-- The number of the machine in the file header. -/
def raw : Machine → UInt16
  | unknown => 0x0000
  | i386 => 0x014c
  | amd64 => 0x8664
  | arm => 0x01c0
  | arm64 => 0xaa64

/-- The name of the machine in messages. -/
def name : Machine → String
  | unknown => "unknown"
  | i386 => "i386"
  | amd64 => "amd64"
  | arm => "arm"
  | arm64 => "arm64"

/-- The words that name a machine, in lower case. -/
def words : List (String × Machine) :=
  [("unknown", unknown), ("i386", i386), ("x86", i386), ("ia32", i386), ("amd64", amd64),
    ("x86_64", amd64), ("x64", amd64), ("arm", arm), ("arm64", arm64), ("aarch64", arm64)]

/-- The machine a word names, whatever the case of its ASCII letters. -/
def ofWord (s : String) : Option Machine := words.lookup (Text.asciiLower s)

end Machine

/-- The kind of image that is written. -/
inductive Target
  | exe
  | dll
  | kmod
  | obj
  deriving DecidableEq, Inhabited

namespace Target

/-- The words that name a kind of image, in lower case. -/
def words : List (String × Target) :=
  [("exe", exe), ("dll", dll), ("kmod", kmod), ("obj", obj)]

/-- The kind of image a word names, whatever the case of its ASCII letters. -/
def ofWord (s : String) : Option Target := words.lookup (Text.asciiLower s)

end Target

end PortableImage
