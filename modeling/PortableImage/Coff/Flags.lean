import PortableImage.Text.Hex

/-!
# Flags of the headers

* `SectionFlags` — what a section contains and how its memory may be used; unknown bits are kept.
* `FileFlags`, `DllFlags` — the flags of the file header and of the optional header.
* `SectionFlags.ofWord` — the permissions that a word such as `rwx` or `rshared` names.
-/

set_option autoImplicit false

namespace PortableImage

/-- The flags of a section. -/
structure SectionFlags where
  bits : UInt32
  deriving DecidableEq, Inhabited

namespace SectionFlags

def containsCode : SectionFlags := ⟨0x00000020⟩
def containsData : SectionFlags := ⟨0x00000040⟩
def containsUninitializedData : SectionFlags := ⟨0x00000080⟩
def discardable : SectionFlags := ⟨0x02000000⟩
def notCached : SectionFlags := ⟨0x04000000⟩
def notPaged : SectionFlags := ⟨0x08000000⟩
def shared : SectionFlags := ⟨0x10000000⟩
def execute : SectionFlags := ⟨0x20000000⟩
def read : SectionFlags := ⟨0x40000000⟩
def write : SectionFlags := ⟨0x80000000⟩

/-- No flag. -/
def none : SectionFlags := ⟨0⟩

instance : OrOp SectionFlags := ⟨fun a b => ⟨a.bits ||| b.bits⟩⟩

instance : AndOp SectionFlags := ⟨fun a b => ⟨a.bits &&& b.bits⟩⟩

instance : SDiff SectionFlags := ⟨fun a b => ⟨a.bits &&& ~~~b.bits⟩⟩

/-- Whether all flags of `b` are among those of `a`. -/
def contains (a b : SectionFlags) : Bool := a &&& b == b

/-- The known flags by name, lowest bit first. -/
def names : List (String × SectionFlags) :=
  [("CONTAINS_CODE", containsCode), ("CONTAINS_DATA", containsData),
    ("CONTAINS_UDATA", containsUninitializedData), ("MEM_DISCARDABLE", discardable),
    ("MEM_NOT_CACHED", notCached), ("MEM_NOT_PAGED", notPaged), ("MEM_SHARED", shared),
    ("MEM_EXECUTE", execute), ("MEM_READ", read), ("MEM_WRITE", write)]

/-- The flags in log lines: their names, and the unknown bits in hexadecimal. -/
def text (a : SectionFlags) : String :=
  let known := names.filter fun e => a.contains e.2
  let rest := names.foldl (fun r e => r \ e.2) a
  let unknown := if rest = none then [] else [Text.hex rest.bits.toNat]
  let parts := known.map (·.1) ++ unknown
  "SectionFlags(" ++ (if parts.isEmpty then "0x0" else " | ".intercalate parts) ++ ")"

/-- The words of a permission word, in the order they have to stand in. -/
def permissionWords : List (String × SectionFlags) :=
  [("r", read), ("w", write), ("x", execute), ("shared", shared), ("discard", discardable)]

/-- `s` without `word` in front, if it stands there. -/
def dropWord : (word s : List Char) → Option (List Char)
  | [], s => some s
  | _ :: _, [] => Option.none
  | c :: word, d :: s => if c = d then dropWord word s else Option.none

/-- Reads words one behind the other, each at most once and in the order of the list, and collects
their flags; something left over is an error. -/
def readWords : List (String × SectionFlags) → List Char → Option SectionFlags
  | [], s => if s.isEmpty then some none else Option.none
  | (word, flag) :: words, s =>
    match dropWord word.toList s with
    | some rest => (readWords words rest).map fun flags => flag ||| flags
    | Option.none => readWords words s

/-- The permissions a word names: `r`, `w`, `x`, `shared`, `discard` one behind the other in this
order, whatever the case of the letters. -/
def ofWord (s : String) : Option SectionFlags :=
  readWords permissionWords (s.toList.map Char.toLower)

example : ofWord "rwshareddiscard" = some ⟨0xd2000000⟩ ∧ ofWord "xr" = Option.none := by
  decide +kernel

example : text (execute ||| read) = "SectionFlags(MEM_EXECUTE | MEM_READ)" := by decide +kernel

end SectionFlags

/-- The flags of the file header. -/
structure FileFlags where
  bits : UInt16
  deriving DecidableEq, Inhabited

namespace FileFlags

def relocsStripped : FileFlags := ⟨0x0001⟩
def executableImage : FileFlags := ⟨0x0002⟩
def lineNumbersStripped : FileFlags := ⟨0x0004⟩
def localSymbolsStripped : FileFlags := ⟨0x0008⟩
def machine32Bit : FileFlags := ⟨0x0100⟩
def debugStripped : FileFlags := ⟨0x0200⟩
def dll : FileFlags := ⟨0x2000⟩

/-- No flag. -/
def none : FileFlags := ⟨0⟩

instance : OrOp FileFlags := ⟨fun a b => ⟨a.bits ||| b.bits⟩⟩

end FileFlags

/-- The flags of the optional header. -/
structure DllFlags where
  bits : UInt16
  deriving DecidableEq, Inhabited

namespace DllFlags

/-- The image may be loaded at any base. -/
def dynamicBase : DllFlags := ⟨0x0040⟩

end DllFlags

end PortableImage
