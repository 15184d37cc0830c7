import PortableImage.Context
import PortableImage.Image.Directories
import PortableImage.Image.Section

/-!
# Call stubs

Code that calls an imported symbol directly calls a stub, which jumps to the address in the slot of
the symbol.

* `StubEncoder.forMachine` — stubs are known for one machine.
* `StubEncoder.encode` — one stub more in a buffer of stubs.  Where the code must not depend on its
  address, the stubs share a helper that finds out where it is.
-/

set_option autoImplicit false

namespace PortableImage

/-- The label of the helper that leaves its own address in a register. -/
def helperLabel : String := "intern_geteip"

/-- How stubs are written: `jmp [slot]`, or, independent of the address, a call of the helper and a
jump relative to it. -/
structure StubEncoder where
  pic : Bool
  deriving DecidableEq

namespace StubEncoder

/-- The stubs of a machine. -/
def forMachine (machine : Machine) (pic : Bool) : Except EncodeError StubEncoder :=
  match machine with
  | .i386 => .ok ⟨pic⟩
  | _ => .error (.unsupportedArchitecture machine)

/-- `jmp [slot]` without the address of the slot. -/
def jumpSlot : List UInt8 := [0xff, 0x25]

/-- `call` without the distance. -/
def call : List UInt8 := [0xe8]

/-- `jmp [eax + distance]` without the distance. -/
def jumpRelative : List UInt8 := [0xff, 0xa0]

/-- `call $+5; pop eax; sub eax, 5; ret`. -/
def helper : List UInt8 := [0xe8, 0, 0, 0, 0, 0x58, 0x2d, 5, 0, 0, 0, 0xc3]

/-- A distance of 32 bits. -/
def distance (target : Expr) : Buffer := .placeholder target .i32 .little

/-- A stub that holds the address of the slot. -/
def absoluteStub (plt : Buffer) (thunk target : String) : Buffer :=
  (plt.addExport thunk plt.virtSize).extend jumpSlot ++ .placeholder (.label target) .u32 .little

/-- A stub that holds the distances to the helper and from there to the slot. -/
def relativeStub (plt : Buffer) (thunk target : String) : Buffer :=
  let called := (plt.addExport thunk plt.virtSize).extend call
    ++ distance (.label helperLabel - (.label thunk + .const 5))
  called.extend jumpRelative ++ distance (.label target - .label helperLabel)

/-- The buffer of stubs and the labels in use, with the helper at the start of an empty buffer
unless some section has one. -/
def withHelper (pool : LabelPool) (plt : Buffer) (sections : List Section) : LabelPool × Buffer :=
  if plt.isEmpty && !sections.any fun s => (s.content.exportOffset helperLabel).isSome then
    ((pool.reserve helperLabel).2, (plt.addExport helperLabel 0).extend helper)
  else (pool, plt)

/-- A stub for the import, if it is to have one, behind those that are there. -/
def encode (e : StubEncoder) (pool : LabelPool) (plt : Buffer) (symbol : Import)
    (sections : List Section) : Except EncodeError (LabelPool × Buffer) :=
  match symbol.thunk, symbol.target with
  | none, _ => .ok (pool, plt)
  | some thunk, none => .error (.layout (.stubWithoutSlot thunk))
  | some thunk, some target =>
    if e.pic then
      let (pool, plt) := withHelper pool plt sections
      .ok (pool, relativeStub plt thunk target)
    else .ok (pool, absoluteStub plt thunk target)

end StubEncoder

end PortableImage
