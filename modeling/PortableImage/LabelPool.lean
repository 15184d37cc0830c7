import PortableImage.Buffer

/-!
# Fresh labels

The linker labels places of its own: the start of the image, of a table, of a section.  Such a label
must differ from every label the caller uses.  The pool knows the labels in use; a new one is named
after a hint, with a number behind it where the hint is taken.  All hints share one counter.

* `LabelPool.reserve` — a label of the caller.
* `LabelPool.fresh` — a new label; the search ends, for a pool knows finitely many labels
  (`LabelPool.search` tries one more candidate than that).
* `LabelPool.labelAt` — the label of an offset of a buffer, a new one where there is none.
* `LinkerLabel` — a label with the proof that it was made after a hint.
-/

set_option autoImplicit false

namespace PortableImage

/-- The labels in use, and the last number put behind a hint. -/
structure LabelPool where
  known : List String
  counter : Nat
  deriving DecidableEq

namespace LabelPool

/-- No label is in use. -/
def empty : LabelPool := ⟨[], 0⟩

instance : Inhabited LabelPool := ⟨empty⟩

/-- Notes that a label is in use; the answer is whether this is new. -/
def reserve (p : LabelPool) (name : String) : Bool × LabelPool :=
  if name ∈ p.known then (false, p) else (true, { p with known := name :: p.known })

/-- Notes that labels are in use. -/
def reserveAll (p : LabelPool) (names : List String) : LabelPool :=
  names.foldl (fun q name => (q.reserve name).2) p

/-- Whether a character may stand in a label made by the pool. -/
def isLabelChar (c : Char) : Bool := c.isAlphanum || c == '_'

/-- The hint with an underscore for every character that is not an ASCII letter, digit or
underscore. -/
def sanitize (hint : String) : String :=
  String.ofList (hint.toList.map fun c => if isLabelChar c then c else '_')

/-- The hint with a number behind it. -/
def numbered (hint : String) (n : Nat) : String := hint ++ "_" ++ toString n

/-- The first number after `counter` with which the hint is not in use, among the next `tries`; the
number after those, if there is none. -/
def search (known : List String) (hint : String) : (tries counter : Nat) → Nat
  | 0, counter => counter + 1
  | tries + 1, counter =>
    if numbered hint (counter + 1) ∈ known then search known hint tries (counter + 1)
    else counter + 1

/-- A label that was not in use: the hint itself, or the hint with the next number that is free. -/
def fresh (p : LabelPool) (hint : String) : String × LabelPool :=
  let base := sanitize hint
  if base ∈ p.known then
    let n := search p.known base p.known.length p.counter
    (numbered base n, ⟨numbered base n :: p.known, n⟩)
  else (base, { p with known := base :: p.known })

/-- The label is the hint, as far as its characters may stand in a label, or that with a number
behind it. -/
def NamedAfter (hint name : String) : Prop :=
  name = sanitize hint ∨ ∃ n, name = numbered (sanitize hint) n

theorem namedAfter_fresh (p : LabelPool) (hint : String) : NamedAfter hint (p.fresh hint).1 := by
  rw [fresh]
  dsimp only
  split
  · exact .inr ⟨_, rfl⟩
  · exact .inl rfl

/-- The label of an offset of a buffer; where there is none, a fresh one is added. -/
def labelAt (p : LabelPool) (b : Buffer) (offset : Nat) (hint : String) :
    String × LabelPool × Buffer :=
  match b.exportAt offset with
  | some name => (name, p, b)
  | none =>
    let (name, p') := p.fresh hint
    (name, p', b.addExport name offset)

example : (empty.fresh "sect start").1 = "sect_start" := by decide +kernel

example : ((empty.reserve "iat").2.fresh "iat").1 = "iat_1" := by decide +kernel

end LabelPool

/-- A label that was made after a hint.  The caller of the linker cannot make one. -/
structure LinkerLabel (hint : String) where
  name : String
  named : LabelPool.NamedAfter hint name
  deriving DecidableEq

end PortableImage
