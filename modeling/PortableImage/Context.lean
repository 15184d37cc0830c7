import PortableImage.Field.Encoder
import PortableImage.LabelPool

/-!
# The context of an encoding

What the encoders of headers and directories share: the labels in use, the way fields are written,
and the label of the start of the image, from which relative addresses count.
-/

set_option autoImplicit false

namespace PortableImage

/-- What all encoders of one image share. -/
structure Context where
  pool : LabelPool
  encoder : FieldEncoder
  /-- The label of the start of the image. -/
  start : String
  deriving DecidableEq

namespace Context

/-- A context over labels that are in use; the start of the image gets a fresh label. -/
def new (pool : LabelPool) (encoder : FieldEncoder) : Context :=
  let (start, pool) := pool.fresh "coff_start"
  ⟨pool, encoder, start⟩

/-- An address relative to the start of the image. -/
def rva (c : Context) (address : Expr) : Expr := address - .label c.start

/-- A fresh label. -/
def fresh (c : Context) (hint : String) : String × Context :=
  let (name, pool) := c.pool.fresh hint
  (name, { c with pool })

/-- A fresh label, with the hint it was made after. -/
def freshLabel (c : Context) (hint : String) : LinkerLabel hint × Context :=
  (⟨(c.fresh hint).1, c.pool.namedAfter_fresh hint⟩, (c.fresh hint).2)

/-- The label of an offset of a buffer; where there is none, a fresh one is added. -/
def labelAt (c : Context) (b : Buffer) (offset : Nat) (hint : String) :
    String × Context × Buffer :=
  let (name, pool, b) := c.pool.labelAt b offset hint
  (name, { c with pool }, b)

end Context

end PortableImage
