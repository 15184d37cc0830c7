import PortableImage.AutoImport
import PortableImage.Coff.Machine

/-!
# How an image is encoded
-/

set_option autoImplicit false

namespace PortableImage

/-- What is not part of an image but of one encoding of it. -/
structure EncodeOptions where
  target : Target
  /-- Whether base relocations are generated, if this is not left to the target. -/
  relocations : Option Bool
  /-- Where external symbols are found, if they are to be imported. -/
  catalog : Option Catalog
  /-- The time for every timestamp that is not given, instead of the clock. -/
  timestamp : Option UInt32
  deriving DecidableEq

namespace EncodeOptions

/-- The options for a kind of image. -/
def new (target : Target) : EncodeOptions := ⟨target, none, none, none⟩

/-- Whether base relocations are generated; programs are loaded at their base and need none. -/
def wantsRelocations (o : EncodeOptions) : Bool := o.relocations.getD (o.target != .exe)

end EncodeOptions

end PortableImage
