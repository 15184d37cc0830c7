import PortableImage.Context
import PortableImage.Image.Directories

/-!
# The TLS directory

The record of the thread-local storage and the list of its callbacks, which a zero entry ends.  All
addresses in it are absolute.
-/

set_option autoImplicit false

namespace PortableImage

/-- The record of the thread-local storage, and the list of callbacks that it leads to. -/
def encodeTls (context : Context) (tls : TlsDirectory) :
    Except EncodeError (Buffer × Buffer × Context) := do
  let f := context.encoder
  let (label, context, start) := context.labelAt .empty 0 "callback_p"
  let callbacks ← f.record
    ((tls.callbacks.map fun callback => (f.addressType, callback)) ++ [(f.addressType, .const 0)])
  let first := tls.start.getD (.const 0)
  let record ← f.record
    [(f.addressType, first),
      (f.addressType, tls.stop.getD first),
      (f.addressType, tls.index.getD (.const 0)),
      (f.addressType, .label label),
      (.u32, .ofSize tls.zeroFill.toNat),
      (.u32, .ofSize tls.characteristics.toNat)]
  return (record, start ++ callbacks, context)

end PortableImage
