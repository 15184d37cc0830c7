import PortableImage.Checksum
import PortableImage.Encode.Placement

/-!
# Encoding an image

* `encodeImage` — the bytes of an image, with the image as it was completed on the way.  Directories
  are generated, headers put in front, sections placed; then every label has a value and all pending
  fields are written.  The checksum comes last, for it depends on everything else.
* `encode` — the bytes alone.
-/

set_option autoImplicit false

namespace PortableImage

/-- A finished image. -/
structure EncodedImage where
  /-- The image with its generated sections and all header fields. -/
  image : Image
  /-- The file. -/
  output : Buffer
  /-- The checksum, if it was computed. -/
  checksum : Option UInt32

/-- The bytes of the file. -/
def EncodedImage.bytes (e : EncodedImage) : List UInt8 := e.output.data

/-- Writes the pending fields of the sections. -/
def fixupSections (b : Binding) : List Section → Except EncodeError (List Section)
  | [] => .ok []
  | s :: rest => do
    let content ← s.content.fixup b
    let others ← fixupSections b rest
    return { s with content } :: others

/-- Whether the checksum is all that is missing. -/
def onlyChecksumPending (label : String) (output : Buffer) : Bool :=
  match output.fields.entries with
  | [(_, field)] => field.target == .label label
  | _ => false

/-- Computes the checksum and writes it, if it is all that is missing. -/
def writeChecksum (order : ByteOrder) (label : Option String) (output : Buffer) :
    Except EncodeError (Buffer × Option UInt32) :=
  match label with
  | none => .ok (output, none)
  | some label =>
    if onlyChecksumPending label output then do
      let value ← checksum output.data order
      let b ← Binding.empty.bind label (.ofSize value.toNat)
      return (← output.fixup b, some value)
    else .ok (output, none)

/-- The labels of pending fields, each once, without that of the checksum. -/
def unresolvedLabels (checksum : Option String) (output : Buffer) : List String :=
  let labels := output.fields.entries.flatMap fun e => e.2.target.labels
  (labels.filter fun name => some name != checksum).eraseDups

/-- An image whose every label has a value: its fields are written. -/
def finish (h : HeadedImage) (p : Placement) : Except EncodeError EncodedImage := do
  let output ← p.output.fill.fixup p.binding
  let sections ← fixupSections p.binding h.image.sections
  let (output, checksum) ← writeChecksum h.context.encoder.order h.pending.checksum output
  if output.fields.isEmpty then return ⟨{ h.image with sections }, output, checksum⟩
  else .error (.unresolvedSymbol (unresolvedLabels h.pending.checksum output))

/-- Places the sections and the fixed address tables behind the headers. -/
def place (h : HeadedImage) (tables : List (Nat × Buffer)) : Logged EncodeError Placement := do
  let n := LayoutNumbers.ofHeader h.image.optionalHeader
  let output := h.headers.align n.fileAlignment
  let headersSize := output.virtSize
  let binding ← (output.binding (.ofSize n.base) : Except EncodeError _)
  let binding ←
    (binding.bind h.pending.headersSize (.ofSize headersSize) : Except EncodeError _)
  let p ← placeSections n h.image.sections
    ⟨output, binding, .new n.base headersSize n.sectionAlignment, []⟩
  let binding ←
    (p.binding.bind h.pending.imageSize (.ofSize p.cursor.imageSize) : Except EncodeError _)
  let tables := sortBy (fun a b => a.1 ≤ b.1) tables
  (writeTables n.base tables { p with binding } : Except EncodeError _)

/-- Encodes an image.  `clock` is the time for timestamps that neither the image nor the options
give. -/
def encodeImage (image : Image) (options : EncodeOptions) (clock : UInt32) :
    Logged EncodeError EncodedImage := do
  let start := Assembly.start image (options.timestamp.getD clock)
  let a ← start.withDirectories options
  let headed ← (a.withHeaders options.target : Except EncodeError _)
  let p ← place headed a.tablesInPlace
  (finish headed p : Except EncodeError _)

/-- The bytes of an image. -/
def encode (image : Image) (options : EncodeOptions) (clock : UInt32) :
    Except EncodeError (List UInt8) :=
  return (← (encodeImage image options clock).result).output.contents

end PortableImage
