import PortableImage.Proofs.Directory.View
import PortableImage.Proofs.Encode.Directories
import PortableImage.Proofs.FileView

/-!
# Where labels are

Every label of a section is bound to the address that follows from the row of the section in the
headers.  A generated directory carries labels of its own into the section it becomes part of, so it is
placed there as a whole.

* `Encoding.get?_label` — the label of a section of the caller.
* `Encoding.placedAt_of_exports` — a buffer is placed where its labels say.
* `Encoding.placedAt_generated` — a generated directory is placed at its offset in its section.
-/

set_option autoImplicit false

namespace PortableImage

open Buffer

namespace Encoding

variable {image : Image} {options : EncodeOptions} {clock : UInt32} {a : Assembly}
  {h : HeadedImage} {q p : Placement} {e : EncodedImage} {size : Nat}
  (enc : Encoding image options clock a h q p e size)

include enc

/-- **A label that the caller gave to a place in a section stands for the address of the place.** -/
theorem get?_label (hlen : e.bytes.length < UInt64.size) {i o : Nat} {s : Section} {l : String}
    (hs : image.sections[i]? = some s) (hl : (l, o) ∈ s.content.exports) :
    p.binding.get? l =
      some (.ofSize (h.numbers.base + (((e.view image options).row i).rva + o))) := by
  obtain ⟨s', r, address, hs', -, -, hat, hgrows⟩ := enc.exists_placed hs
  obtain ⟨hrow, haddress⟩ := enc.view_row hs' hat hlen
  rw [enc.places.tables.binding _ _ (hat.exports l o (hgrows.exports.subset hl)), haddress, hrow,
    Nat.add_assoc]
  rfl

/-- A buffer is placed where its labels say. -/
theorem placedAt_of_exports {b : Buffer} {rva : Nat}
    (hexports : ∀ l k, (l, k) ∈ b.exports →
      p.binding.get? l = some (.ofSize (h.numbers.base + rva + k)))
    (hinside : rva + b.virtSize < 2 ^ 128) : b.PlacedAt p.binding a.context.start rva where
  constant := enc.places.tables.sound.constant
  based := by
    rw [enc.places.tables.binding _ _ (enc.places.start a.context.start enc.lays.exports)]
    rfl
  labels x hx := by
    rw [hexports x.1 x.2 hx, enc.env_start, Nat.add_assoc]
    exact congrArg (fun v => some (Expr.const v)) (BitVec.ofNat_add _ _)
  inside := hinside

/-- **A generated directory is placed at its offset in its section.** -/
theorem placedAt_generated (hlen : e.bytes.length < UInt64.size)
    (hinside : ∀ s ∈ image.sections, s.content.FieldsInside) {slots : List DirectorySlot}
    {l : List GeneratedDirectory}
    (hd : (Assembly.start image (options.timestamp.getD clock)).Directories a slots l)
    {x : GeneratedDirectory} (hx : x ∈ l) {b : Buffer} (hb : b.Labelled x.content)
    {r : PlacedSection} (hr : q.placed[x.index]? = some r) :
    b.PlacedAt p.binding a.context.start (r.rva + x.offset) := by
  have hstands := hd.stands x hx
  obtain ⟨s, -, hs, -⟩ := hstands
  obtain ⟨s', r', address, hs', hr', -, hat, hlabelled⟩ :=
    enc.exists_placed_of_assembled hs
  rw [hr, Option.some.injEq] at hr'
  subst hr'
  obtain ⟨-, haddress⟩ := enc.view_row hs' hat hlen
  refine enc.placedAt_of_exports (fun name k hk => ?_) ?_
  · obtain ⟨t, ht, hmem⟩ := (hd.stands x hx).exports (hb.grows.exports.subset hk)
    rw [hs, Option.some.injEq] at ht
    subst ht
    rw [enc.places.tables.binding _ _ (hat.exports name _ (hlabelled.grows.exports.subset hmem)),
      haddress]
    congr 2
    omega
  · have hsize := enc.lays.sizes s (List.mem_of_getElem? hs) (hd.hosts hinside x hx s hs).virtSize
    have hfits := (hd.stands x hx).le hs
    have hbase := h.base_lt
    have hsmall := hat.small
    rw [hb.virtSize_eq] at hfits
    rw [maxAddress, UInt64.size, UInt32.size] at hsmall
    rw [UInt32.size] at hsize
    omega

end Encoding

end PortableImage
