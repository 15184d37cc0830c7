import PortableImage.Proofs.FileMemory
import PortableImage.Proofs.Rebase.Fields
import PortableImage.Proofs.Rebase.Placement

/-!
# Two encodings of an image at two bases

Where both ends of the image stay away from the end of the address space, the sections lie at the same
distances from the start of the image in both encodings.

* `EncodedImage.Moving` — the labels that stand for addresses in the image.
* `Encoding.alongside` — both files have the same rows.
* `Encoding.moved` — the labels of addresses lie further by the distance of the two bases, and all
  others have the same values.
-/

set_option autoImplicit false

namespace PortableImage

open Buffer

/-- The labels that stand for addresses in the image: those that are known when base relocations are
looked for, and those of the finished sections. -/
def EncodedImage.Moving (e : EncodedImage) (image : Image) (options : EncodeOptions)
    (clock : UInt32) (l : String) : Prop :=
  l ∈ relocationLabels image options clock ∨
    ∃ s ∈ e.image.sections, l ∈ s.content.exports.map (·.1)

theorem LinkValue.ofSize_add (m n : Nat) :
    LinkValue.ofSize (m + n) = LinkValue.ofSize m + LinkValue.ofSize n := BitVec.ofNat_add m n

/-- The distance of two addresses, modulo the size of the address space. -/
theorem LinkValue.toNat_distance {m n : Nat} (hm : m < 2 ^ 64) (hn : n < 2 ^ 64) :
    (m + UInt64.size - n) % 2 ^ 64 = (LinkValue.ofSize m - LinkValue.ofSize n).toNat % 2 ^ 64 := by
  rw [BitVec.toNat_sub, toNat_ofSize (by omega), toNat_ofSize (by omega), UInt64.size]
  omega

namespace Encoding

variable {image : Image} {options : EncodeOptions} {clock : UInt32} {a : Assembly}
  {h : HeadedImage} {q p : Placement} {e : EncodedImage} {size : Nat}
  (enc : Encoding image options clock a h q p e size)

include enc

/-- The labels of addresses are the start of the image and those of the sections. -/
theorem moving_iff (hwants : options.wantsRelocations = true) {l : String} :
    e.Moving image options clock l ↔
      l = a.context.start ∨ ∃ s ∈ h.image.sections, l ∈ s.content.exports.map (·.1) := by
  obtain ⟨a₀, b, tables, content, label, hat, hcontinues, hgrow, hrel⟩ :=
    enc.exists_relocates hwants
  have hstart : a.context.start = a₀.context.start := hgrow.context.2
  rw [EncodedImage.Moving, mem_relocationLabels hat, ← hstart]
  constructor
  · rintro ((rfl | ⟨s, hs, hl⟩) | ⟨s, hs, hl⟩)
    · exact .inl rfl
    · obtain ⟨i, hi⟩ := List.mem_iff_getElem?.1 hs
      obtain ⟨s₁, hs₁, hgrows⟩ := hgrow.sections i s hi
      obtain ⟨s', hs', hheaded⟩ := exists_right_of_forall₂ enc.lays.sections hs₁
      have hkept := hgrows.content.exports.trans (Section.content_headed hheaded).grows.exports
      exact .inr ⟨s', List.mem_of_getElem? hs', (hkept.map _).subset hl⟩
    · obtain ⟨i, hi⟩ := List.mem_iff_getElem?.1 hs
      obtain ⟨s', hs', hexports⟩ := enc.exports_finished hi
      exact .inr ⟨s', List.mem_of_getElem? hs', hexports ▸ hl⟩
  · rintro (rfl | ⟨s, hs, hl⟩)
    · exact .inl (.inl rfl)
    · obtain ⟨i, hi⟩ := List.mem_iff_getElem?.1 hs
      obtain ⟨s', hs', content, hfix, rfl⟩ := exists_right_of_forall₂ enc.finished.sections hi
      exact .inr ⟨_, List.mem_of_getElem? hs', (exports_fixup hfix).symm ▸ hl⟩

/-! ## The two encodings -/

section Other

variable {base : Option UInt64} {h' : HeadedImage} {q' p' : Placement} {e' : EncodedImage}
  {size' : Nat}
  (enc' : Encoding (image.withBase base) options clock (a.withBase base) h' q' p' e' size')

include enc'

/-- **Both placements have the same rows.** -/
theorem alongside (hwants : options.wantsRelocations = true) (htables : a.tablesInPlace = [])
    (hlen : e.bytes.length < UInt64.size) (hlen' : e'.bytes.length < UInt64.size)
    (hbase : (e.view image options).sectionAlignment ∣ (e.view image options).imageBase)
    (hbase' : (e.view image options).sectionAlignment ∣
      (e'.view (image.withBase base) options).imageBase)
    (hroom : (e.view image options).Room)
    (hroom' : (e'.view (image.withBase base) options).Room) :
    p.Alongside h.numbers h'.numbers.base (e.Moving image options clock) p' := by
  obtain ⟨himage, hpending, hsize⟩ :=
    Assembly.withHeaders_withBase base enc.headed enc'.headed
  have hsame : h'.headersSize = h.headersSize := by
    have hnumber : h'.numbers.fileAlignment = h.numbers.fileAlignment := by
      rw [HeadedImage.numbers, himage]
      rfl
    rw [HeadedImage.headersSize, HeadedImage.headersSize, hnumber, align, virtSize_growTo, hsize,
      align, virtSize_growTo]
  have hplaced := enc.placed
  have hplaced' := enc'.placed
  rw [htables] at hplaced
  rw [show (a.withBase base).tablesInPlace = [] from htables] at hplaced'
  rw [enc.view_imageBase, enc.view_sectionAlignment.1] at hbase
  rw [enc'.view_imageBase, enc.view_sectionAlignment.1] at hbase'
  obtain ⟨hheaders, hsections⟩ := enc.room hlen hroom
  obtain ⟨hheaders', hsections'⟩ := enc'.room hlen' hroom'
  have hmoving : ∀ x ∈ [(a.context.start, 0)], e.Moving image options clock x.1 := fun x hx =>
    (enc.moving_iff hwants).2 (.inl (congrArg Prod.fst (List.mem_singleton.1 hx)))
  exact alongside_place hplaced hplaced' himage hpending hsize enc.view_sectionAlignment.2
    hbase hbase' (enc.lays.exports ▸ hmoving) (enc'.lays.exports ▸ hmoving)
    (fun s hs x hx => (enc.moving_iff hwants).2 (.inr ⟨s, hs, List.mem_map_of_mem hx⟩))
    hheaders (hsame ▸ hheaders') hsections hsections'

/-- **The labels of addresses lie further by the distance of the bases, and the others have the same
values.** -/
theorem moved (hwants : options.wantsRelocations = true) (hlen : e.bytes.length < UInt64.size)
    (hlen' : e'.bytes.length < UInt64.size)
    (halong : p.Alongside h.numbers h'.numbers.base (e.Moving image options clock) p') :
    Moved (e.Moving image options clock)
      (LinkValue.ofSize h'.numbers.base - LinkValue.ofSize h.numbers.base) p.binding.env
      p'.binding.env where
  moves l hl := by
    obtain ⟨himage, -, -⟩ := Assembly.withHeaders_withBase base enc.headed enc'.headed
    rcases (enc.moving_iff hwants).1 hl with rfl | ⟨s, hs, hl⟩
    · rw [enc.env_start, show a.context.start = (a.withBase base).context.start from rfl,
        enc'.env_start, add_sub_cancel]
    · obtain ⟨i, hi⟩ := List.mem_iff_getElem?.1 hs
      obtain ⟨⟨l', k⟩, hk, rfl⟩ := List.mem_map.1 hl
      obtain ⟨r, address, hr, -, hat⟩ := enc.exists_placed_of_headed hi
      have hi' : h'.image.sections[i]? = some s := by
        rw [himage]
        exact hi
      obtain ⟨r', address', hr', -, hat'⟩ := enc'.exists_placed_of_headed hi'
      have hsame : r' = r := by
        rw [← enc'.places.tables.placed, halong.placed, enc.places.tables.placed, hr] at hr'
        exact (Option.some.inj hr').symm
      rw [Binding.env_of_get? (enc.places.tables.binding _ _ (hat.exports l' k hk)),
        Binding.env_of_get? (enc'.places.tables.binding _ _ (hat'.exports l' k hk)),
        (enc.view_row hi hat hlen).2, (enc'.view_row hi' hat' hlen').2, hsame]
      simp only [LinkValue.ofSize_add]
      ring
  stays l hl := by
    have hvalue := halong.binding l hl
    unfold Binding.env
    rw [hvalue]

end Other

end Encoding

end PortableImage
