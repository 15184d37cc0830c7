import PortableImage.Proofs.Encode.OnePass
import PortableImage.Proofs.FileMemory

/-!
# Where sections and the image end in memory

Addresses are given out as absolute ones, and it is these that are rounded up to the section
alignment.  What the headers hold is relative to the image base.  So the addresses in the headers, and
the size of the image, are multiples of the section alignment exactly where the image base is one.

* `FileView.imageSize` — the size of the image in memory, as the headers have it.
* `FileView.Mapped` — the sections lie in memory behind the headers, in order, and in the image.
* `encodeImage_sectionAlignment` — what is aligned in every file, and where the sections are.
-/

set_option autoImplicit false

namespace PortableImage

open Buffer

namespace FileView

/-- Where the optional header holds the size of the image in memory. -/
def imageSizePosition : Nat := layoutPosition + 24

/-- The size of the image in memory. -/
def imageSize (v : FileView) : Nat := v.number 4 (v.optionalHeader + imageSizePosition)

/-- The sections lie in memory behind the headers, one behind the other, and inside the image. -/
structure Mapped (v : FileView) : Prop where
  behind : ∀ r ∈ v.sections, v.headersSize ≤ r.rva
  ascending : v.sections.Pairwise fun r s => r.rva + r.virtSize ≤ s.rva
  inside : ∀ r ∈ v.sections, r.rva + r.virtSize ≤ v.imageSize

end FileView

namespace Encoding

variable {image : Image} {options : EncodeOptions} {clock : UInt32} {a : Assembly}
  {h : HeadedImage} {q p : Placement} {e : EncodedImage} {size : Nat}
  (enc : Encoding image options clock a h q p e size)

include enc

theorem imageSize_eq : q.cursor.imageSize =
    alignAddress q.cursor.next h.numbers.sectionAlignment - h.numbers.base := by
  rw [AddressCursor.imageSize, AddressCursor.aligned, enc.places.cursor.1, enc.places.cursor.2]

/-- The size of the image that a loader reads is where the cursor stopped. -/
theorem view_imageSize : (e.view image options).imageSize = q.cursor.imageSize := by
  have hholds := (enc.lays.layout p.binding.env).holds [_, _, _, _, _, _, _, _, _]
  have hvalue : p.binding.env h.pending.imageSize = LinkValue.ofSize q.cursor.imageSize :=
    Binding.env_of_get? (enc.places.tables.binding _ _ enc.places.imageSize)
  rw [show (Expr.label h.pending.imageSize).eval p.binding.env = _ from hvalue] at hholds
  have hread := enc.number_eq rfl hholds (by
    show _ + 24 ≠ _
    rw [layoutPosition, checksumPosition]
    omega)
  have hsmall : q.cursor.imageSize < 2 ^ 128 := by
    have hle := alignAddress_le q.cursor.next h.numbers.sectionAlignment
    rw [enc.imageSize_eq]
    rw [maxAddress, UInt64.size] at hle
    omega
  rw [LinkValue.toNat_ofSize hsmall] at hread
  rw [FileView.imageSize, enc.view_optionalHeader]
  exact hread

/-- A section of the finished image without a fixed address is aligned in memory. -/
theorem dvd_address (hlen : e.bytes.length < UInt64.size) {i : Nat} {s : Section}
    (hs : e.image.sections[i]? = some s) (hfree : s.address = none) :
    (e.view image options).sectionAlignment ∣
      (e.view image options).imageBase + ((e.view image options).row i).rva := by
  obtain ⟨s', hs', content, -, rfl⟩ := exists_left_of_forall₂ enc.finished.sections hs
  obtain ⟨r, address, -, -, hat⟩ := enc.exists_placed_of_headed hs'
  obtain ⟨hrow, haddress⟩ := enc.view_row hs' hat hlen
  obtain ⟨next, hnext⟩ := hat.floating hfree
  obtain ⟨hnumber, hpower⟩ := enc.view_sectionAlignment
  rw [enc.view_imageBase, hrow, hnumber]
  show _ ∣ h.numbers.base + r.rva
  rw [← haddress, hnext]
  exact dvd_alignAddress hpower next

/-- The size of the image is rounded up where the image base is a multiple of the alignment. -/
theorem dvd_imageSize
    (hbase : (e.view image options).sectionAlignment ∣ (e.view image options).imageBase) :
    (e.view image options).sectionAlignment ∣ (e.view image options).imageSize := by
  obtain ⟨hnumber, hpower⟩ := enc.view_sectionAlignment
  rw [enc.view_imageBase, hnumber] at hbase
  rw [enc.view_imageSize, enc.imageSize_eq, hnumber]
  exact Nat.dvd_sub (dvd_alignAddress hpower _) hbase

/-- Where there is room, the image ends behind its sections, at an address that is rounded up. -/
theorem mapped (hlen : e.bytes.length < UInt64.size) (hroom : (e.view image options).Room) :
    (e.view image options).Mapped ∧ (e.view image options).sectionAlignment ∣
      (e.view image options).imageBase + (e.view image options).imageSize := by
  obtain ⟨hnumber, hpower⟩ := enc.view_sectionAlignment
  obtain ⟨⟨⟨x, hx, hcursor, hends⟩, hapart⟩, hbehind⟩ := enc.ascending_placed hlen hroom
  rw [LayoutNumbers.Room] at hx
  have hpos := pos_of_isPowerOfTwo hpower
  have hle : h.numbers.base + x ≤ alignAddress (h.numbers.base + x) h.numbers.sectionAlignment :=
    le_alignAddress (by omega)
  have hsize : (e.view image options).imageSize =
      alignAddress (h.numbers.base + x) h.numbers.sectionAlignment - h.numbers.base := by
    rw [enc.view_imageSize, enc.imageSize_eq, hcursor]
  refine ⟨⟨fun r hr => ?_, ?_, fun r hr => ?_⟩, ?_⟩
  · rw [enc.view_sections hlen] at hr
    obtain ⟨placed, hplaced, rfl⟩ := List.mem_map.1 hr
    rw [enc.view_headersSize hlen]
    exact hbehind placed hplaced
  · rw [enc.view_sections hlen]
    exact List.pairwise_map.2 hapart
  · rw [enc.view_sections hlen] at hr
    obtain ⟨placed, hplaced, rfl⟩ := List.mem_map.1 hr
    have hend : placed.seen.rva + placed.seen.virtSize ≤ x := hends placed hplaced
    omega
  · rw [hnumber, enc.view_imageBase, hsize, Nat.add_sub_cancel' (by omega)]
    exact dvd_alignAddress hpower _

end Encoding

/-- **Sections are aligned to their absolute addresses.**  A section without a fixed address starts at
a multiple of the section alignment, counted from zero and not from the image base.  So if the image
base is a multiple, such a section starts at one in the image, and the size of the image is one.  If
the image ends before the last unit of the address space, the sections lie in memory behind the
headers, one behind the other, and the image ends behind them, at an address that is rounded up. -/
theorem encodeImage_sectionAlignment {image : Image} {options : EncodeOptions} {clock : UInt32}
    {e : EncodedImage} (he : (encodeImage image options clock).result = .ok e)
    (hlen : e.bytes.length < UInt64.size) :
    (∀ i s, e.image.sections[i]? = some s → s.address = none →
      (e.view image options).sectionAlignment ∣
        (e.view image options).imageBase + ((e.view image options).row i).rva) ∧
    ((e.view image options).sectionAlignment ∣ (e.view image options).imageBase →
      (∀ i s, e.image.sections[i]? = some s → s.address = none →
        (e.view image options).sectionAlignment ∣ ((e.view image options).row i).rva) ∧
      (e.view image options).sectionAlignment ∣ (e.view image options).imageSize) ∧
    ((e.view image options).Room → (e.view image options).Mapped ∧
      (e.view image options).sectionAlignment ∣
        (e.view image options).imageBase + (e.view image options).imageSize) := by
  obtain ⟨a, h, q, p, size, enc⟩ := encodeImage_eq_ok he
  refine ⟨fun i s hs hfree => enc.dvd_address hlen hs hfree, fun hbase => ⟨fun i s hs hfree => ?_,
    enc.dvd_imageSize hbase⟩, enc.mapped hlen⟩
  exact (Nat.dvd_add_right hbase).1 (enc.dvd_address hlen hs hfree)

/-- A program whose image base lies in the middle of a page, with a section at a fixed address. -/
def halfPageBase : Image :=
  { Image.empty with
    sections := [.new ".text" (.read ||| .execute) (ofBytes [0x90, 0xc3]),
      { Section.new ".data" (.read ||| .write) (ofBytes [1, 2, 3, 4]) with address := some 0x3000 }]
    optionalHeader := { OptionalHeader.empty with imageBase := some 0x400800 } }

theorem encodeImage_sectionAlignment_halfPageBase :
    ∃ e, (encodeImage halfPageBase (.new .exe) 0).result = .ok e ∧
      (e.view halfPageBase (.new .exe)).Mapped ∧
      (e.view halfPageBase (.new .exe)).sectionAlignment ∣
        (e.view halfPageBase (.new .exe)).imageBase +
          ((e.view halfPageBase (.new .exe)).row 0).rva ∧
      ((e.view halfPageBase (.new .exe)).row 0).rva = 0x800 ∧
      (e.view halfPageBase (.new .exe)).sectionAlignment = 0x1000 ∧
      (e.view halfPageBase (.new .exe)).imageSize = 0x3800 := by
  obtain ⟨e, he, hlen, hbase, hfree, hrest⟩ :
      ∃ e, (encodeImage halfPageBase (.new .exe) 0).result = .ok e ∧
        e.bytes.length < UInt64.size ∧
        (e.view halfPageBase (.new .exe)).imageBase = 0x400800 ∧
        (e.image.sections[0]?.any fun s => s.address.isNone) ∧
        ((e.view halfPageBase (.new .exe)).row 0).rva = 0x800 ∧
        (e.view halfPageBase (.new .exe)).sectionAlignment = 0x1000 ∧
        (e.view halfPageBase (.new .exe)).imageSize = 0x3800 :=
    exists_encodeImage (by decide +kernel)
  rw [Option.any_eq_true] at hfree
  obtain ⟨s, hs, hfree⟩ := hfree
  obtain ⟨haligned, -, hmapped⟩ := encodeImage_sectionAlignment he hlen
  have hroom := FileView.room_of_imageBase_le
    (v := e.view halfPageBase (.new .exe)) (by rw [hbase]; decide)
  exact ⟨e, he, (hmapped hroom).1, haligned 0 s hs (Option.isNone_iff_eq_none.1 hfree), hrest⟩

end PortableImage
