import PortableImage.Proofs.Buffer.Shows
import PortableImage.Proofs.Encode.Memory
import PortableImage.Proofs.FileLayout

/-!
# The image in memory

A loader copies the sections to the addresses in the section table, and puts zeros behind what the
file has.  Where the end of the address space is far enough away, no address is in two sections.

* `FileView.Room` — the image ends before the last unit of the address space.
* `FileView.memory` — what a loader has in memory for a section.
* `Encoding.ascending` — the sections lie in memory one behind the other.
* `Encoding.exists_memory` — a section whose sizes are not fixed is in memory as it was fixed up.
-/

set_option autoImplicit false

namespace PortableImage

open Buffer

namespace FileView

/-- What the addresses of sections are multiples of. -/
def sectionAlignment (v : FileView) : Nat := v.number 4 (v.optionalHeader + layoutPosition)

/-- The image ends before the last unit of the address space. -/
structure Room (v : FileView) : Prop where
  headers : v.imageBase + v.headersSize + v.sectionAlignment ≤ UInt64.size
  sections : ∀ r ∈ v.sections, v.imageBase + (r.rva + r.virtSize) + v.sectionAlignment ≤ UInt64.size

/-- There is room for every image below the last twelve gigabytes of the address space. -/
theorem room_of_imageBase_le {v : FileView} (h : v.imageBase + 3 * 2 ^ 32 ≤ UInt64.size) :
    v.Room := by
  have hsmall := v.number_lt 4
  have hheaders : v.headersSize < 256 ^ 4 := hsmall _
  have halignment : v.sectionAlignment < 256 ^ 4 := hsmall _
  refine ⟨by omega, fun r hr => ?_⟩
  obtain ⟨i, -, rfl⟩ := List.mem_map.1 hr
  have hrva : (v.row i).rva < 256 ^ 4 := hsmall _
  have hsize : (v.row i).virtSize < 256 ^ 4 := hsmall _
  omega

/-- What a loader has in memory for a section: its bytes in the file, as far as they reach, and zeros
behind them. -/
def memory (v : FileView) (i : Nat) : List UInt8 :=
  padTo (v.row i).virtSize
    (bytesAt v.data (v.row i).rawAddress (min (v.row i).virtSize (v.extent i).2))

end FileView

namespace Encoding

variable {image : Image} {options : EncodeOptions} {clock : UInt32} {a : Assembly}
  {h : HeadedImage} {q p : Placement} {e : EncodedImage} {size : Nat}
  (enc : Encoding image options clock a h q p e size)

include enc

theorem view_sectionAlignment :
    (e.view image options).sectionAlignment = h.numbers.sectionAlignment ∧
      isPowerOfTwo h.numbers.sectionAlignment = true := by
  obtain ⟨n, hn, hpower⟩ := enc.lays.sectionPower
  have hnumber : h.numbers.sectionAlignment = n.toNat := by
    rw [HeadedImage.numbers, LayoutNumbers.ofHeader, hn]
    rfl
  have hholds := (enc.lays.layout p.binding.env).holds []
  have hvalue : (numberOr (h.image.optionalHeader.sectionAlignment.map (·.toNat))).eval
      p.binding.env = LinkValue.ofSize n.toNat := by
    rw [hn]
    rfl
  rw [hvalue] at hholds
  have hread := enc.number_eq rfl hholds (by
    show _ + 0 ≠ _
    rw [layoutPosition, checksumPosition]
    omega)
  rw [LinkValue.toNat_ofSize (Nat.lt_trans n.toNat_lt (by decide))] at hread
  rw [hnumber, FileView.sectionAlignment, enc.view_optionalHeader]
  exact ⟨hread, hpower⟩

/-- There is room for the image at the placement. -/
theorem room (hlen : e.bytes.length < UInt64.size) (hroom : (e.view image options).Room) :
    h.numbers.Room h.headersSize ∧ ∀ r ∈ p.placed, h.numbers.Room (r.rva + r.virtSize) := by
  have hheaders := hroom.headers
  have hsections := hroom.sections
  rw [enc.view_imageBase, enc.view_sectionAlignment.1] at hheaders hsections
  rw [enc.view_headersSize hlen] at hheaders
  rw [enc.view_sections hlen] at hsections
  refine ⟨hheaders, fun r hr => ?_⟩
  rw [enc.places.tables.placed] at hr
  exact hsections r.seen (List.mem_map_of_mem hr)

/-- The placed sections lie in memory behind the headers, one behind the other. -/
theorem ascending_placed (hlen : e.bytes.length < UInt64.size)
    (hroom : (e.view image options).Room) :
    q.Ascending h.numbers ∧ ∀ r ∈ q.placed, h.headersSize ≤ r.rva := by
  obtain ⟨hheaders, hsections⟩ := enc.room hlen hroom
  rw [enc.places.tables.placed] at hsections
  have hbare := enc.places.bare
  simp only [place, Logged.bind_eq_ok, Logged.result_liftM] at hbare
  obtain ⟨b₀, -, b₁, -, q₀, hq, b₂, -, hdone⟩ := hbare
  cases hdone
  have hbefore : Placement.Ascending ⟨h.headers.align h.numbers.fileAlignment, b₁,
      .new h.numbers.base h.headersSize h.numbers.sectionAlignment, []⟩ h.numbers :=
    ⟨⟨_, hheaders, rfl, fun _ hr => absurd hr List.not_mem_nil⟩, .nil⟩
  have hpower := enc.view_sectionAlignment.2
  obtain ⟨hcursor, hapart⟩ := ascending_placeSections hpower hbefore hq hsections
  have hbehind := behind_placeSections hpower hbefore hq hsections (Nat.le_refl _)
    fun _ hr => absurd hr List.not_mem_nil
  exact ⟨⟨hcursor, hapart⟩, hbehind⟩

/-- **The sections lie in memory one behind the other.** -/
theorem ascending (hlen : e.bytes.length < UInt64.size) (hroom : (e.view image options).Room) :
    q.placed.Pairwise fun r s => r.rva + r.virtSize ≤ s.rva :=
  (enc.ascending_placed hlen hroom).1.apart

/-- **A section whose sizes are not fixed is in memory as it was fixed up.** -/
theorem exists_memory (hlen : e.bytes.length < UInt64.size) (htables : a.tablesInPlace = [])
    {i : Nat} {s : Section} (hs : a.image.sections[i]? = some s) (hvirt : s.virtSize = none)
    (hraw : s.rawSize = none) (hwritten : s.content.FieldsWritten) :
    ∃ s' r address content, h.image.sections[i]? = some s' ∧
      s.content.Labelled s'.content ∧ s'.content.fixup p.binding = .ok content ∧
      q.placed[i]? = some r ∧ SectionAt h.numbers s' q r address ∧
      address = h.numbers.base + r.rva ∧ r.virtSize = s.content.virtSize ∧
      (e.view image options).row i = r.seen ∧ (e.view image options).extent i = r.extent ∧
      (e.view image options).memory i = content.contents := by
  obtain ⟨s', hs', hheaded⟩ := exists_right_of_forall₂ enc.lays.sections hs
  obtain ⟨r, address, hr, -, hat⟩ := enc.exists_placed_of_headed hs'
  obtain ⟨t, ht, content, hfix, -⟩ := exists_right_of_forall₂ enc.finished.sections hs'
  have hlabelled := Section.content_headed hheaded
  obtain ⟨hsize, hfree⟩ := Section.sizes_headed hheaded
  obtain ⟨hrow, haddress⟩ := enc.view_row hs' hat hlen
  have hextent := enc.view_extent_of_free hlen hs' (hfree.trans hraw) hr
  have hin : s'.content.FieldsWritten := hlabelled.written_iff.2 hwritten
  obtain ⟨hle, hbytes⟩ := enc.bytesAt_headed htables hs' hin hfix hr
  have hvirtSize : r.virtSize = s.content.virtSize := by
    rw [hat.virtSize, hsize, hvirt, Option.getD_none, Option.getD_some,
      UInt32.toNat_ofNat_of_lt' (enc.lays.sizes s (List.mem_of_getElem? hs) hvirt)]
  have hcontent : content.virtSize = r.virtSize := by
    rw [virtSize_fixup hin.inside hfix, hlabelled.virtSize_eq, hvirtSize]
  refine ⟨s', r, address, content, hs', hlabelled, hfix, hr, hat, haddress, hvirtSize, hrow,
    hextent, List.ext_getElem? fun j => ?_⟩
  have hend := enc.rawAddress_le hat
  have hlength : (bytesAt e.bytes r.rawAddress (min r.virtSize r.rawSize)).length =
      min r.virtSize r.rawSize := length_bytesAt (by omega)
  have hread := congrArg (·[j]?) hbytes
  rw [getElem?_bytesAt, getElem?_padTo] at hread
  rw [FileView.memory, hrow, hextent]
  show (padTo r.virtSize (bytesAt e.bytes r.rawAddress (min r.virtSize r.rawSize)))[j]? = _
  rw [getElem?_padTo, hlength, getElem?_bytesAt, getElem?_contents, hcontent, rawSize]
  have hfits := content.rawSize_le_virtSize
  rw [hcontent, rawSize] at hfits
  by_cases hj : j < min r.virtSize r.rawSize
  · rw [if_pos hj, if_pos hj]
    rw [if_pos (by omega)] at hread
    rw [hread, if_pos (show j < r.rawSize by omega), if_pos (show j < r.virtSize by omega)]
  · rw [if_neg hj, if_neg (show ¬ j < content.data.length by omega)]

end Encoding

end PortableImage
