import PortableImage.Proofs.Buffer.Window
import PortableImage.Proofs.Encode.OnePass
import PortableImage.Proofs.FileView
import PortableImage.Proofs.Rounding

/-!
# The file as its headers describe it

The headers and the sections stand in the file one behind the other, without gaps, each of them
rounded up to the file alignment; and the section table says so.  Where nothing is written over them,
the bytes of a section are those of the section of the finished image, with zeros behind them.

* `FileView.extents` — the places and the sizes of the sections, as the section table has them.
* `FileView.LaidOut` — a file that consists of what its headers describe.
* `Encoding.exists_output` — the output before the checksum is written.
* `Encoding.length_lt` — every file is small enough for its headers.
* `Encoding.bytesAt_given` — bytes of the caller are in the file as they are.
* `encodeImage_laidOut` — every file is laid out, and holds the sections of the finished image.
-/

set_option autoImplicit false

namespace PortableImage

open Buffer

namespace FileView

/-- Where the optional header holds the file alignment. -/
def fileAlignmentPosition : Nat := layoutPosition + 4

/-- The file alignment. -/
def fileAlignment (v : FileView) : Nat := v.number 4 (v.optionalHeader + fileAlignmentPosition)

/-- The size of the headers. -/
def headersSize (v : FileView) : Nat := v.number 4 (v.optionalHeader + headersSizePosition)

/-- The number of sections. -/
def sectionCount (v : FileView) : Nat := v.number 2 (v.fileHeader + sectionCountPosition)

/-- The end of the section table. -/
def tableEnd (v : FileView) : Nat := v.sectionTable + sectionHeaderSize * v.sectionCount

/-- The place of a section in the file, and its size there. -/
def extent (v : FileView) (i : Nat) : Nat × Nat :=
  let row := v.sectionTable + sectionHeaderSize * i
  (v.number 4 (row + 20), v.number 4 (row + 16))

/-- The places and the sizes of all sections. -/
def extents (v : FileView) : List (Nat × Nat) := (List.range v.sectionCount).map v.extent

/-- The file consists of its headers and its sections, one behind the other, rounded up to the file
alignment. -/
structure LaidOut (v : FileView) : Prop where
  headers_dvd : v.fileAlignment ∣ v.headersSize
  headers_le : v.tableEnd ≤ v.headersSize
  headers_least : ∀ n, v.fileAlignment ∣ n → v.tableEnd ≤ n → v.headersSize ≤ n
  first : ∀ x, v.extents[0]? = some x → x.1 = v.headersSize
  next : ∀ (i : Nat) x y, v.extents[i]? = some x → v.extents[i + 1]? = some y → y.1 = x.1 + x.2
  aligned : ∀ x ∈ v.extents, v.fileAlignment ∣ x.1 ∧ v.fileAlignment ∣ x.2
  length : v.data.length = v.headersSize + (v.extents.map (·.2)).sum

end FileView

/-- The place and the size of a placed section in the file. -/
def PlacedSection.extent (q : PlacedSection) : Nat × Nat := (q.rawAddress, q.rawSize)

/-! ## Sections one behind the other -/

theorem Tiles.stop_eq {l : List PlacedSection} {start stop : Nat} (h : Tiles start l stop) :
    stop = start + (l.map (·.rawSize)).sum := by
  induction l generalizing start with
  | nil => exact h.symm
  | cons q rest ih =>
    rw [ih h.2, List.map_cons, List.sum_cons, Nat.add_assoc]

theorem Tiles.next {l : List PlacedSection} {start stop i : Nat} (h : Tiles start l stop)
    {q r : PlacedSection} (hq : l[i]? = some q) (hr : l[i + 1]? = some r) :
    r.rawAddress = q.rawAddress + q.rawSize := by
  induction l generalizing start i with
  | nil => exact nomatch hq
  | cons p rest ih =>
    cases i with
    | zero =>
      cases hq
      cases rest with
      | nil => exact nomatch hr
      | cons p' rest =>
        cases hr
        rw [h.2.1, h.1]
    | succ i => exact ih h.2 hq hr

/-- The bytes of the last section end where all of them do. -/
theorem Tiles.last {l : List PlacedSection} {start stop i : Nat} (h : Tiles start l stop)
    {q : PlacedSection} (hq : l[i]? = some q) (hlast : l[i + 1]? = none) :
    stop = q.rawAddress + q.rawSize := by
  induction l generalizing start i with
  | nil => exact nomatch hq
  | cons p rest ih =>
    cases i with
    | zero =>
      cases hq
      cases rest with
      | nil => rw [← h.2, h.1]
      | cons p' rest => exact nomatch hlast
    | succ i => exact ih h.2 hq hlast

/-- Sections that are not too large do not reach too far. -/
theorem Tiles.stop_le {l : List PlacedSection} {start stop bound : Nat} (h : Tiles start l stop)
    (hbound : ∀ q ∈ l, q.rawSize ≤ bound) : stop ≤ start + bound * l.length := by
  induction l generalizing start with
  | nil => exact Nat.le_of_eq h.symm
  | cons p rest ih =>
    have hrest := ih h.2 fun q hq => hbound q (List.mem_cons_of_mem _ hq)
    have hfirst := hbound p List.mem_cons_self
    rw [List.length_cons, Nat.mul_succ]
    omega

/-- Sections that are rounded up lie at multiples of the alignment and have sizes that are. -/
theorem Tiles.aligned {l : List PlacedSection} {start stop alignment : Nat}
    (h : Tiles start l stop) (hstart : alignment ∣ start)
    (hend : ∀ q ∈ l, alignment ∣ q.rawAddress + q.rawSize) :
    ∀ q ∈ l, alignment ∣ q.rawAddress ∧ alignment ∣ q.rawSize := by
  induction l generalizing start with
  | nil => exact fun _ hq => nomatch hq
  | cons p rest ih =>
    have hplace : alignment ∣ p.rawAddress := h.1 ▸ hstart
    have hstop := hend p List.mem_cons_self
    refine List.forall_mem_cons.2 ⟨⟨hplace, (Nat.dvd_add_right hplace).1 hstop⟩, ?_⟩
    exact ih h.2 (h.1 ▸ hstop) fun q hq => hend q (List.mem_cons_of_mem _ hq)

/-- The sections cover everything behind the headers. -/
theorem Tiles.exists_covering {l : List PlacedSection} {start stop i : Nat} (h : Tiles start l stop)
    (hi : start ≤ i) (hlt : i < stop) :
    ∃ r ∈ l, r.rawAddress ≤ i ∧ i < r.rawAddress + r.rawSize := by
  induction l generalizing start with
  | nil =>
    rw [Tiles] at h
    omega
  | cons r rest ih =>
    obtain ⟨hplace, hrest⟩ := h
    by_cases hin : i < start + r.rawSize
    · exact ⟨r, List.mem_cons_self, by omega, by omega⟩
    · obtain ⟨s, hs, hcovers⟩ := ih hrest (by omega)
      exact ⟨s, List.mem_cons_of_mem _ hs, hcovers⟩

/-! ## What is read is what was placed -/

namespace Encoding

variable {image : Image} {options : EncodeOptions} {clock : UInt32} {a : Assembly}
  {h : HeadedImage} {q p : Placement} {e : EncodedImage} {size : Nat}
  (enc : Encoding image options clock a h q p e size)

include enc

theorem length_bytes : e.bytes.length = q.output.virtSize :=
  enc.finished.size.trans enc.places.tables.virtSize

theorem filePower : isPowerOfTwo h.numbers.fileAlignment = true := by
  obtain ⟨n, hn, hpower⟩ := enc.lays.filePower
  rw [HeadedImage.numbers, LayoutNumbers.ofHeader, hn]
  exact hpower

theorem headersSize_le : h.headersSize ≤ e.bytes.length := by
  rw [enc.length_bytes, enc.places.tiles.stop_eq]
  exact Nat.le_add_right _ _

theorem view_headersSize (hlen : e.bytes.length < UInt64.size) :
    (e.view image options).headersSize = h.headersSize := by
  have hle := enc.headersSize_le
  have hholds := (enc.lays.layout p.binding.env).holds [_, _, _, _, _, _, _, _, _, _]
  have hvalue : p.binding.env h.pending.headersSize = LinkValue.ofSize h.headersSize :=
    Binding.env_of_get? (enc.places.tables.binding _ _ enc.places.headersSize)
  rw [show (Expr.label h.pending.headersSize).eval p.binding.env = _ from hvalue] at hholds
  have hread := enc.number_eq rfl hholds (by
    show _ + 28 ≠ _
    rw [layoutPosition, checksumPosition]
    omega)
  rw [LinkValue.toNat_ofSize (by rw [UInt64.size] at hlen; omega)] at hread
  rw [FileView.headersSize, enc.view_optionalHeader, ← hread]
  rfl

theorem view_fileAlignment : (e.view image options).fileAlignment = h.numbers.fileAlignment := by
  obtain ⟨n, hn, -⟩ := enc.lays.filePower
  have hholds := (enc.lays.layout p.binding.env).holds [_]
  have hvalue : (numberOr (h.image.optionalHeader.fileAlignment.map (·.toNat))).eval p.binding.env =
      LinkValue.ofSize n.toNat := by
    rw [hn]
    rfl
  rw [hvalue] at hholds
  have hread := enc.number_eq rfl hholds (by
    show _ + 4 ≠ _
    rw [layoutPosition, checksumPosition]
    omega)
  rw [LinkValue.toNat_ofSize (Nat.lt_trans n.toNat_lt (by decide))] at hread
  rw [FileView.fileAlignment, enc.view_optionalHeader, HeadedImage.numbers, LayoutNumbers.ofHeader,
    hn]
  exact hread

theorem view_sectionCount : (e.view image options).sectionCount = h.image.sections.length := by
  have hread := enc.number_eq rfl (enc.lays.sectionCount _) (by
    rw [sectionCountPosition, fileHeaderSize]
    omega)
  rw [LinkValue.toNat_ofSize (Nat.lt_trans enc.lays.few (by decide))] at hread
  rw [FileView.sectionCount, enc.view_fileHeader]
  exact hread

theorem view_tableEnd : (e.view image options).tableEnd = h.headers.virtSize := by
  rw [FileView.tableEnd, enc.view_sectionTable, enc.view_sectionCount, enc.lays.stop]

theorem length_placed : q.placed.length = h.image.sections.length := by
  exact enc.places.sections.length_eq.symm

/-- The sections of the assembled image have no fixed size in the file if the caller's have none. -/
theorem rawSize_headed (hraw : ∀ s ∈ image.sections, s.rawSize = none) :
    ∀ s ∈ h.image.sections, s.rawSize = none := by
  intro s hs
  obtain ⟨i, hi⟩ := List.mem_iff_getElem?.1 hs
  obtain ⟨s', hs', hheaded⟩ := exists_left_of_forall₂ enc.lays.sections hi
  exact (Section.sizes_headed hheaded).2.trans
    (enc.continued.stable Section.stable_rawSize hraw s' (List.mem_of_getElem? hs'))

/-- The section table says where a section without a fixed size in the file was placed there, and how
large it is. -/
theorem view_extent_of_free (hlen : e.bytes.length < UInt64.size) {i : Nat} {s : Section}
    {r : PlacedSection} (hs : h.image.sections[i]? = some s) (hfree : s.rawSize = none)
    (hr : q.placed[i]? = some r) : (e.view image options).extent i = r.extent := by
  obtain ⟨s', hs', -, address, hat⟩ := exists_left_of_forall₂ enc.places.sections hr
  rw [hs, Option.some.injEq] at hs'
  subst hs'
  have hrow := enc.lays.rows p.binding.env i s hs
  have hend := enc.rawAddress_le hat
  have hlarge := enc.lays.large
  -- the rows lie behind the checksum
  have hne : headerStart options.target + fileHeaderSize + size + sectionHeaderSize * i + 16 ≠
      headerStart options.target + fileHeaderSize + checksumPosition := by omega
  obtain ⟨label, hlabel, hholds⟩ := hrow.rawSize hfree
  have hsize := enc.number_eq rfl hholds hne
  rw [Binding.env_of_get? (enc.places.tables.binding _ _ (hat.rawSizeLabel label hlabel)),
    LinkValue.toNat_ofSize (by rw [UInt64.size] at hlen; omega)] at hsize
  have hplace := congrArg FileSection.rawAddress (enc.view_row hs hat hlen).1
  rw [FileView.row, enc.view_sectionTable] at hplace
  rw [FileView.extent, enc.view_sectionTable, PlacedSection.extent]
  exact Prod.ext hplace hsize

/-- **The section table says where a section was placed in the file, and how large it is there.** -/
theorem view_extent (hlen : e.bytes.length < UInt64.size)
    (hraw : ∀ s ∈ image.sections, s.rawSize = none) {i : Nat} {r : PlacedSection}
    (hr : q.placed[i]? = some r) : (e.view image options).extent i = r.extent := by
  obtain ⟨s, hs, -⟩ := exists_left_of_forall₂ enc.places.sections hr
  exact enc.view_extent_of_free hlen hs (enc.rawSize_headed hraw s (List.mem_of_getElem? hs)) hr

/-- The places and sizes in the section table are those of all placed sections. -/
theorem view_extents (hlen : e.bytes.length < UInt64.size)
    (hraw : ∀ s ∈ image.sections, s.rawSize = none) :
    (e.view image options).extents = q.placed.map PlacedSection.extent := by
  rw [FileView.extents, enc.view_sectionCount, ← enc.length_placed]
  refine List.ext_getElem? fun i => ?_
  rw [List.getElem?_map, List.getElem?_map]
  cases hr : q.placed[i]? with
  | none =>
    rw [List.getElem?_eq_none (by rw [List.length_range]; exact List.getElem?_eq_none_iff.1 hr)]
    rfl
  | some r =>
    rw [List.getElem?_range (List.getElem?_eq_some_iff.1 hr).1, Option.map_some, Option.map_some,
      enc.view_extent hlen hraw hr]

/-- The end of a placed section is a multiple of the file alignment. -/
theorem dvd_end {s : Section} {r : PlacedSection} {address : Nat}
    (hat : SectionAt h.numbers s q r address) :
    h.numbers.fileAlignment ∣ r.rawAddress + r.rawSize := by
  have hle := le_roundUp (n := r.rawAddress + s.content.rawSize) (pos_of_isPowerOfTwo enc.filePower)
  rw [hat.rounded, alignSize_eq enc.filePower, Nat.max_eq_right hle]
  exact dvd_roundUp _ _

/-- **No file is too large to be read**, if the sections have no fixed sizes: the headers count the
bytes of each with 32 bits, and the sections with 16. -/
theorem length_lt (hvirt : ∀ s ∈ image.sections, s.virtSize = none) :
    e.bytes.length < UInt64.size := by
  obtain ⟨n, hn, -⟩ := enc.lays.filePower
  have halignment : h.numbers.fileAlignment < 2 ^ 32 := by
    rw [HeadedImage.numbers, LayoutNumbers.ofHeader, hn]
    exact n.toNat_lt
  have hsections : ∀ r ∈ q.placed, r.rawSize ≤ 2 ^ 33 := by
    intro r hr
    obtain ⟨i, hi⟩ := List.mem_iff_getElem?.1 hr
    obtain ⟨s', hs', -, address, hat⟩ := exists_left_of_forall₂ enc.places.sections hi
    obtain ⟨s, hs, hheaded⟩ := exists_left_of_forall₂ enc.lays.sections hs'
    have hmem := List.mem_of_getElem? hs
    have hcontent := enc.lays.sizes s hmem
      (enc.continued.stable Section.stable_virtSize hvirt s hmem)
    have hraw := s'.content.rawSize_le_virtSize
    rw [(Section.content_headed hheaded).virtSize_eq] at hraw
    have hround := alignSize_le (r.rawAddress + s'.content.rawSize) h.numbers.fileAlignment
    have hend := hat.rounded
    rw [UInt32.size] at hcontent
    omega
  have hheaders : h.headersSize ≤ h.headers.virtSize + h.numbers.fileAlignment := by
    rw [HeadedImage.headersSize, align, virtSize_growTo]
    have hround := alignSize_le h.headers.virtSize h.numbers.fileAlignment
    omega
  have hbytes := enc.places.tiles.stop_le hsections
  have hstop := enc.lays.stop
  have hfew := enc.lays.few
  have hsmall := enc.lays.small
  have hstart : headerStart options.target ≤ 68 := by
    rw [headerStart]
    split <;> decide
  rw [enc.length_placed] at hbytes
  rw [fileHeaderSize, sectionHeaderSize] at hstop
  rw [UInt16.size] at hfew hsmall
  rw [enc.length_bytes, UInt64.size]
  omega

/-- **The file consists of what its headers describe.** -/
theorem laidOut (hlen : e.bytes.length < UInt64.size)
    (hraw : ∀ s ∈ image.sections, s.rawSize = none) : (e.view image options).LaidOut := by
  have hpower := enc.filePower
  have hpos := pos_of_isPowerOfTwo hpower
  have hheaders : h.headersSize = roundUp h.headers.virtSize h.numbers.fileAlignment := by
    rw [HeadedImage.headersSize, virtSize_align _ hpower, alignSize_eq hpower]
  have hextents := enc.view_extents hlen hraw
  have htiles := enc.places.tiles
  constructor
  · rw [enc.view_fileAlignment, enc.view_headersSize hlen, hheaders]
    exact dvd_roundUp _ _
  · rw [enc.view_tableEnd, enc.view_headersSize hlen, hheaders]
    exact le_roundUp hpos
  · intro n hdvd hle
    rw [enc.view_fileAlignment] at hdvd
    rw [enc.view_tableEnd] at hle
    rw [enc.view_headersSize hlen, hheaders]
    exact roundUp_le hpos hdvd hle
  · intro x hx
    rw [hextents, List.getElem?_map] at hx
    obtain ⟨r, hr, rfl⟩ := Option.map_eq_some_iff.1 hx
    rw [enc.view_headersSize hlen]
    cases hplaced : q.placed with
    | nil =>
      rw [hplaced] at hr
      cases hr
    | cons r' rest =>
      rw [hplaced] at hr htiles
      cases hr
      exact htiles.1
  · intro i x y hx hy
    rw [hextents, List.getElem?_map] at hx hy
    obtain ⟨r, hr, rfl⟩ := Option.map_eq_some_iff.1 hx
    obtain ⟨r', hr', rfl⟩ := Option.map_eq_some_iff.1 hy
    exact htiles.next hr hr'
  · intro x hx
    rw [hextents] at hx
    obtain ⟨r, hr, rfl⟩ := List.mem_map.1 hx
    rw [enc.view_fileAlignment]
    refine htiles.aligned (hheaders ▸ dvd_roundUp _ _) (fun s hs => ?_) r hr
    obtain ⟨i, hi⟩ := List.mem_iff_getElem?.1 hs
    obtain ⟨_, -, -, address, hat⟩ := exists_left_of_forall₂ enc.places.sections hi
    exact enc.dvd_end hat
  · rw [hextents, List.map_map, enc.view_headersSize hlen]
    exact enc.length_bytes.trans htiles.stop_eq

/-! ## What stands in the sections -/

/-- **The output before the checksum is written.**  The field of the checksum is the only one that may
be pending in it, and the finished file differs from it in this field at most. -/
theorem exists_output : ∃ output : Buffer, p.output.fill.fixup p.binding = .ok output ∧
    writeChecksum h.context.encoder.order h.pending.checksum output = .ok (e.output, e.checksum) ∧
    output.FieldsWritten ∧
    (∀ k, k ≠ headerStart options.target + fileHeaderSize + checksumPosition →
      output.fields.get? k = none) ∧
    SameApart (headerStart options.target + fileHeaderSize + checksumPosition) 4 e.bytes
      output.data := by
  obtain ⟨output, hfix, hwrite⟩ := enc.finished.written
  have hin := enc.places.tables.sound.inside.fill
  obtain ⟨hraw, htail⟩ := rawSize_fixup hfix rfl hin
  have hwritten : output.FieldsWritten := (hin.fixup hfix).written htail
  have hfields := get?_fields_fixup hfix
  rw [fields_fill] at hfields
  have honly : ∀ k, k ≠ headerStart options.target + fileHeaderSize + checksumPosition →
      output.fields.get? k = none := by
    intro k hk
    rw [hfields]
    cases hf : p.output.fields.get? k with
    | none => rfl
    | some f =>
      obtain ⟨v, hv⟩ := Option.isSome_iff_exists.1 (enc.finished.valued k f hk hf)
      rw [Option.filter_some, hv]
      rfl
  obtain ⟨hraw', -, -, hbytes⟩ := writeChecksum_keeps hwrite htail hwritten.inside honly
  have hlength : e.bytes.length = output.data.length := hraw'
  refine ⟨output, hfix, hwrite, hwritten, honly, hlength, fun i hi => ?_⟩
  by_cases hlt : i < output.data.length
  · refine hbytes i hlt fun k f hk => ?_
    have hplace : k = headerStart options.target + fileHeaderSize + checksumPosition := by
      by_contra hne
      exact nomatch (honly k hne).symm.trans hk
    have hwidth : f.type.width = 4 := by
      obtain heq | ⟨name, -, -, -, -, hname, -⟩ := writeChecksum_eq_ok hwrite
      · rw [← heq, enc.finished.pending] at hk
        exact nomatch hk
      · rw [hplace, hfields, enc.places.get?_checksum enc.lays name hname,
          Option.filter_eq_some_iff] at hk
        obtain ⟨⟨⟩, -⟩ := hk
        rfl
    rw [hplace, hwidth]
    exact hi
  · rw [List.getElem?_eq_none (Nat.not_lt.1 hlt), List.getElem?_eq_none (by omega)]

/-- The field of the checksum lies in the headers. -/
theorem checksum_le : headerStart options.target + fileHeaderSize + checksumPosition + 4 ≤
    h.headersSize := by
  have hlarge := enc.lays.large
  have hstop := enc.lays.stop
  have hle : h.headers.virtSize ≤ h.headersSize := virtSize_le_align _ _
  omega

/-- Where no table is written, the output has the bytes and the pending fields of a section. -/
theorem output_placed (htables : a.tablesInPlace = []) {s : Section}
    {r : PlacedSection} {address : Nat} (hat : SectionAt h.numbers s q r address)
    (hs : s.content.FieldsWritten) :
    (∀ j, j < r.rawSize →
      p.output.fill.data[r.rawAddress + j]? = (padTo r.rawSize s.content.data)[j]?) ∧
    (∀ k, k < r.rawSize →
      p.output.fill.fields.get? (r.rawAddress + k) = s.content.fields.get? k) ∧
    ∀ k f, k < r.rawAddress → p.output.fill.fields.get? k = some f →
      k + f.type.width ≤ r.rawAddress := by
  have hapart : ∀ o len, q.ApartFrom (orderedTables a.tablesInPlace) o len := fun o len t ht => by
    rw [mem_orderedTables, htables] at ht
    exact nomatch ht
  refine ⟨fun j hj => ?_, fun k hk => ?_, fun k f hk hf => ?_⟩
  · rw [data_fill, enc.places.tables.bytes _ (hapart _ _), hat.bytes j hj]
  · rw [fields_fill, enc.places.tables.fields _ (hapart _ _), hat.fields k hk, get?_fields_slice,
      Nat.add_zero, Nat.zero_add]
    cases hf : s.content.fields.get? k with
    | none => rfl
    | some f => rw [Option.filter_some, if_pos (decide_eq_true (hs k f hf))]
  · rw [fields_fill, enc.places.tables.fields _ (hapart _ _)] at hf
    exact hat.front k f hk hf

/-- With headers, the fields of all sections lie in their bytes if those of the caller's do. -/
theorem fieldsWritten_headed (hwritten : ∀ s ∈ image.sections, s.content.FieldsWritten) :
    ∀ s ∈ h.image.sections, s.content.FieldsWritten := by
  intro s hs
  obtain ⟨i, hi⟩ := List.mem_iff_getElem?.1 hs
  obtain ⟨s₀, hs₀, hheaded⟩ := exists_left_of_forall₂ enc.lays.sections hi
  obtain ⟨added, heq⟩ := Section.content_headed hheaded
  rw [heq]
  exact enc.continued.stable Section.stable_fieldsWritten hwritten s₀ (List.mem_of_getElem? hs₀)

/-- A section whose fields lie in its bytes stands in the file as it was fixed up, if no table is
written in place. -/
theorem bytesAt_headed (htables : a.tablesInPlace = []) {i : Nat} {s' : Section} {content : Buffer}
    {r : PlacedSection} (hs' : h.image.sections[i]? = some s') (hin : s'.content.FieldsWritten)
    (hcontent : s'.content.fixup p.binding = .ok content) (hr : q.placed[i]? = some r) :
    content.data.length ≤ r.rawSize ∧
      bytesAt e.bytes r.rawAddress r.rawSize = padTo r.rawSize content.data := by
  obtain ⟨r', address, hr', hheaders, hat⟩ := enc.exists_placed_of_headed hs'
  rw [hr] at hr'
  cases hr'
  have hsize : content.data.length = s'.content.data.length := hin.rawSize_fixup hcontent
  obtain ⟨output, hfix, -, -, -, hsame⟩ := enc.exists_output
  obtain ⟨hdata, hfields, hfront⟩ := enc.output_placed htables hat hin
  have hend : r.rawAddress + r.rawSize ≤ p.output.fill.rawSize := by
    rw [rawSize_fill, enc.places.tables.virtSize]
    exact hat.inside
  have hheader := enc.checksum_le
  have hraw : s'.content.data.length ≤ r.rawSize := hat.rawSize
  refine ⟨hsize ▸ hraw, List.ext_getElem? fun j => ?_⟩
  rw [getElem?_bytesAt, getElem?_padTo, hsize]
  by_cases hj : j < r.rawSize
  · rw [if_pos hj, hsame.getElem?_eq _ (.inr (by omega))]
    have hplaced := hdata j hj
    rw [getElem?_padTo] at hplaced
    by_cases hlt : j < s'.content.data.length
    · rw [if_pos hlt] at hplaced ⊢
      exact getElem?_fixup_window hfix hcontent (by omega) hlt hplaced
        (fun k hk => hfields k (by omega)) hfront fun _ _ _ _ _ => rfl
    · -- behind the bytes of the section there are only the zeros that round it up
      rw [if_neg hlt] at hplaced ⊢
      rw [getElem?_fixup hfix (by omega) fun k f hf _ => ?_, hplaced]
      by_cases hk : k < r.rawAddress
      · have hle := hfront k f hk hf
        omega
      · by_cases hkr : k - r.rawAddress < r.rawSize
        · have hown := hfields (k - r.rawAddress) hkr
          rw [Nat.add_sub_cancel' (Nat.not_lt.1 hk), hf] at hown
          have hle := hin _ f hown.symm
          rw [rawSize] at hle
          omega
        · omega
  · rw [if_neg hj, if_neg (by omega), if_neg hj]

/-- **The bytes of a section of the caller are in the file as they are**, if none of them belongs to a
pending field.  What is merged into the section comes behind them. -/
theorem bytesAt_given (hlen : e.bytes.length < UInt64.size) (htables : a.tablesInPlace = [])
    (hwritten : ∀ s ∈ image.sections, s.content.FieldsWritten) {i : Nat} {s : Section}
    (hs : image.sections[i]? = some s) (hfree : ∀ k, s.content.fields.get? k = none) :
    bytesAt e.bytes ((e.view image options).row i).rawAddress s.content.data.length =
      s.content.data := by
  obtain ⟨s', r, address, hs', hr, -, hat, hgrows⟩ := enc.exists_placed hs
  obtain ⟨hrow, -⟩ := enc.view_row hs' hat hlen
  obtain ⟨-, -, content, hcontent, -⟩ := exists_right_of_forall₂ enc.finished.sections hs'
  have hin := enc.fieldsWritten_headed hwritten s' (List.mem_of_getElem? hs')
  obtain ⟨hraw, hbytes⟩ := enc.bytesAt_headed htables hs' hin hcontent hr
  have hsize : content.data.length = s'.content.data.length := hin.rawSize_fixup hcontent
  have hle : s.content.data.length ≤ s'.content.data.length := hgrows.rawSize_le
  have hvirt : s.content.data.length ≤ s.content.virtSize := Nat.le_add_right _ _
  rw [hrow]
  refine List.ext_getElem? fun j => ?_
  rw [getElem?_bytesAt]
  split
  · next hj =>
    have hfile := congrArg (·[j]?) hbytes
    simp only [getElem?_bytesAt, getElem?_padTo] at hfile
    rw [if_pos (by omega), if_pos (by omega)] at hfile
    have hfixed : content.data[j]? = s'.content.data[j]? :=
      getElem?_fixup hcontent (by rw [rawSize]; omega) fun k f hf _ => .inl (by
        -- a field of the section is behind what the caller put in
        by_contra hk
        rw [hgrows.fields k (by omega), hfree k] at hf
        cases hf)
    have hsame := hgrows.contents j (by omega)
    rw [contents, contents, List.getElem?_append_left (by omega),
      List.getElem?_append_left hj] at hsame
    exact hfile.trans (hfixed.trans hsame)
  · rw [List.getElem?_eq_none (by omega)]

/-- **A section stands in the file as in the finished image.**  No table is written in place, and the
fields of the sections lie in their bytes. -/
theorem bytesAt_placed (htables : a.tablesInPlace = [])
    (hwritten : ∀ s ∈ image.sections, s.content.FieldsWritten) {i : Nat} {s : Section}
    {r : PlacedSection} (hs : e.image.sections[i]? = some s) (hr : q.placed[i]? = some r) :
    s.content.data.length ≤ r.rawSize ∧
      bytesAt e.bytes r.rawAddress r.rawSize = padTo r.rawSize s.content.data := by
  obtain ⟨s', hs', content, hcontent, rfl⟩ := exists_left_of_forall₂ enc.finished.sections hs
  exact enc.bytesAt_headed htables hs'
    (enc.fieldsWritten_headed hwritten s' (List.mem_of_getElem? hs')) hcontent hr

end Encoding

/-- **Every file is laid out as its headers say, and holds the sections of the finished image.**  No
section has a fixed size in the file, all pending fields lie in the bytes of their sections, and no
address table is written in place.  The sections of the finished image have been fixed up on their
own; the file has the same bytes, with zeros behind them up to the size in the section table. -/
theorem encodeImage_laidOut {image : Image} {options : EncodeOptions} {clock : UInt32}
    {e : EncodedImage} (he : (encodeImage image options clock).result = .ok e)
    (hlen : e.bytes.length < UInt64.size) (hraw : ∀ s ∈ image.sections, s.rawSize = none)
    (htables : tablesInPlace image options clock = [])
    (hwritten : ∀ s ∈ image.sections, s.content.FieldsWritten) :
    (e.view image options).LaidOut ∧
      (e.view image options).extents.length = e.image.sections.length ∧
      ∀ (i : Nat) s x, e.image.sections[i]? = some s →
        (e.view image options).extents[i]? = some x →
          s.content.data.length ≤ x.2 ∧ bytesAt e.bytes x.1 x.2 = padTo x.2 s.content.data := by
  obtain ⟨a, h, q, p, size, enc⟩ := encodeImage_eq_ok he
  have hextents := enc.view_extents hlen hraw
  refine ⟨enc.laidOut hlen hraw, ?_, fun i s x hs hx => ?_⟩
  · rw [hextents, List.length_map, enc.length_placed]
    exact enc.finished.sections.length_eq
  · rw [hextents, List.getElem?_map] at hx
    obtain ⟨r, hr, rfl⟩ := Option.map_eq_some_iff.1 hx
    exact enc.bytesAt_placed (enc.tablesInPlace_eq ▸ htables) hwritten hs hr

/-- A library with two fields in its data, of which the second takes the last bytes of the first. -/
def overlappingFields : Image :=
  { Image.empty with
    sections := [
      .new ".text" (.read ||| .execute) ((ofBytes [0x90, 0xc3]).addExport "entry" 1),
      .new ".data" (.read ||| .write)
        (((ofBytes [0, 0, 0, 0, 0, 0, 0]).addField 0 ⟨.label "entry", .u32, .little⟩).addField 2
          ⟨.const 7, .u32, .little⟩)]
    optionalHeader := { OptionalHeader.empty with fileAlignment := some 16 } }

theorem encodeImage_laidOut_overlappingFields :
    ∃ e, (encodeImage overlappingFields (.new .dll) 0).result = .ok e ∧
      (e.view overlappingFields (.new .dll)).LaidOut ∧
      (e.view overlappingFields (.new .dll)).extents = [(432, 16), (448, 16), (464, 16)] ∧
      bytesAt e.bytes 448 16 = padTo 16 [1, 0x10, 7, 0, 0, 0, 0] := by
  obtain ⟨e, he, hlen, hextents, hdata⟩ :
      ∃ e, (encodeImage overlappingFields (.new .dll) 0).result = .ok e ∧
        e.bytes.length < UInt64.size ∧
        (e.view overlappingFields (.new .dll)).extents = [(432, 16), (448, 16), (464, 16)] ∧
        e.image.sections[1]?.map (·.content.data) = some [1, 0x10, 7, 0, 0, 0, 0] :=
    exists_encodeImage (by decide +kernel)
  obtain ⟨s, hs, hbytes⟩ := Option.map_eq_some_iff.1 hdata
  obtain ⟨hlaid, -, hsections⟩ := encodeImage_laidOut he hlen (by decide) rfl (by decide)
  refine ⟨e, he, hlaid, hextents, ?_⟩
  rw [← hbytes]
  exact (hsections 1 s (448, 16) hs (by rw [hextents]; rfl)).2

end PortableImage
