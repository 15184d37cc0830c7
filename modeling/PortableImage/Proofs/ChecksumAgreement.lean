import PortableImage.Proofs.Checksum
import PortableImage.Proofs.FileLayout
import PortableImage.Proofs.Labels.Placement

/-!
# The checksum in the file

The encoder computes the checksum from the output and then writes it into the output.  A reader that
computes it again from the finished file finds the same number, for the field counts as zero, and
the parts that are read are the whole file.

* `FileView.unsummed` — the file with zeros for the checksum.
* `Encoding.checkedBytes_eq` — the checksum covers the whole file, whatever stands in its field.
* `encodeImage_checksum` — the checksum that is returned, written and computed again.
-/

set_option autoImplicit false

namespace PortableImage

open Buffer

/-- Where the checksum is in a file. -/
def FileView.checksumField (v : FileView) : Nat := v.optionalHeader + checksumPosition

/-- The file with zeros for the checksum. -/
def FileView.unsummed (v : FileView) : List UInt8 :=
  overwrite v.data v.checksumField (List.replicate 4 0)

/-- Sections one behind the other are one range of the file. -/
theorem Tiles.flatten {l : List PlacedSection} {start stop : Nat} (h : Tiles start l stop)
    (d : List UInt8) : (l.map fun r => bytesAt d r.rawAddress r.rawSize).flatten =
      bytesAt d start (stop - start) := by
  have hstop := h.stop_eq
  induction l generalizing start with
  | nil =>
    rw [show stop - start = 0 by rw [hstop]; simp]
    rfl
  | cons q rest ih =>
    rw [List.map_cons, List.sum_cons, ← Nat.add_assoc] at hstop
    rw [List.map_cons, List.flatten_cons, ih h.2 hstop, h.1, bytesAt_append]
    congr 1
    omega

/-- What an object file starts with is not taken for the signature of a DOS header. -/
theorem Machine.raw_ne_dosSignature (machine : Machine) (order : ByteOrder) :
    order.toNat dosSignature ≠ machine.raw.toNat := by
  cases machine <;> cases order <;> decide +kernel

namespace Encoding

variable {image : Image} {options : EncodeOptions} {clock : UInt32} {a : Assembly}
  {h : HeadedImage} {q p : Placement} {e : EncodedImage} {size : Nat}
  (enc : Encoding image options clock a h q p e size)

include enc

theorem view_checksumField : (e.view image options).checksumField =
    headerStart options.target + fileHeaderSize + checksumPosition := by
  rw [FileView.checksumField, enc.view_optionalHeader]

/-! ## What the reader finds -/

section Reader

variable {d : List UInt8}
  (hd : SameApart (headerStart options.target + fileHeaderSize + checksumPosition) 4 d e.bytes)

include hd

/-- A number of the headers is read. -/
theorem reader_number {o width : Nat} (hin : o + width ≤ h.headers.virtSize)
    (hapart : o + width ≤ headerStart options.target + fileHeaderSize + checksumPosition ∨
      headerStart options.target + fileHeaderSize + checksumPosition + 4 ≤ o) (part : ImagePart) :
    (⟨d, image.order⟩ : ImageReader).number width o part =
      .ok ((e.view image options).number width o) := by
  have hle : h.headers.virtSize ≤ h.headersSize := virtSize_le_align _ _
  have hfile := enc.headersSize_le
  have hlength := hd.length_eq
  rw [ImageReader.number_eq (show o + width ≤ d.length by omega)]
  show Except.ok (image.order.toNat (bytesAt d o width)) = _
  rw [hd.bytesAt_eq hapart]
  rfl

/-- The file header is found. -/
theorem reader_fileHeaderOffset :
    (⟨d, image.order⟩ : ImageReader).fileHeaderOffset = .ok (headerStart options.target) := by
  have hle := enc.checksum_le
  have hfile := enc.headersSize_le
  have hlength := hd.length_eq
  have hfront : d.take 2 = bytesAt e.bytes 0 2 :=
    hd.bytesAt_eq (p := 0) (n := 2) (.inl (by rw [checksumPosition]; omega))
  unfold ImageReader.fileHeaderOffset
  by_cases hobj : options.target = .obj
  · have hstart : headerStart options.target = 0 := by rw [headerStart, if_pos hobj]
    obtain ⟨machine, hmachine⟩ := enc.lays.machine
    have hread := enc.number_eq rfl (hmachine _) (by rw [checksumPosition]; omega)
    rw [LinkValue.toNat_ofSize (Nat.lt_trans machine.raw.toNat_lt (by decide)), hstart] at hread
    rw [if_neg fun hdos => machine.raw_ne_dosSignature image.order ?_, hstart]
    rw [← hread, ← hdos]
    exact congrArg image.order.toNat hfront
  · have hstart : headerStart options.target = dosHeaderSize + 4 := by rw [headerStart, if_neg hobj]
    have hleads := enc.lays.leads hobj p.binding.env
    have hposition := enc.number_eq rfl hleads.position (by rw [hstart]; decide)
    have hdos := enc.finished.values _ _ _ _ _ enc.agrees_env (by rw [hstart]; decide)
      (enc.places.holds_headers hleads.dos)
    have hpe := enc.finished.values _ _ _ _ _ enc.agrees_env (by rw [hstart]; decide)
      (enc.places.holds_headers hleads.pe)
    rw [show FieldType.u16.encodeValue dosMagic .little = .ok dosSignature by decide +kernel,
      Except.ok.injEq] at hdos
    rw [show FieldType.u32.encodeValue peMagic .little = .ok peSignature by decide +kernel,
      Except.ok.injEq] at hpe
    have hin := (hleads.position).inside
    rw [if_pos (show d.take 2 = dosSignature from hfront.trans hdos.symm)]
    refine bind_eq_ok.2 ⟨dosHeaderSize, ?_, bind_eq_ok.2 ⟨peSignature, ?_, ?_⟩⟩
    · rw [← show (e.view image options).number 4 headerOffsetPosition = dosHeaderSize from hposition]
      exact enc.reader_number hd hin (.inl (by rw [hstart]; decide)) _
    · rw [ImageReader.bytes_eq (show dosHeaderSize + 4 ≤ d.length by omega), hpe]
      exact congrArg Except.ok (hd.bytesAt_eq (.inl (by rw [hstart]; decide)))
    · rw [if_pos rfl, hstart]
      rfl

/-- The places and sizes of the sections are read. -/
theorem reader_sectionBytes (hlen : e.bytes.length < UInt64.size)
    (hraw : ∀ s ∈ image.sections, s.rawSize = none) :
    (⟨d, image.order⟩ : ImageReader).sectionBytes (q.placed.map PlacedSection.extent).length
        (headerStart options.target + fileHeaderSize + size) =
      .ok ((q.placed.map PlacedSection.extent).map fun x => bytesAt d x.1 x.2) := by
  have hlarge := enc.lays.large
  have hlength := hd.length_eq
  have hrows : ∀ i r, q.placed[i]? = some r → sectionHeaderSize * i + sectionHeaderSize ≤
      sectionHeaderSize * h.image.sections.length := fun i r hr => by
    have hi := (List.getElem?_eq_some_iff.1 hr).1
    rw [enc.length_placed] at hi
    exact Nat.mul_succ _ _ ▸ Nat.mul_le_mul_left _ hi
  have hstop := enc.lays.stop
  refine ImageReader.sectionBytes_eq (fun i x hx => ?_) (fun i x hx => ?_) fun x hx => ?_
  · obtain ⟨r, hr, rfl⟩ := Option.map_eq_some_iff.1 (List.getElem?_map ▸ hx)
    have hin := hrows i r hr
    rw [sectionHeaderSize] at hin
    rw [ImageReader.word,
      enc.reader_number hd (by rw [hstop, sectionHeaderSize]; omega) (.inr (by omega)),
      ← enc.view_extent hlen hraw hr, FileView.extent, enc.view_sectionTable]
  · obtain ⟨r, hr, rfl⟩ := Option.map_eq_some_iff.1 (List.getElem?_map ▸ hx)
    have hin := hrows i r hr
    rw [sectionHeaderSize] at hin
    rw [ImageReader.word,
      enc.reader_number hd (by rw [hstop, sectionHeaderSize]; omega) (.inr (by omega)),
      ← enc.view_extent hlen hraw hr, FileView.extent, enc.view_sectionTable]
  · obtain ⟨r, hr, rfl⟩ := List.mem_map.1 hx
    obtain ⟨i, hi⟩ := List.mem_iff_getElem?.1 hr
    obtain ⟨_, -, -, address, hat⟩ := exists_left_of_forall₂ enc.places.sections hi
    exact hlength ▸ enc.rawAddress_le hat

/-- The sizes in the headers are read. -/
theorem reader_sizes (hlen : e.bytes.length < UInt64.size) :
    (⟨d, image.order⟩ : ImageReader).half (headerStart options.target + 2) .sectionCount =
        .ok h.image.sections.length ∧
      (⟨d, image.order⟩ : ImageReader).half (headerStart options.target + 16) .optionalHeaderSize =
        .ok size ∧
      (⟨d, image.order⟩ : ImageReader).word
        (headerStart options.target + fileHeaderSize + headersSizePosition) .headersSize =
          .ok h.headersSize := by
  have hlarge := enc.lays.large
  have hstop := enc.lays.stop
  have hbefore : ∀ k, k + 2 ≤ fileHeaderSize → headerStart options.target + k + 2 ≤
      headerStart options.target + fileHeaderSize + checksumPosition := fun k hk => by omega
  have hwithin : headerStart options.target + fileHeaderSize + checksumPosition ≤
      h.headers.virtSize := by omega
  have hcount := hbefore 2 (by decide)
  have hoptional := hbefore 16 (by decide)
  have hheaders : headerStart options.target + fileHeaderSize + headersSizePosition + 4 ≤
      headerStart options.target + fileHeaderSize + checksumPosition := Nat.le_refl _
  refine ⟨?_, ?_, ?_⟩
  · rw [ImageReader.half, enc.reader_number hd (Nat.le_trans hcount hwithin) (.inl hcount),
      ← enc.view_sectionCount, FileView.sectionCount, enc.view_fileHeader]
    rfl
  · have htable := enc.view_sectionTable
    rw [FileView.sectionTable, enc.view_optionalHeader, enc.view_fileHeader] at htable
    rw [ImageReader.half, enc.reader_number hd (Nat.le_trans hoptional hwithin) (.inl hoptional)]
    exact congrArg Except.ok (Nat.add_left_cancel htable)
  · rw [ImageReader.word, enc.reader_number hd (Nat.le_trans hheaders hwithin) (.inl hheaders),
      ← enc.view_headersSize hlen, FileView.headersSize, enc.view_optionalHeader]

/-- **The checksum covers the whole file**, whatever stands in its field. -/
theorem checkedBytes_eq (hlen : e.bytes.length < UInt64.size)
    (hraw : ∀ s ∈ image.sections, s.rawSize = none) :
    (⟨d, image.order⟩ : ImageReader).checkedBytes = .ok (e.view image options).unsummed := by
  have hlength := hd.length_eq
  have hle := enc.checksum_le
  have hfile := enc.headersSize_le
  have hplaced : (q.placed.map PlacedSection.extent).length = h.image.sections.length := by
    rw [List.length_map, enc.length_placed]
  obtain ⟨hcount, hoptional, hheaders⟩ := enc.reader_sizes hd hlen
  rw [ImageReader.checkedBytes_eq (enc.reader_fileHeaderOffset hd) (hplaced ▸ hcount) hoptional
    hheaders hle (by rw [hlength]; exact hfile) (enc.reader_sectionBytes hd hlen hraw)]
  dsimp only
  have hsections : ((q.placed.map PlacedSection.extent).map fun x => bytesAt d x.1 x.2).flatten =
      bytesAt d h.headersSize (d.length - h.headersSize) := by
    rw [List.map_map, hlength, enc.length_bytes]
    exact enc.places.tiles.flatten d
  have hwhole : bytesAt d 0 h.headersSize ++ bytesAt d h.headersSize (d.length - h.headersSize) =
      d := by
    have happend := bytesAt_append d 0 h.headersSize (d.length - h.headersSize)
    rwa [Nat.zero_add, Nat.add_sub_cancel' (by omega), bytesAt_self] at happend
  rw [hsections, ← overwrite_append_left (by
    rw [length_bytesAt (by omega), List.length_replicate]
    exact hle), hwhole, hd.overwrite_eq List.length_replicate (by omega), ← enc.view_checksumField]
  rfl

/-- What is computed from a file with any checksum. -/
theorem checksum_eq (hlen : e.bytes.length < UInt64.size)
    (hraw : ∀ s ∈ image.sections, s.rawSize = none) :
    checksum d image.order = .ok (UInt32.ofNat (onesComplementSum
      (halves image.order (e.view image options).unsummed) + e.bytes.length)) := by
  have hle := enc.checksum_le
  have hfile := enc.headersSize_le
  have hlength : (e.view image options).unsummed.length = e.bytes.length := by
    rw [FileView.unsummed, length_overwrite]
    · rfl
    · rw [enc.view_checksumField, List.length_replicate]
      exact Nat.le_trans hle hfile
  rw [checksum, enc.checkedBytes_eq hd hlen hraw]
  show Except.ok _ = _
  rw [foldedSum_eq (halves_lt _ _), hlength]

end Reader

/-! ## What is written -/

/-- Without automatic imports and fixed sizes in the file, nothing gives the label of the checksum a
value. -/
theorem checksum_unbound (hraw : ∀ s ∈ image.sections, s.rawSize = none)
    (hcatalog : options.catalog = none) {label : String} (hlabel : h.pending.checksum = some label) :
    p.binding.get? label = none := by
  obtain ⟨pool, hpool⟩ := enc.labelled
  have hfresh := hpool.checksum label hlabel
  by_contra hbound
  have hmem := Binding.isSome_get?.1 (Option.ne_none_iff_isSome.1 hbound)
  rw [enc.labels_binding] at hmem
  rcases hpool.noted label hmem with hknown | himport | hleft
  · exact hfresh hknown
  · rcases hpool.imports label himport with hknown | ⟨catalog, hsome, -⟩
    · exact hfresh hknown
    · rw [hcatalog] at hsome
      exact nomatch hsome
  · rw [leftoverLabels_eq_nil hraw] at hleft
    exact nomatch hleft

/-- **The checksum is computed and written.** -/
theorem exists_checksum (hlen : e.bytes.length < UInt64.size)
    (hraw : ∀ s ∈ image.sections, s.rawSize = none) (hcatalog : options.catalog = none)
    (hnone : image.optionalHeader.checksum = none) :
    ∃ c, e.checksum = some c ∧
      (e.view image options).number 4 (e.view image options).checksumField = c.toNat ∧
      c = UInt32.ofNat (onesComplementSum
        (halves image.order (e.view image options).unsummed) + e.bytes.length) := by
  obtain ⟨label, hlabel⟩ := enc.lays.missing (by rw [enc.continued.optionalHeader]; exact hnone)
  obtain ⟨output, hfix, hwrite, hwritten, honly, hsame⟩ := enc.exists_output
  -- the field of the checksum has no value yet
  have hpending : output.fields.get? (headerStart options.target + fileHeaderSize +
      checksumPosition) = some ⟨.label label, .u32, image.order⟩ := by
    rw [get?_fields_fixup hfix, fields_fill, enc.places.get?_checksum enc.lays label hlabel,
      enc.encoder_eq, Option.filter_some,
      Expr.constantUnder_label (enc.checksum_unbound hraw hcatalog hlabel)]
    rfl
  obtain heq | ⟨name, k, f, binding, sum, hname, htarget, hk, hfixed, hsum, hvalue, hget⟩ :=
    writeChecksum_eq_ok hwrite
  · rw [← heq, enc.finished.pending] at hpending
    cases hpending
  · obtain rfl : label = name := Option.some.inj (hlabel.symm.trans hname)
    have horder : h.context.encoder.order = image.order := by
      rw [enc.lays.context.1, enc.encoder_eq]
    rw [horder, enc.checksum_eq (hsame.symm) hlen hraw, Except.ok.injEq] at hsum
    refine ⟨sum, hvalue, ?_, hsum.symm⟩
    have hconstant : (Expr.label label).constantUnder binding = some (.ofSize sum.toNat) := by
      rw [Expr.constantUnder, Expr.bind, Expr.subst, hget]
      rfl
    have hbytes := bytesAt_fixup hfixed hpending hconstant fun j g hg hj => by
      rw [honly j hj] at hg
      cases hg
    have hread := FieldType.toNat_encodeValue rfl hbytes
    rw [LinkValue.toNat_ofSize (Nat.lt_trans sum.toNat_lt (by decide))] at hread
    rw [enc.view_checksumField]
    exact hread

end Encoding

/-- **The checksum of every file is right.**  No checksum is given, no section has a fixed size in the
file, and nothing is imported automatically.  Then the checksum is returned; the file has it in its
field; and who computes the checksum of the file finds it again.  It is the sum of the halves of the
whole file in one's complement, its own field counting as zero, and the length of the file. -/
theorem encodeImage_checksum {image : Image} {options : EncodeOptions} {clock : UInt32}
    {e : EncodedImage} (he : (encodeImage image options clock).result = .ok e)
    (hlen : e.bytes.length < UInt64.size) (hraw : ∀ s ∈ image.sections, s.rawSize = none)
    (hcatalog : options.catalog = none) (hnone : image.optionalHeader.checksum = none) :
    ∃ c, e.checksum = some c ∧
      (e.view image options).number 4 (e.view image options).checksumField = c.toNat ∧
      checksum e.bytes image.order = .ok c ∧
      c = UInt32.ofNat (onesComplementSum
        (halves image.order (e.view image options).unsummed) + e.bytes.length) := by
  obtain ⟨a, h, q, p, size, enc⟩ := encodeImage_eq_ok he
  obtain ⟨c, hreturned, hwritten, hvalue⟩ := enc.exists_checksum hlen hraw hcatalog hnone
  refine ⟨c, hreturned, hwritten, ?_, hvalue⟩
  rw [enc.checksum_eq (.refl _ _ _) hlen hraw, ← hvalue]

/-- An object file of an odd length. -/
def oddObject : Image :=
  { Image.empty with
    order := .big
    sections := [.new ".text" (.read ||| .execute) (ofBytes [1, 2, 3])]
    optionalHeader := { OptionalHeader.empty with fileAlignment := some 1 } }

theorem encodeImage_checksum_oddObject :
    ∃ e, (encodeImage oddObject (.new .obj) 0).result = .ok e ∧ e.bytes.length = 335 ∧
      e.checksum = some 50562 ∧
      (e.view oddObject (.new .obj)).number 4 (e.view oddObject (.new .obj)).checksumField = 50562 ∧
      checksum e.bytes .big = .ok 50562 := by
  obtain ⟨e, he, hlength, hchecksum⟩ : ∃ e, (encodeImage oddObject (.new .obj) 0).result = .ok e ∧
      e.bytes.length = 335 ∧ e.checksum = some 50562 := exists_encodeImage (by decide +kernel)
  obtain ⟨c, hc, hwritten, hagain, -⟩ := encodeImage_checksum he
    (by rw [hlength]; decide) (by decide) rfl rfl
  obtain rfl : 50562 = c := Option.some.inj (hchecksum.symm.trans hc)
  exact ⟨e, he, hlength, hchecksum, hwritten, hagain⟩

end PortableImage
