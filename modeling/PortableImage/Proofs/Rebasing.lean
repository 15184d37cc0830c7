import PortableImage.Proofs.Encode.OnePass
import PortableImage.Proofs.Rebase.Places

/-!
# Moving an image to another base

The preferred address is one number in the headers, but it is in every absolute address of the file.
The base relocations say where these are.

* `Encoding.getElem?_rebased` — behind the headers, two files of an image at two bases.
* `EncodedAtBases`, `ToldAtBases` — two encodings whose fields can be told apart.
* `encodeImage_rebased` — the second file has the sections of the first, as a loader changes them.
* `encodeImage_unlike` — images for which this does not hold.
-/

set_option autoImplicit false

namespace PortableImage

open Buffer

namespace Encoding

variable {image : Image} {options : EncodeOptions} {clock : UInt32} {a : Assembly}
  {h : HeadedImage} {q p : Placement} {e : EncodedImage} {size : Nat}
  (enc : Encoding image options clock a h q p e size)

include enc

/-- The section that was placed as `r` is in the file as it was fixed up. -/
theorem exists_fixup_placed (htables : a.tablesInPlace = [])
    (hwritten : ∀ s ∈ image.sections, s.content.FieldsWritten) {i : Nat} {r : PlacedSection}
    (hr : q.placed[i]? = some r) : ∃ s x, h.image.sections[i]? = some s ∧
      s.content.fixup p.binding = .ok x ∧ x.data.length ≤ r.rawSize ∧
      bytesAt e.bytes r.rawAddress r.rawSize = padTo r.rawSize x.data := by
  obtain ⟨s, hs, -⟩ := exists_left_of_forall₂ enc.places.sections hr
  obtain ⟨s', hs', x, hx, rfl⟩ := exists_right_of_forall₂ enc.finished.sections hs
  exact ⟨s, x, hs, hx, enc.bytesAt_placed htables hwritten hs' hr⟩

section Other

variable {base : Option UInt64} {h' : HeadedImage} {q' p' : Placement} {e' : EncodedImage}
  {size' : Nat} {d : LinkValue} {n : Nat}
  (enc' : Encoding (image.withBase base) options clock (a.withBase base) h' q' p' e' size')
  (hsame : h'.image.sections = h.image.sections) (hplaced : q'.placed = q.placed)
  (htables : a.tablesInPlace = [])
  (hmoved : Moved (e.Moving image options clock) d p.binding.env p'.binding.env)
  (hwants : options.wantsRelocations = true)
  (hwritten : ∀ s ∈ image.sections, s.content.FieldsWritten)
  (hapart : ∀ s ∈ relocationSections image options clock, s.content.FieldsApart)
  (htold : image.FieldsTold options clock (e.Moving image options clock) d)
  (hd : n % 2 ^ 64 = d.toNat % 2 ^ 64)

include enc' hsame hplaced htables hmoved hwants hwritten hapart htold hd

/-- **What the two files have in the place of a section.** -/
theorem dataMoved_placed {i : Nat} {r : PlacedSection} (hr : q.placed[i]? = some r) :
    DataMoved image.order image.encoder.addressType.width n
      (fun k => (i, k) ∈ relocatedFields image options clock)
      (bytesAt e.bytes r.rawAddress r.rawSize) (bytesAt e'.bytes r.rawAddress r.rawSize) := by
  obtain ⟨s, x, hs, hx, -, hbytes⟩ := enc.exists_fixup_placed htables hwritten hr
  obtain ⟨s', x', hs', hx', -, hbytes'⟩ := enc'.exists_fixup_placed htables hwritten (hplaced ▸ hr)
  rw [hsame, hs, Option.some.injEq] at hs'
  subst hs'
  rw [hbytes, hbytes']
  exact ((enc.moves enc' hsame htables hmoved hwants hwritten hapart htold hs).dataMoved hx hx'
    image.encoder.signed_addressType hd).padTo

/-- **Behind the headers, the second file is the first one with the distance of the bases added to the
fields that get a base relocation.** -/
theorem getElem?_rebased {a₀ : Assembly} {b : Binding}
    (hat : atRelocations image options clock = .ok (a₀, b)) (hgrow : a₀.Continues a)
    (hlength : e'.bytes.length = e.bytes.length) {j : Nat} (hj : h.headersSize ≤ j) :
    e'.bytes[j]? = ((relocatedPlaces a₀.context b a₀.image.sections q.placed).foldl
      (addAt image.order image.encoder.addressType.width n) e.bytes)[j]? := by
  have hkeeps := continues_atRelocations hat
  have hinside : ∀ (i : Nat) s₀ r, a₀.image.sections[i]? = some s₀ → q.placed[i]? = some r →
      ∀ k ∈ relocatedOffsets a₀.context b s₀, k + image.encoder.addressType.width ≤ r.rawSize :=
    fun i s₀ r hs₀ hr k hk => enc.relocated_le hat hwritten hgrow hs₀ hr hk
  have hend : ∀ (i : Nat) r, q.placed[i]? = some r → r.rawAddress + r.rawSize ≤ e.bytes.length := by
    intro i r hr
    obtain ⟨_, -, -, address, hsection⟩ := exists_left_of_forall₂ enc.places.sections hr
    exact enc.rawAddress_le hsection
  refine getElem?_eq_foldl_addAt (fun o ho => ?_) ?_ (fun o ho => ?_) fun hfree => ?_
  · obtain ⟨i, s₀, r, k, hs₀, hr, hk, rfl⟩ := mem_relocatedPlaces.1 ho
    have hle := hinside i s₀ r hs₀ hr k hk
    have hsize := hend i r hr
    omega
  · refine ascending_relocatedPlaces enc.places.ordered (fun f hf => ?_) ?_ hinside
    · rw [type_of_needsRelocation hf, show a₀.context.encoder = image.encoder from hkeeps.context.1]
    · rwa [relocationSections, hat] at hapart
  · obtain ⟨i, s₀, r, k, hs₀, hr, hk, rfl⟩ := mem_relocatedPlaces.1 ho
    have hsection :=
      enc.dataMoved_placed enc' hsame hplaced htables hmoved hwants hwritten hapart htold hd hr
    have hle := hinside i s₀ r hs₀ hr k hk
    have hfield := (hsection.changed k ((mem_relocatedFields hat).2 ⟨s₀, hs₀, hk⟩)).2
    rwa [bytesAt_bytesAt hle, bytesAt_bytesAt hle] at hfield
  · by_cases hlt : j < e.bytes.length
    · rw [enc.length_bytes] at hlt
      obtain ⟨r, hmem, hle, hin⟩ := enc.places.tiles.exists_covering hj hlt
      obtain ⟨i, hr⟩ := List.mem_iff_getElem?.1 hmem
      have hsection :=
        enc.dataMoved_placed enc' hsame hplaced htables hmoved hwants hwritten hapart htold hd hr
      have hbyte := hsection.same (j - r.rawAddress) fun k hk => ?_
      · rwa [getElem?_bytesAt, getElem?_bytesAt, if_pos (by omega), if_pos (by omega),
          Nat.add_sub_cancel' hle] at hbyte
      · obtain ⟨s₀, hs₀, hk⟩ := (mem_relocatedFields hat).1 hk
        have hcases := hfree _ (mem_relocatedPlaces.2 ⟨i, s₀, r, k, hs₀, hr, hk, rfl⟩)
        omega
    · rw [List.getElem?_eq_none (by omega), List.getElem?_eq_none (by omega)]

end Other

end Encoding

/-! ## The law -/

/-- An image was encoded at two bases, which are multiples of the section alignment, and base
relocations were looked for.  No address table is written in place, and the pending fields lie in the
bytes of their sections, apart from each other. -/
structure EncodedAtBases (image : Image) (options : EncodeOptions) (clock : UInt32)
    (base : Option UInt64) (e e' : EncodedImage) : Prop where
  first : (encodeImage image options clock).result = .ok e
  second : (encodeImage (image.withBase base) options clock).result = .ok e'
  wants : options.wantsRelocations = true
  tables : tablesInPlace image options clock = []
  length : e.bytes.length < UInt64.size
  length' : e'.bytes.length < UInt64.size
  aligned : (e.view image options).sectionAlignment ∣ (e.view image options).imageBase
  aligned' : (e.view image options).sectionAlignment ∣
    (e'.view (image.withBase base) options).imageBase
  written : ∀ s ∈ image.sections, s.content.FieldsWritten
  apart : ∀ s ∈ relocationSections image options clock, s.content.FieldsApart

/-- Every field holds an address in the image, or does not depend on where the image lies. -/
def ToldAtBases (image : Image) (options : EncodeOptions) (clock : UInt32) (base : Option UInt64)
    (e e' : EncodedImage) : Prop :=
  image.FieldsTold options clock (e.Moving image options clock)
    (.ofSize (e'.view (image.withBase base) options).imageBase -
      .ofSize (e.view image options).imageBase)

/-- The data have the same bytes from the start of every section on. -/
def FileView.SameSections (v : FileView) (data data' : List UInt8) : Prop :=
  ∀ r ∈ v.sections, ∀ n, bytesAt data r.rawAddress n = bytesAt data' r.rawAddress n

/-- **Moving an image to another base is adding the distance of the bases to the fields that its base
relocations list.**  Every field holds an address or does not depend on where the image lies, the
fields with base relocations start in the part of their section that is in memory, and both images end
before the last unit of the address space.  The second file then has the sections of the first where
the first has them, as they are after a loader has put the first at the second base. -/
theorem encodeImage_rebased {image : Image} {options : EncodeOptions} {clock : UInt32}
    {base : Option UInt64} {e e' : EncodedImage}
    (h : EncodedAtBases image options clock base e e') (hroom : (e.view image options).Room)
    (hroom' : (e'.view (image.withBase base) options).Room)
    (hmemory : ∀ x ∈ relocatedFields image options clock,
      ∀ r ∈ (e.view image options).sections[x.1]?, x.2 < r.virtSize)
    (htold : ToldAtBases image options clock base e e') :
    (e'.view (image.withBase base) options).sections = (e.view image options).sections ∧
      ∃ place size, e.BlocksAt (e.view image options) place size ∧
        (e.view image options).SameSections e'.bytes
          ((e.view image options).loadedAt (e'.view (image.withBase base) options).imageBase
            ((e.view image options).relocations place size)) := by
  obtain ⟨he, he', hwants, htables, hlen, hlen', hbase, hbase', hwritten, hapart⟩ := h
  obtain ⟨a, h, q, p, size, enc⟩ := encodeImage_eq_ok he
  obtain ⟨a', h', q', p', size', enc'⟩ := encodeImage_eq_ok he'
  have hassembled : _ = Except.ok (a.withBase base) :=
    Assembly.withDirectories_withBase base enc.assembled
  rw [show (Assembly.start image (options.timestamp.getD clock)).withBase base =
    Assembly.start (image.withBase base) (options.timestamp.getD clock) from rfl, enc'.assembled,
    Except.ok.injEq] at hassembled
  subst hassembled
  rw [enc.tablesInPlace_eq] at htables
  obtain ⟨a₀, b, tables, content, label, hat, -, hgrow, hrel⟩ := enc.exists_relocates hwants
  have halong := enc.alongside enc' hwants htables hlen hlen' hbase hbase' hroom hroom'
  have hmoved := enc.moved enc' hwants hlen hlen' halong
  have hsame : h'.image.sections = h.image.sections := by
    rw [(Assembly.withHeaders_withBase base enc.headed enc'.headed).1]
    rfl
  have hplaced : q'.placed = q.placed := by
    rw [← enc'.places.tables.placed, halong.placed, enc.places.tables.placed]
  have hlength : e'.bytes.length = e.bytes.length := by
    rw [enc.finished.size, enc'.finished.size, halong.size]
  obtain ⟨place, size, hplace, hloaded⟩ :=
    enc.loadedAt_eq hat hwritten hrel htables hlen hroom hmemory
  have hsections := enc.view_sections hlen
  refine ⟨?_, place, size, hplace, fun r hr m => bytesAt_congr fun j _ => ?_⟩
  · rw [hsections, enc'.view_sections hlen', hplaced]
  · rw [hsections] at hr
    obtain ⟨s, hs, rfl⟩ := List.mem_map.1 hr
    obtain ⟨i, hi⟩ := List.mem_iff_getElem?.1 hs
    obtain ⟨_, -, hheaders, -⟩ := exists_left_of_forall₂ enc.places.sections hi
    rw [ToldAtBases, enc.view_imageBase, enc'.view_imageBase] at htold
    rw [hloaded, enc.view_imageBase, enc'.view_imageBase]
    exact enc.getElem?_rebased enc' hsame hplaced htables hmoved hwants hwritten hapart htold
      (LinkValue.toNat_distance h'.base_lt h.base_lt) hat hgrow hlength
      (Nat.le_trans hheaders (Nat.le_add_right _ _))

/-- Two encodings at two bases, and what can be evaluated of them. -/
theorem exists_encodedAtBases {image : Image} {options : EncodeOptions} {clock : UInt32}
    {base : Option UInt64} {P : EncodedImage → EncodedImage → Prop} [∀ e e', Decidable (P e e')]
    (hwants : options.wantsRelocations = true) (htables : tablesInPlace image options clock = [])
    (hwritten : ∀ s ∈ image.sections, s.content.FieldsWritten)
    (hapart : ∀ s ∈ relocationSections image options clock, s.content.FieldsApart)
    (h : ((encodeOnce image options clock).toOption.any fun e =>
      (encodeOnce (image.withBase base) options clock).toOption.any fun e' =>
        (e.bytes.length < UInt64.size ∧ e'.bytes.length < UInt64.size ∧
          (e.view image options).sectionAlignment ∣ (e.view image options).imageBase ∧
          (e.view image options).sectionAlignment ∣
            (e'.view (image.withBase base) options).imageBase) ∧ P e e') = true) :
    ∃ e e', EncodedAtBases image options clock base e e' ∧ P e e' := by
  rw [← encodeImage_eq_encodeOnce, ← encodeImage_eq_encodeOnce] at h
  obtain ⟨e, hsome, h⟩ := (Option.any_eq_true _ _).1 h
  obtain ⟨e', he', ⟨hlen, hlen', hbase, hbase'⟩, hP⟩ := exists_eq_ok h
  exact ⟨e, e', ⟨toOption_eq_some.1 hsome, he', hwants, htables, hlen, hlen', hbase, hbase', hwritten,
    hapart⟩, hP⟩

/-- A library whose code has the address of a number, and how far it is from the start of the code. -/
def addressAndDistance : Image :=
  { Image.empty with
    sections := [
      .new ".text" (.read ||| .execute)
        ((placeholder (.label "number" + .ofSize 2) .u32 .little ++
          placeholder (.label "number" - .label "entry") .u32 .little).addExport "entry" 0),
      .new ".data" (.read ||| .write) ((ofBytes [1, 2, 3, 4, 5, 6, 7, 8]).addExport "number" 4)]
    optionalHeader := { OptionalHeader.empty with fileAlignment := some 16 } }

theorem encodeImage_rebased_addressAndDistance :
    ∃ e e', EncodedAtBases addressAndDistance (.new .dll) 0 (some 0x500000) e e' ∧
      ∃ place size, e.BlocksAt (e.view addressAndDistance (.new .dll)) place size ∧
        (e.view addressAndDistance (.new .dll)).SameSections e'.bytes
          ((e.view addressAndDistance (.new .dll)).loadedAt 0x500000
            ((e.view addressAndDistance (.new .dll)).relocations place size)) := by
  obtain ⟨e, e', h, hbase, hbase', hmemory⟩ :
      ∃ e e', EncodedAtBases addressAndDistance (.new .dll) 0 (some 0x500000) e e' ∧
        (e.view addressAndDistance (.new .dll)).imageBase = 0x400000 ∧
        (e'.view (addressAndDistance.withBase (some 0x500000)) (.new .dll)).imageBase = 0x500000 ∧
        ∀ x ∈ relocatedFields addressAndDistance (.new .dll) 0,
          ∀ r ∈ (e.view addressAndDistance (.new .dll)).sections[x.1]?, x.2 < r.virtSize :=
    exists_encodedAtBases rfl (by decide +kernel) (by decide) (by decide +kernel)
      (by decide +kernel)
  have hlaw := (encodeImage_rebased h (FileView.room_of_imageBase_le (by rw [hbase]; decide))
    (FileView.room_of_imageBase_le (by rw [hbase']; decide)) hmemory
    (EncodedImage.fieldsTold_of_net (by decide +kernel))).2
  rw [hbase'] at hlaw
  exact ⟨e, e', h, hlaw⟩

/-! ## Where the law does not hold -/

/-- Adding the distance of the bases to what the blocks of the first file list does not give the
sections of the second. -/
def UnlikeAtBases (image : Image) (options : EncodeOptions) (base : Option UInt64)
    (e e' : EncodedImage) : Prop :=
  ∃ place size, e.BlocksAt (e.view image options) place size ∧
    ¬ (e.view image options).SameSections e'.bytes
      ((e.view image options).loadedAt (e'.view (image.withBase base) options).imageBase
        ((e.view image options).relocations place size))

/-- The pending fields have the same bytes in both files. -/
def EncodedImage.SameFields (e e' : EncodedImage) (v : FileView) (sections : List Section) : Prop :=
  ∀ x ∈ sections.zip v.sections, ∀ f ∈ x.1.content.fields.entries,
    bytesAt e.bytes (x.2.rawAddress + f.1) f.2.type.width =
      bytesAt e'.bytes (x.2.rawAddress + f.1) f.2.type.width

instance (e e' : EncodedImage) (v : FileView) (sections : List Section) :
    Decidable (e.SameFields e' v sections) := by
  unfold EncodedImage.SameFields
  infer_instance

/-- The blocks take `size` bytes from the start of the section with the index `i` on, and one of the
first `n` bytes of a section is not what it should be. -/
def DiffersAtBases (image : Image) (options : EncodeOptions) (base : Option UInt64) (i size n : Nat)
    (e e' : EncodedImage) : Prop :=
  e.image.directory? .baseRelocationTable =
      some ⟨.label "reloc_table" - .label "coff_start", .ofSize size⟩ ∧
    ∃ s ∈ e.image.sections[i]?, ("reloc_table", 0) ∈ s.content.exports ∧
      ∃ r ∈ (e.view image options).sections[i]?, ∃ r' ∈ (e.view image options).sections,
        bytesAt e'.bytes r'.rawAddress n ≠ bytesAt ((e.view image options).loadedAt
          (e'.view (image.withBase base) options).imageBase
          ((e.view image options).relocations r.rawAddress size)) r'.rawAddress n

instance (image : Image) (options : EncodeOptions) (base : Option UInt64) (i size n : Nat)
    (e e' : EncodedImage) : Decidable (DiffersAtBases image options base i size n e e') := by
  unfold DiffersAtBases
  infer_instance

theorem DiffersAtBases.unlike {image : Image} {options : EncodeOptions} {base : Option UInt64}
    {i size n : Nat} {e e' : EncodedImage}
    (h : DiffersAtBases image options base i size n e e') :
    UnlikeAtBases image options base e e' := by
  obtain ⟨hdirectory, s, hs, hlabel, r, hr, r', hr', hne⟩ := h
  exact ⟨r.rawAddress, size, ⟨_, _, r, 0, hdirectory, ⟨i, s, hs, hr, hlabel⟩, rfl⟩,
    fun hsame => hne (hsame r' hr' n)⟩

/-- A library whose code has an address behind the one byte that is in memory, where the data start. -/
def hiddenBytes : Image :=
  { Image.empty with
    sections := [
      { Section.new ".text" (.read ||| .execute)
          ((ofBytes (List.replicate 16 0x90) ++ placeholder (.label "entry") .u32 .little).addExport
            "entry" 0) with
        virtSize := some 1 },
      .new ".data" (.read ||| .write) (ofBytes [1, 2, 3, 4, 5, 6, 7, 8])]
    optionalHeader :=
      { OptionalHeader.empty with sectionAlignment := some 16, fileAlignment := some 16 } }

/-- A library with a field that holds an address if the sections lie one behind the other.  Rounded up,
they do not, and it holds zero. -/
def maskedLabel : Image :=
  { Image.empty with
    sections := [
      .new ".text" (.read ||| .execute) ((ofBytes (List.replicate 8 0x90)).addExport "stop" 8),
      .new ".data" (.read ||| .write)
        ((placeholder (.label "data" - (.label "data" &&& (.label "stop" - .label "data"))) .u32
          .little).addExport "data" 0)]
    optionalHeader :=
      { OptionalHeader.empty with sectionAlignment := some 16, fileAlignment := some 16 } }

/-- A library with the address of its code. -/
def ownAddress : Image :=
  { Image.empty with
    pe64 := true
    sections := [.new ".text" (.read ||| .execute)
      ((placeholder (.label "entry") .u64 .little).addExport "entry" 0)]
    optionalHeader := { OptionalHeader.empty with fileAlignment := some 16 } }

/-- **The law does not hold for all images.**  A field that gets a base relocation may lie behind the
part of its section that is in memory, where another section is; a field may hold an address in the
provisional layout and none in the final one; and the end of the address space may be too near. -/
theorem encodeImage_unlike :
    (∃ e e', EncodedAtBases hiddenBytes (.new .dll) 0 (some 0x500000) e e' ∧
      ToldAtBases hiddenBytes (.new .dll) 0 (some 0x500000) e e' ∧
      UnlikeAtBases hiddenBytes (.new .dll) (some 0x500000) e e') ∧
    (∃ e e', EncodedAtBases maskedLabel (.new .dll) 0 (some 0x500000) e e' ∧
      e.SameFields e' (e.view maskedLabel (.new .dll))
        (relocationSections maskedLabel (.new .dll) 0) ∧
      UnlikeAtBases maskedLabel (.new .dll) (some 0x500000) e e') ∧
    ∃ e e', EncodedAtBases ownAddress (.new .dll) 0 (some 0xFFFFFFFFFFFFF000) e e' ∧
      ToldAtBases ownAddress (.new .dll) 0 (some 0xFFFFFFFFFFFFF000) e e' ∧
      UnlikeAtBases ownAddress (.new .dll) (some 0xFFFFFFFFFFFFF000) e e' := by
  refine ⟨?_, ?_, ?_⟩
  · obtain ⟨e, e', h, hdiffers⟩ :
        ∃ e e', EncodedAtBases hiddenBytes (.new .dll) 0 (some 0x500000) e e' ∧
          DiffersAtBases hiddenBytes (.new .dll) (some 0x500000) 2 12 32 e e' :=
      exists_encodedAtBases rfl (by decide +kernel) (by decide) (by decide +kernel)
        (by decide +kernel)
    exact ⟨e, e', h, EncodedImage.fieldsTold_of_net (by decide +kernel), hdiffers.unlike⟩
  · obtain ⟨e, e', h, hsame, hdiffers⟩ :
        ∃ e e', EncodedAtBases maskedLabel (.new .dll) 0 (some 0x500000) e e' ∧
          e.SameFields e' (e.view maskedLabel (.new .dll))
            (relocationSections maskedLabel (.new .dll) 0) ∧
          DiffersAtBases maskedLabel (.new .dll) (some 0x500000) 2 12 32 e e' :=
      exists_encodedAtBases rfl (by decide +kernel) (by decide) (by decide +kernel)
        (by decide +kernel)
    exact ⟨e, e', h, hsame, hdiffers.unlike⟩
  · obtain ⟨e, e', h, hdiffers⟩ :
        ∃ e e', EncodedAtBases ownAddress (.new .dll) 0 (some 0xFFFFFFFFFFFFF000) e e' ∧
          DiffersAtBases ownAddress (.new .dll) (some 0xFFFFFFFFFFFFF000) 1 12 32 e e' :=
      exists_encodedAtBases rfl (by decide +kernel) (by decide) (by decide +kernel)
        (by decide +kernel)
    exact ⟨e, e', h, EncodedImage.fieldsTold_of_net (by decide +kernel), hdiffers.unlike⟩

end PortableImage
