import PortableImage.Proofs.Header.Rows

/-!
# Where the headers hold what

The headers stand one behind the other: the DOS header and the signature (not in an object file),
the file header, the optional header, the section table.  This file says where the fields are that
readers of an image start from, and that they hold what they should.

* `headerStart` — where the file header is.
* `imageBasePosition` — where the optional header holds the image base.
* `HeadedImage.Lays` — the fields of the headers and what they hold.
* `lays_withHeaders` — the headers of an assembled image hold it.
-/

set_option autoImplicit false

namespace PortableImage

open Buffer

/-! ## The optional header -/

theorem labelled_firstRva (flag : SectionFlags) (sections : List Section) (c : Context) :
    List.Forall₂ Section.Labelled sections (firstRva flag sections c).2.1 ∧
      c.Keeps (firstRva flag sections c).2.2 := by
  induction sections with
  | nil => exact ⟨.nil, .refl c⟩
  | cons s rest ih =>
    unfold firstRva
    split
    · exact ⟨.cons (labelled_sectionRva c s) (List.forall₂_same.2 fun s _ => .refl s),
        keeps_sectionRva c s⟩
    · exact ⟨.cons (.refl s) ih.1, ih.2⟩

theorem labelled_rvaOr (given : Option Expr) (flag : SectionFlags) (sections : List Section)
    (c : Context) : List.Forall₂ Section.Labelled sections (rvaOr given flag sections c).2.1 ∧
      c.Keeps (rvaOr given flag sections c).2.2 := by
  cases given with
  | some rva => exact ⟨List.forall₂_same.2 fun s _ => .refl s, .refl c⟩
  | none => exact labelled_firstRva flag sections c

theorem checkAlignment_eq_ok {alignment : Alignment} {n : Nat}
    (h : checkAlignment alignment n = .ok ()) : isPowerOfTwo n = true := by
  unfold checkAlignment at h
  split at h
  · next hp => exact hp
  · exact nomatch h

/-- Filling in the defaults keeps what is given, and labels sections at most. -/
structure Defaults.Fills (d : Defaults) (c : Context) (h : OptionalHeader)
    (sections : List Section) : Prop where
  context : c.Keeps d.context
  sections : List.Forall₂ Section.Labelled sections d.sections
  imageBase : d.header.imageBase = h.imageBase
  checksum : d.header.checksum = h.checksum
  directoryCount : d.header.directoryCount = some (h.directoryCount.getD 16)
  sectionAlignment :
    d.header.sectionAlignment = some (h.sectionAlignment.getD defaultSectionAlignment)
  fileAlignment : d.header.fileAlignment = some (h.fileAlignment.getD defaultFileAlignment)
  sectionPower : isPowerOfTwo (h.sectionAlignment.getD defaultSectionAlignment).toNat = true
  filePower : isPowerOfTwo (h.fileAlignment.getD defaultFileAlignment).toNat = true

theorem fills_fillDefaults {c : Context} {h : OptionalHeader} {sections : List Section}
    {d : Defaults} (hd : fillDefaults c h sections = .ok d) : d.Fills c h sections := by
  simp only [fillDefaults, bind_eq_ok, pure_eq_ok] at hd
  obtain ⟨⟨⟩, hs, ⟨⟩, hf, codeSize, -, dataSize, -, bssSize, -, rfl⟩ := hd
  have hcode := labelled_rvaOr h.baseOfCode .containsCode sections c
  have hdata := labelled_rvaOr h.baseOfData .containsData
    (rvaOr h.baseOfCode .containsCode sections c).2.1
    (rvaOr h.baseOfCode .containsCode sections c).2.2
  exact ⟨hcode.2.trans hdata.2, forall₂_trans (fun _ _ _ => .trans) hcode.1 hdata.1,
    rfl, rfl, rfl, rfl, rfl, checkAlignment_eq_ok hs, checkAlignment_eq_ok hf⟩

/-- Where the optional header holds the image base. -/
def imageBasePosition (pe64 : Bool) : Nat := if pe64 then 24 else 28

/-- Where the optional header holds the alignments, the versions and the sizes of the image. -/
def layoutPosition : Nat := 32

/-- Where the optional header holds the data directories. -/
def directoriesPosition (pe64 : Bool) : Nat := if pe64 then 112 else 96

/-- How many data directories the image has. -/
def Image.directoryCount (image : Image) : Nat :=
  (image.optionalHeader.directoryCount.getD 16).toNat

/-- The image base as a value: the given number, or the label of the start of the image. -/
def imageBaseValue (env : String → LinkValue) (start : String) (given : Option UInt64) :
    LinkValue :=
  match given with
  | some base => LinkValue.ofSize base.toNat
  | none => env start

/-- The fields of an optional header and what they hold. -/
structure OptionalHeaderResult.Lays (r : OptionalHeaderResult) (c : Context) (image : Image) :
    Prop where
  context : c.Keeps r.context
  sections : List.Forall₂ Section.Labelled image.sections r.image.sections
  defaults : ∃ d, fillDefaults c image.optionalHeader image.sections = .ok d ∧
    r.image = { image with optionalHeader := d.header, sections := d.sections }
  large : checksumPosition + 4 ≤ r.header.virtSize
  inside : r.header.FieldsInside
  exports : r.header.exports = []
  imageBase : ∀ env, r.header.Holds env (imageBasePosition c.encoder.pe64) c.encoder.addressType
    c.encoder.order (imageBaseValue env c.start image.optionalHeader.imageBase)
  layout : ∀ env,
    r.header.HoldsRecord env c.encoder.order layoutPosition
      (layoutFields r.image.optionalHeader r.pending)
  directories : ∀ env, r.header.HoldsRecord env c.encoder.order
    (directoriesPosition c.encoder.pe64) (directoryFields image image.directoryCount)
  checksum : ∀ label, r.pending.checksum = some label →
    r.header.fields.get? checksumPosition = some ⟨.label label, .u32, c.encoder.order⟩
  missing : image.optionalHeader.checksum = none → ∃ label, r.pending.checksum = some label

theorem keeps_pendingHeader (c : Context) (h : OptionalHeader) :
    c.Keeps (pendingHeader c h).2 := by
  unfold pendingHeader
  cases h.checksum with
  | some _ => exact ⟨rfl, rfl⟩
  | none => exact ⟨rfl, rfl⟩

theorem eval_imageBaseExpr (c : Context) (h : OptionalHeader) (env : String → LinkValue) :
    (imageBaseExpr c h).eval env = imageBaseValue env c.start h.imageBase := by
  unfold imageBaseExpr imageBaseValue
  cases h.imageBase <;> rfl

theorem size_codeFields (c : Context) (h : OptionalHeader) :
    Record.size (codeFields c h) = imageBasePosition c.encoder.pe64 := by
  unfold codeFields imageBasePosition
  cases c.encoder.pe64 <;> rfl

theorem size_layoutFields (h : OptionalHeader) (pending : PendingHeader) :
    Record.size (layoutFields h pending) = 32 := rfl

theorem size_addressType (f : FieldEncoder) :
    imageBasePosition f.pe64 + f.addressType.width = layoutPosition := by
  unfold imageBasePosition FieldEncoder.addressType
  cases f.pe64 <;> rfl

/-- The bytes that the fields behind the checksum take. -/
theorem size_runtimeFields (c : Context) (h : OptionalHeader) :
    checksumPosition + 4 + Record.size (runtimeFields c h) = directoriesPosition c.encoder.pe64 := by
  unfold runtimeFields directoriesPosition FieldEncoder.addressType
  cases c.encoder.pe64 <;> rfl

theorem size_optionalFields (c : Context) (h : OptionalHeader) (pending : PendingHeader) :
    Record.size (optionalFields c h pending) = directoriesPosition c.encoder.pe64 := by
  rw [optionalFields, Record.size_append, Record.size_append, Record.size_cons, Record.size_cons,
    size_layoutFields, size_codeFields, ← size_runtimeFields c h, ← Nat.add_assoc, ← Nat.add_assoc,
    size_addressType]
  rfl

/-- The fields of the optional header, taken apart at the image base. -/
theorem optionalFields_imageBase (c : Context) (h : OptionalHeader) (pending : PendingHeader)
    (rest : Record) : ∃ behind : Record, optionalFields c h pending ++ rest =
      codeFields c h ++ (c.encoder.addressType, imageBaseExpr c h) :: behind := by
  refine ⟨layoutFields h pending ++ (.u32, checksumExpr h pending) :: runtimeFields c h ++ rest, ?_⟩
  simp only [optionalFields, List.append_assoc, List.cons_append]

/-- The fields of the optional header, taken apart behind the image base. -/
theorem optionalFields_layout (c : Context) (h : OptionalHeader) (pending : PendingHeader)
    (rest : Record) : ∃ before behind : Record, optionalFields c h pending ++ rest =
      before ++ (layoutFields h pending ++ (.u32, checksumExpr h pending) :: behind) ∧
        before.size = layoutPosition := by
  refine ⟨codeFields c h ++ [(c.encoder.addressType, imageBaseExpr c h)],
    runtimeFields c h ++ rest, ?_, ?_⟩
  · simp only [optionalFields, List.append_assoc, List.cons_append, List.nil_append]
  · rw [Record.size_append, Record.size_cons, size_codeFields]
    exact size_addressType c.encoder

theorem lays_encodeOptionalHeader {c : Context} {image : Image} {r : OptionalHeaderResult}
    (h : encodeOptionalHeader c image = .ok r) : r.Lays c image := by
  simp only [encodeOptionalHeader, bind_eq_ok, pure_eq_ok] at h
  obtain ⟨d, hd, ⟨⟩, -, header, hheader, rfl⟩ := h
  have hfills := fills_fillDefaults hd
  have hkeeps := hfills.context.trans (keeps_pendingHeader d.context d.header)
  obtain ⟨behind, hbase⟩ := optionalFields_imageBase (pendingHeader d.context d.header).2 d.header
    (pendingHeader d.context d.header).1 (directoryFields image (d.header.directoryCount.getD 0).toNat)
  obtain ⟨before, behind', hlayout, hbefore⟩ := optionalFields_layout
    (pendingHeader d.context d.header).2 d.header (pendingHeader d.context d.header).1
    (directoryFields image (d.header.directoryCount.getD 0).toNat)
  have hchecksum := hlayout.trans (List.append_assoc _ _ _).symm
  have hposition : Record.size (before ++ layoutFields d.header (pendingHeader d.context d.header).1)
      = checksumPosition := by
    rw [Record.size_append, hbefore, size_layoutFields]
    rfl
  refine ⟨hkeeps, hfills.sections, ⟨d, hd, rfl⟩, ?_, FieldEncoder.fieldsInside_record hheader,
    FieldEncoder.exports_record hheader, fun env => ?_, fun env => ?_, fun env => ?_,
    fun label hl => ?_, fun hnone => ?_⟩
  · rw [FieldEncoder.virtSize_record hheader, hchecksum, Record.size_append, hposition,
      Record.size_cons]
    exact Nat.add_le_add_left (Nat.le_add_right 4 _) _
  · rw [hbase] at hheader
    have hholds := FieldEncoder.holds_record _ hheader env
    rw [size_codeFields, eval_imageBaseExpr, hkeeps.1, hkeeps.2, hfills.imageBase] at hholds
    exact hholds
  · rw [hlayout] at hheader
    have hrecord := (holdsRecord_append.1 (holdsRecord_record hheader env)).2
    rw [hbefore, Nat.zero_add, hkeeps.1] at hrecord
    exact (holdsRecord_append.1 hrecord).1
  · have hrecord := (holdsRecord_append.1 (holdsRecord_record hheader env)).2
    rw [size_optionalFields, Nat.zero_add, hkeeps.1, hfills.directoryCount] at hrecord
    exact hrecord
  · rw [hchecksum] at hheader
    have hexpr : checksumExpr d.header (pendingHeader d.context d.header).1 = .label label := by
      unfold checksumExpr
      rw [hl]
    rw [hexpr] at hheader
    have hpending := FieldEncoder.get?_fields_record hheader rfl
    rw [hposition, hkeeps.1] at hpending
    exact hpending
  · rw [← hfills.checksum] at hnone
    unfold pendingHeader
    rw [hnone]
    exact ⟨_, rfl⟩

/-! ## What stands before it -/

/-- Where the file header is: at the start of an object file, else behind the DOS header and the
signature. -/
def headerStart (target : Target) : Nat := if target = .obj then 0 else dosHeaderSize + 4

/-- The DOS signature as a number. -/
def dosMagic : LinkValue := 0x5a4d

/-- The signature in front of the file header as a number. -/
def peMagic : LinkValue := 0x4550

/-- The DOS header holds its signature and the place of the other one, which stands behind it. -/
structure LeadsToHeaders (env : String → LinkValue) (b : Buffer) (order : ByteOrder) : Prop where
  dos : b.Holds env 0 .u16 .little dosMagic
  position : b.Holds env headerOffsetPosition .u32 order (LinkValue.ofSize dosHeaderSize)
  pe : b.Holds env dosHeaderSize .u32 .little peMagic

theorem LeadsToHeaders.map {env : String → LinkValue} {b b' : Buffer} {order : ByteOrder}
    (h : LeadsToHeaders env b order)
    (hmap : ∀ k t order v, b.Holds env k t order v → b'.Holds env k t order v) :
    LeadsToHeaders env b' order :=
  ⟨hmap _ _ _ _ h.dos, hmap _ _ _ _ h.position, hmap _ _ _ _ h.pe⟩

theorem lays_encodeDosStub {f : FieldEncoder} {b : Buffer} (h : encodeDosStub f = .ok b) :
    b.virtSize = dosHeaderSize + 4 ∧ b.FieldsInside ∧ b.exports = [] ∧
      ∀ env, LeadsToHeaders env b f.order := by
  simp only [encodeDosStub, bind_eq_ok, pure_eq_ok] at h
  obtain ⟨position, hposition, rfl⟩ := h
  have hsize : (ofBytes (padTo headerOffsetPosition dosSignature)).virtSize = headerOffsetPosition :=
    rfl
  have hinside : (ofBytes (padTo headerOffsetPosition dosSignature)).FieldsInside :=
    fieldsInside_of_noFields rfl
  have hfield := FieldEncoder.fieldsInside_encode hposition
  have hbefore : (ofBytes (padTo headerOffsetPosition dosSignature) ++ position).virtSize =
      dosHeaderSize := by
    rw [virtSize_append, hsize, FieldEncoder.virtSize_encode hposition]
    rfl
  rw [extend_eq_append]
  refine ⟨?_, (hinside.append hfield).append (fieldsInside_of_noFields rfl), ?_,
    fun env => ⟨?_, ?_, ?_⟩⟩
  · rw [virtSize_append, hbefore]
    rfl
  · rw [exports_append, exports_append, FieldEncoder.exports_encode hposition]
    rfl
  · exact (holds_ofBytes env (by decide) (by decide +kernel)).append_left.append_left
  · have hholds := (FieldEncoder.holds_encode hposition env).append_right hinside
    rw [hsize, Nat.add_zero] at hholds
    exact hholds.append_left
  · have hpe : (ofBytes peSignature).Holds env 0 .u32 .little peMagic :=
      holds_ofBytes env (by decide) (by decide +kernel)
    have hholds := hpe.append_right (hinside.append hfield)
    rw [hbefore, Nat.add_zero] at hholds
    exact hholds

theorem lays_encodeStub {f : FieldEncoder} {target : Target} {b : Buffer}
    (h : encodeStub f target = .ok b) :
    b.virtSize = headerStart target ∧ b.FieldsInside ∧ b.exports = [] ∧
      (target ≠ .obj → ∀ env, LeadsToHeaders env b f.order) := by
  unfold encodeStub at h
  unfold headerStart
  split at h
  · next hobj =>
    cases h
    exact ⟨by rw [if_pos hobj]; rfl, fieldsInside_empty, rfl, fun hne => absurd hobj hne⟩
  · next hobj =>
    obtain ⟨hsize, hinside, hexports, hholds⟩ := lays_encodeDosStub h
    rw [if_neg hobj]
    exact ⟨hsize, hinside, hexports, fun _ => hholds⟩

/-- Where the file header holds the number of sections. -/
def sectionCountPosition : Nat := 2

/-- Where the file header holds the size of the optional header. -/
def optionalSizePosition : Nat := 16

theorem checkBelow_eq_ok {limit n m : Nat} {quantity : Quantity}
    (h : checkBelow limit n quantity = .ok m) : m = n ∧ n < limit := by
  rw [checkBelow] at h
  split at h
  · next hlt =>
    cases h
    exact ⟨rfl, hlt⟩
  · exact nomatch h

theorem lays_encodeFileHeader {f : FieldEncoder} {given header : FileHeader}
    {sections optionalSize : Nat} {now : UInt32} {b : Buffer}
    (h : encodeFileHeader f given sections optionalSize now = .ok (b, header)) :
    sections < UInt16.size ∧ optionalSize < UInt16.size ∧ b.virtSize = fileHeaderSize ∧
      b.FieldsInside ∧ b.exports = [] ∧
      (∃ machine : Machine, ∀ env, b.Holds env 0 .u16 f.order (LinkValue.ofSize machine.raw.toNat)) ∧
      (∀ env, b.Holds env sectionCountPosition .u16 f.order (LinkValue.ofSize sections)) ∧
      ∀ env, b.Holds env optionalSizePosition .u16 f.order (LinkValue.ofSize optionalSize) := by
  simp only [encodeFileHeader, bind_eq_ok, pure_eq_ok, Prod.mk.injEq] at h
  obtain ⟨count, hcount, n, hn, fields, hfields, rfl, -⟩ := h
  obtain ⟨rfl, hmany⟩ := checkBelow_eq_ok hcount
  obtain ⟨rfl, hlarge⟩ := checkBelow_eq_ok hn
  refine ⟨hmany, hlarge, ?_, FieldEncoder.fieldsInside_record hfields,
    FieldEncoder.exports_record hfields, ⟨_, fun env => FieldEncoder.holds_record [] hfields env⟩,
    fun env => FieldEncoder.holds_record [_] hfields env,
    fun env => FieldEncoder.holds_record [_, _, _, _, _] hfields env⟩
  rw [FieldEncoder.virtSize_record hfields]
  rfl

/-! ## All headers -/

/-- The headers of an assembled image and what they hold; the optional header takes `size` bytes. -/
structure HeadedImage.Lays (h : HeadedImage) (a : Assembly) (target : Target) (size : Nat) :
    Prop where
  context : a.context.Keeps h.context
  sections : List.Forall₂ (fun s e => s.withContentFlags.Headed e) a.image.sections
    h.image.sections
  sizes : ∀ s ∈ a.image.sections, s.virtSize = none → s.content.virtSize < UInt32.size
  image : h.image = { a.image with
    header := h.image.header
    optionalHeader := h.image.optionalHeader
    sections := h.image.sections }
  imageBase : h.image.optionalHeader.imageBase = a.image.optionalHeader.imageBase
  sectionPower : ∃ n, h.image.optionalHeader.sectionAlignment = some n ∧
    isPowerOfTwo n.toNat = true
  filePower : ∃ n, h.image.optionalHeader.fileAlignment = some n ∧ isPowerOfTwo n.toNat = true
  inside : h.headers.FieldsInside
  exports : h.headers.exports = [(a.context.start, 0)]
  leads : target ≠ .obj → ∀ env, LeadsToHeaders env h.headers a.context.encoder.order
  machine : ∃ machine : Machine, ∀ env, h.headers.Holds env (headerStart target) .u16
    a.context.encoder.order (LinkValue.ofSize machine.raw.toNat)
  few : h.image.sections.length < UInt16.size
  sectionCount : ∀ env, h.headers.Holds env (headerStart target + sectionCountPosition) .u16
    a.context.encoder.order (LinkValue.ofSize h.image.sections.length)
  large : checksumPosition + 4 ≤ size
  small : size < UInt16.size
  optionalSize : ∀ env, h.headers.Holds env (headerStart target + optionalSizePosition) .u16
    a.context.encoder.order (LinkValue.ofSize size)
  base : ∀ env, h.headers.Holds env
    (headerStart target + fileHeaderSize + imageBasePosition a.context.encoder.pe64)
    a.context.encoder.addressType a.context.encoder.order
    (imageBaseValue env a.context.start a.image.optionalHeader.imageBase)
  layout : ∀ env, h.headers.HoldsRecord env a.context.encoder.order
    (headerStart target + fileHeaderSize + layoutPosition)
    (layoutFields h.image.optionalHeader h.pending)
  directoryTable : ∀ env, h.headers.HoldsRecord env a.context.encoder.order
    (headerStart target + fileHeaderSize + directoriesPosition a.context.encoder.pe64)
    (directoryFields a.image a.image.directoryCount)
  checksum : ∀ label, h.pending.checksum = some label →
    h.headers.fields.get? (headerStart target + fileHeaderSize + checksumPosition) =
      some ⟨.label label, .u32, a.context.encoder.order⟩
  missing : a.image.optionalHeader.checksum = none → ∃ label, h.pending.checksum = some label
  stop : h.headers.virtSize = headerStart target + fileHeaderSize + size +
    sectionHeaderSize * h.image.sections.length
  rows : ∀ env (i : Nat) e, h.image.sections[i]? = some e →
    RowHolds env h.headers
      (headerStart target + fileHeaderSize + size + sectionHeaderSize * i)
      a.context.encoder.order a.context.start e

theorem HeadedImage.Lays.directories {h : HeadedImage} {a : Assembly} {target : Target} {size : Nat}
    (hl : h.Lays a target size) : h.image.directories = a.image.directories := by
  rw [hl.image]

theorem HeadedImage.Lays.imports {h : HeadedImage} {a : Assembly} {target : Target} {size : Nat}
    (hl : h.Lays a target size) : h.image.imports = a.image.imports := by
  rw [hl.image]

/-- **The headers of an assembled image hold what they should.** -/
theorem lays_withHeaders {a : Assembly} {target : Target} {h : HeadedImage}
    (hh : a.withHeaders target = .ok h) : ∃ size, h.Lays a target size := by
  simp only [Assembly.withHeaders, bind_eq_ok, pure_eq_ok, Prod.exists] at hh
  obtain ⟨table, htable, optional, hoptional, stub, hstub, file, header, hfile, rfl⟩ := hh
  have htab := describes_encodeSectionTable htable
  have hopt := lays_encodeOptionalHeader hoptional
  have hkeeps := htab.context.trans hopt.context
  obtain ⟨hstubsize, hstubinside, hstubexports, hsignature⟩ := lays_encodeStub hstub
  obtain ⟨hfew, hsmall, hfilesize, hfileinside, hfileexports, hmachine, hcount, hoptionalSize⟩ :=
    lays_encodeFileHeader hfile
  obtain ⟨d, hd, himage⟩ := hopt.defaults
  have hfills := fills_fillDefaults hd
  -- the sizes of what stands before each of the headers
  have hfront : (empty.addExport optional.context.start 0 ++ stub).virtSize = headerStart target := by
    rw [virtSize_append, hstubsize]
    exact Nat.zero_add _
  have hfile' : (empty.addExport optional.context.start 0 ++ stub ++ file).virtSize =
      headerStart target + fileHeaderSize := by
    rw [virtSize_append, hfront, hfilesize]
  have hopt' : (empty.addExport optional.context.start 0 ++ stub ++ file ++ optional.header).virtSize
      = headerStart target + fileHeaderSize + optional.header.virtSize := by
    rw [virtSize_append, hfile']
  have hin : (empty.addExport optional.context.start 0 ++ stub).FieldsInside :=
    (fieldsInside_empty.addExport _ 0).append hstubinside
  have hin' := hin.append hfileinside
  have hin'' := hin'.append hopt.inside
  rw [hkeeps.1] at hmachine hcount hoptionalSize
  have hbehindStub : ∀ {env k t v}, file.Holds env k t a.context.encoder.order v →
      (empty.addExport optional.context.start 0 ++ stub ++ file ++ optional.header ++
        table.rows).Holds env (headerStart target + k) t a.context.encoder.order v := fun hk => by
    have hholds := hk.append_right hin
    rw [hfront] at hholds
    exact hholds.append_left.append_left
  have hbehindFile : ∀ {env k t v}, optional.header.Holds env k t a.context.encoder.order v →
      (empty.addExport optional.context.start 0 ++ stub ++ file ++ optional.header ++
        table.rows).Holds env (headerStart target + fileHeaderSize + k) t a.context.encoder.order v :=
    fun hk => by
      have hholds := hk.append_right hin'
      rw [hfile'] at hholds
      exact hholds.append_left
  exact ⟨optional.header.virtSize, {
    context := hkeeps
    sections := forall₂_trans (fun _ _ _ => .labelled) htab.entries hopt.sections
    sizes := htab.small
    image := by
      rw [himage]
      rfl
    imageBase := by
      rw [himage]
      exact hfills.imageBase
    sectionPower := ⟨_, by rw [himage]; exact hfills.sectionAlignment, hfills.sectionPower⟩
    filePower := ⟨_, by rw [himage]; exact hfills.fileAlignment, hfills.filePower⟩
    inside := hin''.append htab.inside
    exports := by
      simp only [exports_append, hstubexports, hfileexports, hopt.exports, htab.exports, hkeeps.2]
      rfl
    leads := fun hne env => by
      have hleads := hsignature hne env
      rw [hkeeps.1] at hleads
      refine hleads.map fun k t order v hk => ?_
      have hholds := hk.append_right (fieldsInside_empty.addExport optional.context.start 0)
      rw [← Nat.zero_add k]
      exact hholds.append_left.append_left.append_left
    machine := by
      obtain ⟨machine, hmachine⟩ := hmachine
      exact ⟨machine, fun env => hbehindStub (hmachine env)⟩
    few := hfew
    sectionCount := fun env => hbehindStub (hcount env)
    large := hopt.large
    small := hsmall
    optionalSize := fun env => hbehindStub (hoptionalSize env)
    base := fun env => by
      have hholds := (hopt.imageBase env).append_right hin'
      rw [hfile', htab.context.1, htab.context.2] at hholds
      exact hholds.append_left
    layout := fun env => by
      have hlayout := hopt.layout env
      rw [htab.context.1] at hlayout
      exact hlayout.map fun k t v _ _ hk => hbehindFile hk
    directoryTable := fun env => by
      have hdirectories := hopt.directories env
      rw [htab.context.1] at hdirectories
      exact hdirectories.map fun k t v _ _ hk => hbehindFile hk
    checksum := fun label hl => by
      have hfield := hopt.checksum label hl
      rw [htab.context.1] at hfield
      have hlt : checksumPosition < optional.header.virtSize := by
        have hle : checksumPosition + FieldType.u32.width ≤ optional.header.virtSize :=
          hopt.inside _ _ hfield
        have hpos := FieldType.u32.width_pos
        omega
      have hright := get?_fields_append_right
        (a := empty.addExport optional.context.start 0 ++ stub ++ file) hfield
      rw [hfile'] at hright
      rw [get?_fields_append_left (by rw [hopt']; omega)]
      exact hright
    missing := hopt.missing
    stop := by
      rw [virtSize_append, hopt', htab.virtSize]
      exact congrArg (_ + sectionHeaderSize * ·)
        (htab.entries.length_eq.trans hopt.sections.length_eq)
    rows := fun env i e he => by
      obtain ⟨s, hs, hlabelled⟩ := exists_left_of_forall₂ hopt.sections he
      refine ((htab.rows env i s hs).labelled hlabelled).map fun k t v hk => ?_
      have hholds := hk.append_right hin''
      rw [hopt', ← Nat.add_assoc] at hholds
      exact hholds }⟩

end PortableImage
