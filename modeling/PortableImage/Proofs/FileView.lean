import PortableImage.Proofs.Encode.Stages

/-!
# Reading the headers back

A loader knows an image only as a file.  This file reads the numbers that the layout depends on out
of the bytes, and says that they are the numbers of the placed image.

* `FileView` — a file with what is needed to read it; `imageBase` and `sections` are read from the
  headers alone.
* `FileView.offset?` — where in the file an address is.
* `Encoding.view_imageBase`, `Encoding.view_sections` — what is read is what was placed.
-/

set_option autoImplicit false

namespace PortableImage

open Buffer

/-- The bytes of an image, the way numbers are written in it, and whether it is an object file. -/
structure FileView where
  data : List UInt8
  order : ByteOrder
  /-- Whether addresses take 64 bits. -/
  pe64 : Bool
  object : Bool

/-- What a row of the section table says about the place of a section. -/
structure FileSection where
  virtSize : Nat
  /-- The address relative to the start of the image. -/
  rva : Nat
  /-- The place in the file. -/
  rawAddress : Nat
  deriving DecidableEq

namespace FileView

/-- An unsigned number of `width` bytes. -/
def number (v : FileView) (width offset : Nat) : Nat := v.order.toNat (bytesAt v.data offset width)

/-- A number of `width` bytes is less than their span. -/
theorem number_lt (v : FileView) (width o : Nat) : v.number width o < 256 ^ width := by
  have hlt := ofLittleEndian_lt (v.order.arrange (bytesAt v.data o width))
  have hlength : (bytesAt v.data o width).length ≤ width := List.length_take_le _ _
  rw [ByteOrder.length_arrange] at hlt
  exact Nat.lt_of_lt_of_le hlt (Nat.pow_le_pow_right (by decide) hlength)

/-- Where the file header is: at the start of an object file, else behind the signature that the DOS
header leads to. -/
def fileHeader (v : FileView) : Nat :=
  if v.object then 0 else v.number 4 headerOffsetPosition + 4

/-- Where the optional header is. -/
def optionalHeader (v : FileView) : Nat := v.fileHeader + fileHeaderSize

/-- The preferred address of the image. -/
def imageBase (v : FileView) : Nat :=
  v.number (if v.pe64 then 8 else 4) (v.optionalHeader + imageBasePosition v.pe64)

/-- Where the section table is. -/
def sectionTable (v : FileView) : Nat :=
  v.optionalHeader + v.number 2 (v.fileHeader + optionalSizePosition)

/-- The row of a section. -/
def row (v : FileView) (i : Nat) : FileSection :=
  let o := v.sectionTable + sectionHeaderSize * i
  ⟨v.number 4 (o + 8), v.number 4 (o + 12), v.number 4 (o + 20)⟩

/-- The rows of all sections. -/
def sections (v : FileView) : List FileSection :=
  (List.range (v.number 2 (v.fileHeader + sectionCountPosition))).map v.row

/-- Where in the file an address is: in the first section that covers it in memory. -/
def offset? (v : FileView) (rva : Nat) : Option Nat :=
  (v.sections.find? fun s => s.rva ≤ rva && rva < s.rva + s.virtSize).map fun s =>
    s.rawAddress + (rva - s.rva)

end FileView

/-- The file that an image was encoded to. -/
def EncodedImage.view (e : EncodedImage) (image : Image) (options : EncodeOptions) : FileView :=
  ⟨e.bytes, image.order, image.pe64, options.target == .obj⟩

/-- How the fields of an image are written. -/
def Image.encoder (image : Image) : FieldEncoder := ⟨image.order, image.pe64⟩

/-- A placed section as a loader sees it. -/
def PlacedSection.seen (q : PlacedSection) : FileSection := ⟨q.virtSize, q.rva, q.rawAddress⟩

/-! ## Numbers -/

/-- A difference of addresses that is small is the distance between them. -/
theorem LinkValue.toNat_ofSize_sub {m n : Nat} (hm : m < 2 ^ 66) (hn : n < 2 ^ 66)
    (h : (LinkValue.ofSize m - LinkValue.ofSize n).toNat < 2 ^ 64) :
    n ≤ m ∧ (LinkValue.ofSize m - LinkValue.ofSize n).toNat = m - n := by
  rw [BitVec.toNat_sub, toNat_ofSize (by omega), toNat_ofSize (by omega)] at *
  omega

theorem HeadedImage.base_lt (h : HeadedImage) : h.numbers.base < 2 ^ 64 :=
  (h.image.optionalHeader.imageBase.getD defaultImageBase).toNat_lt

/-! ## What is read is what was placed -/

namespace Encoding

variable {image : Image} {options : EncodeOptions} {clock : UInt32} {a : Assembly}
  {h : HeadedImage} {q p : Placement} {e : EncodedImage} {size : Nat}
  (enc : Encoding image options clock a h q p e size)

include enc

theorem encoder_eq : a.context.encoder = ⟨image.order, image.pe64⟩ := enc.continued.context.1

theorem agrees_env : p.binding.Agrees p.binding.env :=
  enc.places.tables.sound.constant.agrees_env

/-- The label of the start of the image stands for the image base. -/
theorem env_start : p.binding.env a.context.start = LinkValue.ofSize h.numbers.base := by
  have hstart := enc.places.start a.context.start enc.lays.exports
  exact Binding.env_of_get? (enc.places.tables.binding _ _ hstart)

/-- A number in the file is read as what the placed image holds. -/
theorem number_output {o : Nat} {t : FieldType} {v : LinkValue} (ht : t.signed = false)
    (hv : p.output.Holds p.binding.env o t a.context.encoder.order v)
    (hne : o ≠ headerStart options.target + fileHeaderSize + checksumPosition) :
    (e.view image options).number t.width o = v.toNat := by
  have hread := enc.finished.values _ _ _ _ _ enc.agrees_env hne hv
  rw [enc.encoder_eq] at hread
  exact FieldType.toNat_encodeValue ht hread

/-- A number in the headers is read as what the headers hold. -/
theorem number_eq {o : Nat} {t : FieldType} {v : LinkValue} (ht : t.signed = false)
    (hv : h.headers.Holds p.binding.env o t a.context.encoder.order v)
    (hne : o ≠ headerStart options.target + fileHeaderSize + checksumPosition) :
    (e.view image options).number t.width o = v.toNat :=
  enc.number_output ht (enc.places.holds_headers hv) hne

theorem view_fileHeader : (e.view image options).fileHeader = headerStart options.target := by
  rw [FileView.fileHeader, headerStart]
  by_cases hobj : options.target = .obj
  · rw [if_pos hobj, EncodedImage.view, hobj]
    rfl
  · have hread := enc.number_eq rfl (enc.lays.leads hobj _).position (by
      rw [headerStart, if_neg hobj]
      decide)
    rw [if_neg hobj, EncodedImage.view, if_neg (by simpa using hobj)]
    exact congrArg (· + 4) hread

theorem view_optionalHeader :
    (e.view image options).optionalHeader = headerStart options.target + fileHeaderSize := by
  rw [FileView.optionalHeader, enc.view_fileHeader]

theorem view_sectionTable : (e.view image options).sectionTable =
    headerStart options.target + fileHeaderSize + size := by
  have hsmall := enc.lays.small
  have hread := enc.number_eq rfl (enc.lays.optionalSize _) (by
    rw [optionalSizePosition, fileHeaderSize, checksumPosition]
    omega)
  rw [LinkValue.toNat_ofSize (Nat.lt_trans hsmall (by decide))] at hread
  rw [FileView.sectionTable, enc.view_optionalHeader, enc.view_fileHeader]
  exact congrArg (headerStart options.target + fileHeaderSize + ·) hread

/-- **The image base that a loader reads is the one that addresses count from.** -/
theorem view_imageBase : (e.view image options).imageBase = h.numbers.base := by
  have hvalue : imageBaseValue p.binding.env a.context.start a.image.optionalHeader.imageBase =
      LinkValue.ofSize h.numbers.base := by
    have hbase := enc.env_start
    rw [HeadedImage.numbers, LayoutNumbers.ofHeader, enc.lays.imageBase] at hbase ⊢
    unfold imageBaseValue
    cases hgiven : a.image.optionalHeader.imageBase with
    | some base => rfl
    | none => rw [hbase, hgiven]
  have hholds := enc.lays.base p.binding.env
  rw [hvalue] at hholds
  have hread := enc.number_eq a.context.encoder.signed_addressType hholds (by
    unfold imageBasePosition
    rw [checksumPosition]
    split <;> omega)
  have hsmall : h.numbers.base < 2 ^ 128 := by
    have hlt := (h.image.optionalHeader.imageBase.getD defaultImageBase).toNat_lt
    exact Nat.lt_trans hlt (by decide)
  rw [LinkValue.toNat_ofSize hsmall, enc.encoder_eq] at hread
  rw [FileView.imageBase, enc.view_optionalHeader, ← hread]
  congr 1
  unfold FieldEncoder.addressType
  show (if image.pe64 then 8 else 4) = _
  split <;> rfl

/-- What the headers hold in an unsigned field fits the field. -/
theorem toNat_lt {o : Nat} {t : FieldType} {v : LinkValue} (ht : t.signed = false)
    (hv : h.headers.Holds p.binding.env o t a.context.encoder.order v)
    (hne : o ≠ headerStart options.target + fileHeaderSize + checksumPosition) :
    v.toNat < 2 ^ t.bits := by
  have hread := enc.finished.values _ _ _ _ _ enc.agrees_env hne (enc.places.holds_headers hv)
  exact FieldType.toNat_lt_of_fits ht (FieldType.encodeValue_eq_ok.1 hread).1

/-- The output ends behind the last placed section. -/
theorem rawAddress_le {s : Section} {r : PlacedSection} {address : Nat}
    (hat : SectionAt h.numbers s q r address) : r.rawAddress + r.rawSize ≤ e.bytes.length := by
  rw [enc.finished.size, enc.places.tables.virtSize]
  exact hat.inside

/-- The row of a section says where it was placed. -/
theorem view_row {i : Nat} {s : Section} {r : PlacedSection} {address : Nat}
    (hs : h.image.sections[i]? = some s) (hat : SectionAt h.numbers s q r address)
    (hlen : e.bytes.length < UInt64.size) :
    (e.view image options).row i = r.seen ∧ address = h.numbers.base + r.rva := by
  have hrow := enc.lays.rows p.binding.env i s hs
  have hlarge := enc.lays.large
  have hbase := h.base_lt
  have hbinding := enc.places.tables.binding
  -- the rows lie behind the checksum
  have hne : ∀ k, headerStart options.target + fileHeaderSize + size + sectionHeaderSize * i + k ≠
      headerStart options.target + fileHeaderSize + checksumPosition := fun k => by omega
  have hvirt := enc.number_eq rfl hrow.virtSize (hne 8)
  obtain ⟨label, hlabel, hrawAddress⟩ := hrow.rawAddress
  have hraw := enc.number_eq rfl hrawAddress (hne 20)
  rw [LinkValue.toNat_ofSize (Nat.lt_trans (s.virtSize.getD 0).toNat_lt (by decide))] at hvirt
  have hend := enc.rawAddress_le hat
  rw [Binding.env_of_get? (hbinding _ _ (hat.rawAddress label hlabel)), LinkValue.toNat_ofSize (by
    rw [UInt64.size] at hlen
    omega)] at hraw
  have hrva : (e.view image options).number 4 (headerStart options.target + fileHeaderSize + size +
      sectionHeaderSize * i + 12) = r.rva ∧ address = h.numbers.base + r.rva := by
    cases haddress : s.address with
    | some fixed =>
      have hread := enc.number_eq rfl (hrow.fixed fixed haddress) (hne 12)
      rw [LinkValue.toNat_ofSize (Nat.lt_trans fixed.toNat_lt (by decide))] at hread
      have hplace := hat.fixed fixed haddress
      have hdistance := hat.rva
      refine ⟨hread.trans ?_, ?_⟩ <;> omega
    | none =>
      obtain ⟨label, hmem, hholds⟩ := hrow.floating haddress
      have hvalue : p.binding.env label = LinkValue.ofSize address :=
        Binding.env_of_get? (hbinding _ _ (hat.exports label 0 hmem))
      rw [hvalue, enc.env_start] at hholds
      have hread := enc.number_eq rfl hholds (hne 12)
      have hfits := enc.toNat_lt rfl hholds (hne 12)
      have hsmall : address < 2 ^ 66 := by
        have hcases := hat.small
        rw [maxAddress, UInt64.size, UInt32.size] at hcases
        omega
      obtain ⟨hle, hsub⟩ := LinkValue.toNat_ofSize_sub hsmall (by omega)
        (Nat.lt_trans hfits (by decide))
      have hdistance := hat.rva
      refine ⟨hread.trans ?_, ?_⟩ <;> omega
  refine ⟨?_, hrva.2⟩
  rw [FileView.row, enc.view_sectionTable, PlacedSection.seen, hat.virtSize]
  exact congr (congr (congrArg FileSection.mk hvirt) hrva.1) hraw

/-- **The rows that a loader reads say where the sections were placed.** -/
theorem view_sections (hlen : e.bytes.length < UInt64.size) :
    (e.view image options).sections = q.placed.map PlacedSection.seen := by
  have hplaced := enc.places.sections.length_eq
  have hread := enc.number_eq rfl (enc.lays.sectionCount _) (by
    rw [sectionCountPosition, fileHeaderSize]
    omega)
  rw [LinkValue.toNat_ofSize (Nat.lt_trans enc.lays.few (by decide))] at hread
  have hcount : (e.view image options).number 2 ((e.view image options).fileHeader +
      sectionCountPosition) = q.placed.length := by
    rw [enc.view_fileHeader, ← hplaced]
    exact hread
  rw [FileView.sections, hcount]
  refine List.ext_getElem? fun i => ?_
  rw [List.getElem?_map, List.getElem?_map]
  cases hr : q.placed[i]? with
  | none =>
    rw [List.getElem?_eq_none (by rw [List.length_range]; exact List.getElem?_eq_none_iff.1 hr)]
    rfl
  | some r =>
    obtain ⟨s, hs, -, address, hat⟩ := exists_left_of_forall₂ enc.places.sections hr
    rw [List.getElem?_range (List.getElem?_eq_some_iff.1 hr).1, Option.map_some, Option.map_some,
      (enc.view_row hs hat hlen).1]

/-- **An address is in the file where tables with that address are written.** -/
theorem view_offset? (hlen : e.bytes.length < UInt64.size) (rva : Nat) :
    (e.view image options).offset? rva = q.tableOffset rva := by
  rw [FileView.offset?, enc.view_sections hlen, List.find?_map, Option.map_map]
  rfl

end Encoding

end PortableImage
