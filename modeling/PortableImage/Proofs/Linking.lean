import PortableImage.Proofs.Encode.OnePass
import PortableImage.Proofs.Expr.Net
import PortableImage.Proofs.FileView

/-!
# Fields hold the values of their targets

A pending field of a section that the caller described is found again in the file, with the value of
its target.  Its section may have been moved, labelled, and had generated content merged into it; the
place and the value are the ones that follow from the headers of the file.

* `EncodedImage.LabelAt` — the address of a label, from the finished image and the headers.
* `Encoding.env_labelAt` — the values that the fields are computed from are these addresses.
* `encodeImage_decodeValue` — what is read out of a field.
-/

set_option autoImplicit false

namespace PortableImage

open Buffer

/-! ## Labels -/

/-- A section of the finished image exports the label at the offset `k`; the headers say where the
section is. -/
def EncodedImage.LabelIn (e : EncodedImage) (v : FileView) (l : String) (r : FileSection)
    (k : Nat) : Prop :=
  ∃ (i : Nat) (s : Section), e.image.sections[i]? = some s ∧ v.sections[i]? = some r ∧
    (l, k) ∈ s.content.exports

/-- The address that the headers give to a label. -/
def EncodedImage.LabelAt (e : EncodedImage) (v : FileView) (l : String) (address : Nat) : Prop :=
  ∃ r k, e.LabelIn v l r k ∧ address = v.imageBase + r.rva + k

namespace Encoding

variable {image : Image} {options : EncodeOptions} {clock : UInt32} {a : Assembly}
  {h : HeadedImage} {q p : Placement} {e : EncodedImage} {size : Nat}
  (enc : Encoding image options clock a h q p e size)

include enc

/-- **A label stands for the address that the headers give it.** -/
theorem env_labelAt (hlen : e.bytes.length < UInt64.size) {l : String} {address : Nat}
    (hl : e.LabelAt (e.view image options) l address) :
    p.binding.env l = LinkValue.ofSize address := by
  obtain ⟨r, k, ⟨i, s, hs, hr, hmem⟩, rfl⟩ := hl
  obtain ⟨s', hs', hexports⟩ := enc.exports_finished hs
  obtain ⟨q', address, hq', -, hat⟩ := enc.exists_placed_of_headed hs'
  have hrow := enc.view_row hs' hat hlen
  rw [enc.view_sections hlen, List.getElem?_map, hq', Option.map_some, Option.some.injEq] at hr
  rw [hexports] at hmem
  rw [Binding.env_of_get? (enc.places.tables.binding _ _ (hat.exports l k hmem)), hrow.2,
    enc.view_imageBase, ← hr]
  rfl

end Encoding

/-! ## What is read out of a field -/

/-- **A field of the output holds the value of its target.**  The file is shorter than the largest
size there is, and the field lies in the bytes of its section, apart from the other pending fields
and from the tables that are written in place.  It is then found where the headers say the section
is, and what is read there is the value of the target, every label standing for the address that the
headers give it.  Runs in which a sum of addresses passes `2 ^ 64` are left out, as they are in
`AddressCursor.place`. -/
theorem encodeImage_decodeValue {image : Image} {options : EncodeOptions} {clock : UInt32}
    {e : EncodedImage} (he : (encodeImage image options clock).result = .ok e)
    (hlen : e.bytes.length < UInt64.size) {i o : Nat} {s : Section} {f : PendingField}
    (hs : image.sections[i]? = some s) (hf : s.content.fields.get? o = some f)
    (hraw : o + f.type.width ≤ s.content.rawSize)
    (hfields : ∀ k g, s.content.fields.get? k = some g → k ≠ o →
      k + g.type.width ≤ o ∨ o + f.type.width ≤ k)
    (htables : ∀ t ∈ tablesInPlace image options clock, ∀ r start,
      (e.view image options).sections[i]? = some r →
      (e.view image options).offset? t.1 = some start →
      r.rawAddress + o + f.type.width ≤ start ∨ start + t.2.virtSize ≤ r.rawAddress + o)
    (env : String → LinkValue)
    (henv : ∀ l ∈ f.target.labels, ∃ address,
      e.LabelAt (e.view image options) l address ∧ env l = LinkValue.ofSize address) :
    ∃ r, (e.view image options).sections[i]? = some r ∧
      r.rawAddress + o + f.type.width ≤ e.bytes.length ∧
      f.type.decodeValue f.order (bytesAt e.bytes (r.rawAddress + o) f.type.width) =
        f.target.eval env := by
  obtain ⟨a, h, q, p, size, enc⟩ := encodeImage_eq_ok he
  obtain ⟨s', r, address, hs', hr, hheaders, hat, hgrows⟩ := enc.exists_placed hs
  have hseen : (e.view image options).sections[i]? = some r.seen := by
    rw [enc.view_sections hlen, List.getElem?_map, hr, Option.map_some]
  have hapart : q.ApartFrom (orderedTables a.tablesInPlace) (r.rawAddress + o) f.type.width := by
    intro t ht start hstart
    rw [mem_orderedTables, ← enc.tablesInPlace_eq] at ht
    rw [← enc.view_offset? hlen] at hstart
    exact htables t ht r.seen start hseen hstart
  have hsize := s.content.rawSize_le_virtSize
  have hholds := enc.holds_placed hat hgrows
    (holds_pending p.binding.env hf (Nat.le_trans hraw hsize) hfields) hraw hapart
  -- the field is not that of the checksum, which lies in the headers
  have hbehind : r.rawAddress + o ≠ headerStart options.target + fileHeaderSize + checksumPosition := by
    have hlarge := enc.lays.large
    have hrow := (enc.lays.rows p.binding.env i s' hs').virtSize.inside
    have hle : h.headers.virtSize ≤ h.headersSize := virtSize_le_align _ _
    omega
  have hbytes := enc.finished.values _ _ _ _ _ enc.agrees_env hbehind hholds
  refine ⟨r.seen, hseen, ?_, ?_⟩
  · have hin := hholds.inside
    rw [enc.finished.size]
    exact hin
  · rw [show r.seen.rawAddress = r.rawAddress from rfl, FieldType.decodeValue_encodeValue hbytes]
    refine Expr.eval_congr fun l hl => ?_
    obtain ⟨address, hlabel, hvalue⟩ := henv l hl
    rw [hvalue, enc.env_labelAt hlen hlabel]

/-- A library whose code holds the address of the number that its data ends with. -/
def codeAndData : Image :=
  { Image.empty with
    sections := [
      .new ".text" (.read ||| .execute) (placeholder (.label "number") .u32 .little),
      .new ".data" (.read ||| .write) ((ofBytes [1, 2, 3, 4, 5, 6, 7, 8]).addExport "number" 4)]
    optionalHeader := { OptionalHeader.empty with fileAlignment := some 4 } }

theorem encodeImage_decodeValue_codeAndData :
    ∃ e, (encodeImage codeAndData (.new .dll) 0).result = .ok e ∧
      ∃ r, (e.view codeAndData (.new .dll)).sections[0]? = some r ∧
        r.rawAddress + 0 + 4 ≤ e.bytes.length ∧
        FieldType.u32.decodeValue .little (bytesAt e.bytes (r.rawAddress + 0) 4) =
          LinkValue.ofSize 0x402004 := by
  obtain ⟨e, he, hlen, hrva, hbase, hexports⟩ :
      ∃ e, (encodeImage codeAndData (.new .dll) 0).result = .ok e ∧
        e.bytes.length < UInt64.size ∧
        (e.view codeAndData (.new .dll)).sections[1]?.map (·.rva) = some 0x2000 ∧
        (e.view codeAndData (.new .dll)).imageBase = 0x400000 ∧
        e.image.sections[1]?.map (·.content.exports.head?) = some (some ("number", 4)) :=
    exists_encodeImage (by decide +kernel)
  obtain ⟨r, hr, hat⟩ := Option.map_eq_some_iff.1 hrva
  obtain ⟨s, hs, hhead⟩ := Option.map_eq_some_iff.1 hexports
  let f : PendingField := ⟨.label "number", .u32, .little⟩
  refine ⟨e, he, encodeImage_decodeValue he hlen rfl (f := f) rfl
    (by decide) ?_ ?_ (fun _ => LinkValue.ofSize 0x402004) ?_⟩
  · intro k g hk hne
    have hnone : k ≠ 0 → (OffsetMap.singleton 0 f).get? k = none := fun h => by
      rw [OffsetMap.get?_singleton, if_neg h]
    exact nomatch hk.symm.trans (hnone hne)
  · intro t ht
    exact nomatch ht
  · intro l hl
    have hname : l = "number" := List.mem_singleton.1 (Expr.mem_labels.1 hl)
    refine ⟨0x402004, ⟨r, 4, ⟨1, s, hs, hr, ?_⟩, ?_⟩, rfl⟩
    · rw [hname]
      exact List.mem_of_mem_head? hhead
    · rw [hbase, hat]

end PortableImage
