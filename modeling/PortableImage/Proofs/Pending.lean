import PortableImage.Proofs.Encode.OnePass

/-!
# What is still pending in a finished image

The last stage gives up when a field of the output has no value.  The sections of the finished image
keep buffers of their own, and in these it looks for nothing.  So a field that never got into the
output may have no value, and then its section keeps it.

* `Placement.LeavesOut` — a field of a section does not get into the output.
* `Encoding.pending_iff` — the fields that the sections of a finished image keep.
* `encodeImage_isEmpty_fields` — when nothing is pending any more in the output and the sections.
-/

set_option autoImplicit false

namespace PortableImage

open Buffer

/-- The field `f` at the offset `k` of the section with the index `i` does not get into the output:
it reaches beyond the bytes of the section, or a table is written over its first byte. -/
def Placement.LeavesOut (p : Placement) (tables : List (Nat × Buffer)) (i : Nat) (s : Section)
    (k : Nat) (f : PendingField) : Prop :=
  s.content.rawSize < k + f.type.width ∨
    ∃ r t offset, p.placed[i]? = some r ∧ t ∈ tables ∧ p.tableOffset t.1 = some offset ∧
      offset ≤ r.rawAddress + k ∧ r.rawAddress + k < offset + t.2.virtSize

namespace Encoding

variable {image : Image} {options : EncodeOptions} {clock : UInt32} {a : Assembly}
  {h : HeadedImage} {q p : Placement} {e : EncodedImage} {size : Nat}
  (enc : Encoding image options clock a h q p e size)

include enc

/-- A field that gets into the output is pending there until its value is written. -/
theorem get?_fields_output {i k : Nat} {s : Section} {f : PendingField}
    (hs : h.image.sections[i]? = some s) (hf : s.content.fields.get? k = some f)
    (hin : ¬ p.LeavesOut (tablesInPlace image options clock) i s k f) :
    ∃ o, p.output.fields.get? o = some f ∧
      o ≠ headerStart options.target + fileHeaderSize + checksumPosition := by
  obtain ⟨r, address, hr, hheaders, hat⟩ := enc.exists_placed_of_headed hs
  rw [Placement.LeavesOut, not_or, Nat.not_lt] at hin
  obtain ⟨hraw, hcovered⟩ := hin
  have hwidth := f.type.width_pos
  have hsize := hat.rawSize
  -- the section itself puts the field into the output
  have hslice : (s.content.slice 0 s.content.rawSize).fields.get? k = some f := by
    rw [get?_fields_slice, Nat.add_zero, hf, Nat.zero_add, Option.filter_some,
      if_pos (decide_eq_true hraw)]
  have hq : q.output.fields.get? (r.rawAddress + k) = some f := by
    rw [hat.fields k (by omega), hslice]
  refine ⟨r.rawAddress + k, ?_, ?_⟩
  · rw [enc.places.tables.fields _ fun t ht offset hoffset => ?_, hq]
    by_contra hover
    rw [mem_orderedTables, ← enc.tablesInPlace_eq] at ht
    refine hcovered ⟨r, t, offset, ?_, ht, ?_, by omega, by omega⟩
    · rw [enc.places.tables.placed]
      exact hr
    · rw [Placement.tableOffset, enc.places.tables.placed]
      exact hoffset
  · -- the field of the checksum lies in the headers
    have hlarge := enc.lays.large
    have hrow := (enc.lays.rows p.binding.env i s hs).virtSize.inside
    have hle : h.headers.virtSize ≤ h.headersSize := virtSize_le_align _ _
    omega

/-- **A section of the finished image keeps the fields without a value that are left out of the
output, and no others.** -/
theorem pending_iff {i k : Nat} {s s' : Section} {f : PendingField}
    (hs : h.image.sections[i]? = some s) (hs' : e.image.sections[i]? = some s') :
    s'.content.fields.get? k = some f ↔ s.content.fields.get? k = some f ∧
      p.LeavesOut (tablesInPlace image options clock) i s k f ∧
      f.target.constantUnder p.binding = none := by
  obtain ⟨s₁, hs₁, content, hfix, rfl⟩ := exists_left_of_forall₂ enc.finished.sections hs'
  rw [hs] at hs₁
  cases hs₁
  rw [get?_fields_fixup hfix, Option.filter_eq_some_iff, Option.isNone_iff_eq_none]
  refine and_congr_right fun hf => ⟨fun hnone => ⟨?_, hnone⟩, fun h => h.2⟩
  by_contra hin
  obtain ⟨o, ho, hne⟩ := enc.get?_fields_output hs hf hin
  have hvalued := enc.finished.valued o f hne ho
  rw [hnone] at hvalued
  exact nomatch hvalued

end Encoding

/-- **When nothing is pending in a finished image.**  Nothing is ever pending in the output.  The
sections keep nothing either exactly when every field that is left out of the output has a value. -/
theorem encodeImage_isEmpty_fields {image : Image} {options : EncodeOptions} {clock : UInt32}
    {e : EncodedImage} (he : (encodeImage image options clock).result = .ok e) :
    e.output.fields.isEmpty = true ∧
      ∃ h p, placedImage image options clock = .ok (h, p) ∧
        ((∀ s ∈ e.image.sections, s.content.fields.isEmpty = true) ↔
          ∀ i s k f, h.image.sections[i]? = some s → s.content.fields.get? k = some f →
            p.LeavesOut (tablesInPlace image options clock) i s k f →
              (f.target.constantUnder p.binding).isSome) := by
  obtain ⟨a, h, q, p, size, enc⟩ := encodeImage_eq_ok he
  refine ⟨OffsetMap.isEmpty_iff.2 enc.finished.pending, h, p, enc.placedImage_eq, ?_, ?_⟩
  · intro hempty i s k f hs hf hout
    obtain ⟨s', hs', -⟩ := exists_right_of_forall₂ enc.finished.sections hs
    have hnone := OffsetMap.isEmpty_iff.1 (hempty s' (List.mem_of_getElem? hs')) k
    by_contra hvalue
    rw [Option.not_isSome_iff_eq_none] at hvalue
    rw [(enc.pending_iff hs hs').2 ⟨hf, hout, hvalue⟩] at hnone
    exact nomatch hnone
  · intro hvalues s' hmem
    obtain ⟨i, hs'⟩ := List.mem_iff_getElem?.1 hmem
    obtain ⟨s, hs, -⟩ := exists_left_of_forall₂ enc.finished.sections hs'
    refine OffsetMap.isEmpty_iff.2 fun k => ?_
    cases hk : s'.content.fields.get? k with
    | none => rfl
    | some f =>
      obtain ⟨hf, hout, hnone⟩ := (enc.pending_iff hs hs').1 hk
      have hsome := hvalues i s k f hs hf hout
      rw [hnone] at hsome
      exact nomatch hsome

/-- An object file with a field behind the bytes of its section, for a symbol that is nowhere. -/
def fieldBehindBytes : Image :=
  { Image.empty with
    sections := [.new ".data" (.read ||| .write)
      ((ofBytes [0, 0, 0, 0]).addField 100 ⟨.label "nowhere", .u32, .little⟩)] }

theorem encodeImage_isEmpty_fields_fieldBehindBytes :
    ∃ e, (encodeImage fieldBehindBytes (.new .obj) 0).result = .ok e ∧
      e.output.fields.isEmpty = true ∧ ∃ s ∈ e.image.sections, s.content.fields.isEmpty = false := by
  obtain ⟨e, he, hkept⟩ : ∃ e, (encodeImage fieldBehindBytes (.new .obj) 0).result = .ok e ∧
      e.image.sections.any fun s => !s.content.fields.isEmpty :=
    exists_encodeImage (by decide +kernel)
  obtain ⟨s, hs, hfields⟩ := List.any_eq_true.1 hkept
  rw [Bool.not_eq_true'] at hfields
  exact ⟨e, he, (encodeImage_isEmpty_fields he).1, s, hs, hfields⟩

end PortableImage
