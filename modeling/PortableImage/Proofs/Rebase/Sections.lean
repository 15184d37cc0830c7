import PortableImage.Proofs.Pending
import PortableImage.Proofs.Rebase.Bases
import PortableImage.Proofs.Rebase.Loading

/-!
# A section at two bases

Two files of an image, at two bases, differ in the fields that get a base relocation, and each of these
has the distance of the bases added to it.

* `Buffer.Moves` — under the second values of the labels, some of the fields hold `d` more, and the
  others hold the same.
* `Image.FieldsTold` — every field moves with the image and is written like an address, or it does not
  depend on where the image lies.
* `Encoding.moves` — the fields of a section that get a base relocation move.
-/

set_option autoImplicit false

namespace PortableImage

open Buffer

/-! ## One buffer -/

namespace Buffer

/-- Under the second values of the labels, the fields in `moved` hold `d` more than under the first,
and all others hold the same.  The fields that move are written alike, and lie apart from all others. -/
structure Moves (c : Buffer) (b b' : Binding) (order : ByteOrder) (t : FieldType) (d : LinkValue)
    (moved : Nat → Prop) : Prop where
  written : c.FieldsWritten
  moves : ∀ k, moved k → ∃ f v, c.fields.get? k = some f ∧ f.order = order ∧ f.type = t ∧
    f.target.constantUnder b = some v ∧ f.target.constantUnder b' = some (v + d)
  stays : ∀ k f, c.fields.get? k = some f → ¬ moved k →
    f.target.constantUnder b' = f.target.constantUnder b
  apart : ∀ k, moved k → ∀ j g, c.fields.get? j = some g → j ≠ k →
    j + g.type.width ≤ k ∨ k + t.width ≤ j

/-- **What the buffer becomes under the two values of the labels**: the fields that move get the
distance added, and all other bytes are the same. -/
theorem Moves.dataMoved {c x x' : Buffer} {b b' : Binding} {order : ByteOrder} {t : FieldType}
    {d : LinkValue} {moved : Nat → Prop} (h : c.Moves b b' order t d moved)
    (hx : c.fixup b = .ok x) (hx' : c.fixup b' = .ok x') {n : Nat} (ht : t.signed = false)
    (hd : n % 2 ^ 64 = d.toNat % 2 ^ 64) :
    DataMoved order t.width n moved x.data x'.data := by
  have hlength : x.data.length = c.data.length := h.written.rawSize_fixup hx
  have hlength' : x'.data.length = c.data.length := h.written.rawSize_fixup hx'
  refine ⟨hlength'.trans hlength.symm, fun j hj => ?_, fun k hk => ?_⟩
  · by_cases hlt : j < c.data.length
    · have hsame := getElem?_fixup_window (o := 0) (j := j) hx' hx (by rwa [Nat.zero_add]) hlt
        (by rw [Nat.zero_add]) (fun k _ => by rw [Nat.zero_add]) (fun _ _ hk => nomatch hk)
        fun k f hk hcovers hf => h.stays k f hf fun hmoved => ?_
      · rwa [Nat.zero_add] at hsame
      · obtain ⟨g, -, hg, -, htype, -⟩ := h.moves k hmoved
        rw [hf, Option.some.injEq] at hg
        have hwidth := hj k hmoved
        rw [← htype, ← hg] at hwidth
        omega
    · rw [List.getElem?_eq_none (by omega), List.getElem?_eq_none (by omega)]
  · obtain ⟨f, v, hf, rfl, rfl, hv, hv'⟩ := h.moves k hk
    refine ⟨?_, FieldType.encodeValue_add ht hd (bytesAt_fixup hx hf hv (h.apart k hk))
      (bytesAt_fixup hx' hf hv' (h.apart k hk))⟩
    rw [hlength]
    exact h.written k f hf

end Buffer

/-! ## The sections of an image -/

/-- The sections when base relocations are looked for. -/
def relocationSections (image : Image) (options : EncodeOptions) (clock : UInt32) : List Section :=
  match atRelocations image options clock with
  | .ok (a, _) => a.image.sections
  | .error _ => []

/-- Every field of the sections, generated ones included, holds an address in the image and is written
like one, or it keeps its value when the labels of addresses lie further by `d`. -/
def Image.FieldsTold (image : Image) (options : EncodeOptions) (clock : UInt32)
    (moving : String → Prop) (d : LinkValue) : Prop :=
  ∀ s ∈ relocationSections image options clock, ∀ k f, s.content.fields.get? k = some f →
    f.target.Steady moving d ∨ f.HoldsAddress image.encoder (relocationLabels image options clock)

/-- Sums of known labels have a net count of zero, or of one and are written like addresses. -/
theorem EncodedImage.fieldsTold_of_net {e : EncodedImage} {image : Image} {options : EncodeOptions}
    {clock : UInt32} {d : LinkValue}
    (h : ∀ s ∈ relocationSections image options clock, ∀ x ∈ s.content.fields.entries,
      (∀ l ∈ x.2.target.labels, l ∈ relocationLabels image options clock) ∧
      (x.2.target.net? = some 0 ∨ x.2.target.net? = some 1 ∧ x.2.order = image.encoder.order ∧
        x.2.type = image.encoder.addressType)) :
    image.FieldsTold options clock (e.Moving image options clock) d := by
  intro s hs k f hf
  obtain ⟨hlabels, hnet | ⟨hnet, horder, htype⟩⟩ := h s hs (k, f) (OffsetMap.get?_eq_some.1 hf)
  · exact .inl (Expr.steady_of_net hnet fun l hl => .inl (hlabels l hl))
  · exact .inr ⟨horder, htype, hnet, hlabels⟩

theorem type_of_needsRelocation {c : Context} {b : Binding} {f : PendingField}
    (h : needsRelocation c b f = true) : f.type = c.encoder.addressType := by
  rw [needsRelocation, Bool.and_eq_true, Bool.and_eq_true, beq_iff_eq, beq_iff_eq] at h
  exact h.1.2

namespace Encoding

variable {image : Image} {options : EncodeOptions} {clock : UInt32} {a : Assembly}
  {h : HeadedImage} {q p : Placement} {e : EncodedImage} {size : Nat}
  (enc : Encoding image options clock a h q p e size)

include enc

/-- A field of a section has a value when the image is placed. -/
theorem exists_constant {s : Section} (htables : a.tablesInPlace = []) (hs : s ∈ h.image.sections)
    (hwritten : s.content.FieldsWritten) {k : Nat} {f : PendingField}
    (hf : s.content.fields.get? k = some f) : ∃ v, f.target.constantUnder p.binding = some v := by
  obtain ⟨i, hi⟩ := List.mem_iff_getElem?.1 hs
  obtain ⟨o, ho, hne⟩ := enc.get?_fields_output hi hf (by
    rintro (hout | ⟨_, t, _, -, ht, -⟩)
    · have hle := hwritten k f hf
      omega
    · rw [enc.tablesInPlace_eq, htables] at ht
      exact nomatch ht)
  exact Option.isSome_iff_exists.1 (enc.finished.valued o f hne ho)

section Relocated

variable {a₀ : Assembly} {b : Binding} (hat : atRelocations image options clock = .ok (a₀, b))

/-- A section that was there when base relocations were looked for is placed with more behind it. -/
theorem exists_placed_of_collected (hgrow : a₀.Continues a) {i : Nat} {s₀ : Section}
    (hs₀ : a₀.image.sections[i]? = some s₀) :
    ∃ s r address, h.image.sections[i]? = some s ∧ q.placed[i]? = some r ∧
      SectionAt h.numbers s q r address ∧ s₀.content.Grows s.content := by
  obtain ⟨t, ht, hgrows⟩ := hgrow.sections i s₀ hs₀
  obtain ⟨s, r, address, hs, hr, -, hat, hlabelled⟩ := enc.exists_placed_of_assembled ht
  exact ⟨s, r, address, hs, hr, hat, hgrows.content.trans hlabelled.grows⟩

include hat

/-- A field that gets a base relocation is a field of the placed section. -/
theorem exists_of_mem_relocatedFields (hgrow : a₀.Continues a)
    (hwritten : ∀ s ∈ image.sections, s.content.FieldsWritten) {i k : Nat} {s : Section}
    (hs : h.image.sections[i]? = some s) (hk : (i, k) ∈ relocatedFields image options clock) :
    ∃ s₀ ∈ a₀.image.sections, s₀.content.Grows s.content ∧ ∃ f,
      s₀.content.fields.get? k = some f ∧ s.content.fields.get? k = some f ∧
      needsRelocation a₀.context b f = true ∧ k + f.type.width ≤ s₀.content.virtSize := by
  obtain ⟨s₀, hs₀, hk⟩ := (mem_relocatedFields hat).1 hk
  obtain ⟨f, hf, hneeds⟩ := mem_relocatedOffsets.1 hk
  obtain ⟨s', -, -, hs', -, -, hgrows⟩ := enc.exists_placed_of_collected hgrow hs₀
  rw [hs, Option.some.injEq] at hs'
  subst hs'
  have hmem := List.mem_of_getElem? hs₀
  have hkeeps := continues_atRelocations hat
  have hle := hkeeps.stable Section.stable_fieldsWritten hwritten s₀ hmem k f hf
  have hsize := s₀.content.rawSize_le_virtSize
  have hwidth := f.type.width_pos
  have hkept : s.content.fields.get? k = some f := (hgrows.fields k (by omega)).trans hf
  exact ⟨s₀, hmem, hgrows, f, hf, hkept, hneeds, Nat.le_trans hle hsize⟩

/-- A field without a base relocation does not depend on where the image lies. -/
theorem steady_of_notMem_relocatedFields {d : LinkValue}
    (hwants : options.wantsRelocations = true)
    (htold : image.FieldsTold options clock (e.Moving image options clock) d) {i k : Nat}
    {s : Section} {f : PendingField} (hs : h.image.sections[i]? = some s)
    (hf : s.content.fields.get? k = some f)
    (hk : (i, k) ∉ relocatedFields image options clock) :
    f.target.Steady (e.Moving image options clock) d := by
  obtain ⟨a₁, b₁, tables, content, label, hat₁, -, -, hrel⟩ := enc.exists_relocates hwants
  rw [hat] at hat₁
  cases hat₁
  rw [Image.FieldsTold, relocationSections, hat] at htold
  rcases enc.field_cases hrel hs hf with ⟨s₀, hs₀, hf₀⟩ | ⟨o, hblock⟩
  · refine steady_of_not_needsRelocation hat (htold s₀ (List.mem_of_getElem? hs₀) k f hf₀) ?_
    by_contra hneeds
    rw [Bool.not_eq_false] at hneeds
    exact hk ((mem_relocatedFields hat).2 ⟨s₀, hs₀, mem_relocatedOffsets.2 ⟨f, hf₀, hneeds⟩⟩)
  · -- the fields of the blocks are distances in the image
    refine hrel.steady (.inl ((mem_relocationLabels hat).2 (.inl rfl))) (fun t ht x hx => ?_) hblock
    obtain ⟨o, ho⟩ := List.mem_iff_getElem?.1 ht
    obtain ⟨t', ht', hheaded⟩ := exists_right_of_forall₂ enc.lays.sections ho
    have hexports := (Section.content_headed hheaded).grows.exports
    exact (enc.moving_iff hwants).2 (.inr ⟨t', List.mem_of_getElem? ht',
      List.mem_map_of_mem (hexports.subset hx)⟩)

end Relocated

section Other

variable {base : Option UInt64} {h' : HeadedImage} {q' p' : Placement} {e' : EncodedImage}
  {size' : Nat} {d : LinkValue}
  (enc' : Encoding (image.withBase base) options clock (a.withBase base) h' q' p' e' size')
  (hsame : h'.image.sections = h.image.sections) (htables : a.tablesInPlace = [])
  (hmoved : Moved (e.Moving image options clock) d p.binding.env p'.binding.env)

include enc' hsame htables hmoved

/-- A value that does not depend on where the image lies is the same in both. -/
theorem constantUnder_of_steady {s : Section} (hs : s ∈ h.image.sections)
    (hwritten : s.content.FieldsWritten) {k : Nat} {f : PendingField}
    (hf : s.content.fields.get? k = some f)
    (hsteady : f.target.Steady (e.Moving image options clock) d) :
    f.target.constantUnder p'.binding = f.target.constantUnder p.binding := by
  obtain ⟨v, hv⟩ := enc.exists_constant htables hs hwritten hf
  obtain ⟨v', hv'⟩ := enc'.exists_constant htables (hsame ▸ hs) hwritten hf
  rw [hv, hv', ← Expr.eval_of_constantUnder enc.agrees_env hv,
    ← Expr.eval_of_constantUnder enc'.agrees_env hv', hsteady _ _ hmoved]

/-- **The fields of a section that get a base relocation move, and the others stay.** -/
theorem moves (hwants : options.wantsRelocations = true)
    (hwritten : ∀ s ∈ image.sections, s.content.FieldsWritten)
    (hapart : ∀ s ∈ relocationSections image options clock, s.content.FieldsApart)
    (htold : image.FieldsTold options clock (e.Moving image options clock) d) {i : Nat} {s : Section}
    (hs : h.image.sections[i]? = some s) :
    s.content.Moves p.binding p'.binding image.order image.encoder.addressType d
      fun k => (i, k) ∈ relocatedFields image options clock := by
  obtain ⟨a₀, b, -, -, -, hat, -, hgrow, -⟩ := enc.exists_relocates hwants
  have hmem := List.mem_of_getElem? hs
  have hin := enc.fieldsWritten_headed hwritten s hmem
  have hmoving : ∀ l ∈ relocationLabels image options clock, e.Moving image options clock l :=
    fun l hl => .inl hl
  have htold₀ := htold
  rw [Image.FieldsTold, relocationSections, hat] at htold₀
  rw [relocationSections, hat] at hapart
  refine ⟨hin, fun k hk => ?_, fun k f hf hk => ?_, fun k hk j g hg hne => ?_⟩
  · obtain ⟨s₀, hs₀, -, f, hf₀, hf, hneeds, -⟩ :=
      enc.exists_of_mem_relocatedFields hat hgrow hwritten hs hk
    obtain ⟨horder, htype, heval⟩ :=
      eval_of_needsRelocation hat hmoving (htold₀ s₀ hs₀ k f hf₀) hneeds
    obtain ⟨v, hv⟩ := enc.exists_constant htables hmem hin hf
    obtain ⟨v', hv'⟩ := enc'.exists_constant htables (hsame ▸ hmem) hin hf
    refine ⟨f, v, hf, horder, htype, hv, ?_⟩
    rw [hv', ← Expr.eval_of_constantUnder enc.agrees_env hv,
      ← Expr.eval_of_constantUnder enc'.agrees_env hv', heval _ _ hmoved]
  · exact enc.constantUnder_of_steady enc' hsame htables hmoved hmem hin hf
      (enc.steady_of_notMem_relocatedFields hat hwants htold hs hf hk)
  · obtain ⟨s₀, hs₀, hgrows, f, hf, -, hneeds, hle⟩ :=
      enc.exists_of_mem_relocatedFields hat hgrow hwritten hs hk
    rw [← (eval_of_needsRelocation hat hmoving (htold₀ s₀ hs₀ k f hf) hneeds).2.1]
    -- the other field was there too, or it lies behind all that was there
    by_cases hj : j < s₀.content.virtSize
    · rw [hgrows.fields j hj] at hg
      rcases Nat.lt_or_gt_of_ne hne with hlt | hlt
      · exact .inl (hapart s₀ hs₀ j k g f hg hf hlt)
      · exact .inr (hapart s₀ hs₀ k j f g hf hg hlt)
    · exact .inr (by omega)

end Other

end Encoding

end PortableImage
