import PortableImage.Proofs.Expr.Sum
import PortableImage.Proofs.FileView
import PortableImage.Proofs.Labels.Placement
import PortableImage.Proofs.Pending

/-!
# Which references get a value

The labels that the encoding makes for itself differ from those that are defined, but not from those
that are only referred to.  So a pending field of the caller may refer to a label that nobody
defines and get the value that the encoding has for a label of its own with that name: a size of the
image, the place of a section in the file, the start of a table.  No other label gets a value that
way.

* `Encoding.mem_labels_binding` — what is bound is defined, or imported, or made by the encoding.
* `encodeImage_reference` — a field that mentions a label from elsewhere.
-/

set_option autoImplicit false

namespace PortableImage

open Buffer

namespace Encoding

variable {image : Image} {options : EncodeOptions} {clock : UInt32} {a : Assembly}
  {h : HeadedImage} {q p : Placement} {e : EncodedImage} {size : Nat}
  (enc : Encoding image options clock a h q p e size)

include enc

theorem imports_finished : e.image.imports = a.image.imports := by
  rw [enc.finished.image]
  exact enc.lays.imports

/-- **Every bound label is one of the caller's sections, one of an import, or one that the encoding
has made for itself.** -/
theorem mem_labels_binding {l : String} (hl : l ∈ p.binding.labels) :
    l ∈ definedLabels image.sections ∨
      l ∈ Assembly.importLabels (e.image.imports.getD []) ∨ IsEncoderLabel l := by
  obtain ⟨pool, hlabelled⟩ := enc.labelled
  rw [enc.labels_binding] at hl
  rw [enc.imports_finished]
  rcases hlabelled.noted l hl with hl | hl | hl
  · exact hlabelled.named l hl
  · exact .inr (.inl hl)
  · exact .inr (.inr (isEncoderLabel_of_mem_leftoverLabels hl))

/-- A pending field of the caller that gets into the output gets a value. -/
theorem isSome_constantUnder {i k : Nat} {s : Section} {f : PendingField}
    (hs : image.sections[i]? = some s) (hf : s.content.fields.get? k = some f)
    (hin : ¬p.LeavesOut (tablesInPlace image options clock) i s k f) :
    (f.target.constantUnder p.binding).isSome := by
  obtain ⟨s', r, address, hs', -, -, -, hgrows⟩ := enc.exists_placed hs
  have hraw : k + f.type.width ≤ s.content.rawSize := Nat.not_lt.1 (not_or.1 hin).1
  have hwidth := f.type.width_pos
  have hsize := s.content.rawSize_le_virtSize
  have hfield := (hgrows.fields k (by omega)).trans hf
  have hle := hgrows.rawSize_le
  have hin' : ¬p.LeavesOut (tablesInPlace image options clock) i s' k f :=
    not_or.2 ⟨by omega, (not_or.1 hin).2⟩
  obtain ⟨o, ho, hne⟩ := enc.get?_fields_output hs' hfield hin'
  exact enc.finished.valued o f hne ho

/-- A label without a value can stand for anything. -/
theorem agrees_update {l : String} (hl : p.binding.get? l = none) (w : LinkValue) :
    p.binding.Agrees (Function.update p.binding.env l w) := by
  intro name value hvalue
  have hne : name ≠ l := fun heq => by
    rw [heq, hl] at hvalue
    exact nomatch hvalue
  obtain ⟨v, rfl⟩ := enc.places.tables.sound.constant name value hvalue
  rw [Function.update_of_ne hne, Binding.env_of_get? hvalue]
  rfl

/-- A sum that mentions a label without a value has none. -/
theorem net?_eq_none {e : Expr} {l : String} (hl : l ∈ e.reduce.labels)
    (hunbound : p.binding.get? l = none) (hvalue : (e.constantUnder p.binding).isSome) :
    e.net? = none := by
  by_contra hnet
  rw [← ne_eq, Option.ne_none_iff_isSome] at hnet
  obtain ⟨c, hc, hupdate⟩ := Expr.eval_update hnet hl
  obtain ⟨v, hv⟩ := Option.isSome_iff_exists.1 hvalue
  have hmoved := hupdate p.binding.env 1
  rw [Expr.eval_of_constantUnder (enc.agrees_update hunbound _) hv,
    Expr.eval_of_constantUnder enc.agrees_env hv, mul_one, left_eq_add] at hmoved
  exact hc hmoved

end Encoding

/-- **A reference to a label that nobody defines.**  A pending field of the caller that gets into the
output mentions a label that no section of the caller defines and that is no label of an import of
the finished image, be it given, derived from a name, or added automatically.  Then the label has a
value, and is one that the encoding can make for itself; or it has no value, and the field holds a
bitwise operation whose value is the same whatever the label stands for. -/
theorem encodeImage_reference {image : Image} {options : EncodeOptions} {clock : UInt32}
    {e : EncodedImage} (he : (encodeImage image options clock).result = .ok e) :
    ∃ h p, placedImage image options clock = .ok (h, p) ∧
      ∀ i s k f l, image.sections[i]? = some s → s.content.fields.get? k = some f →
        ¬p.LeavesOut (tablesInPlace image options clock) i s k f → l ∈ f.target.reduce.labels →
        l ∉ definedLabels image.sections →
        l ∉ Assembly.importLabels (e.image.imports.getD []) →
          ((p.binding.get? l).isSome ∧ IsEncoderLabel l) ∨
            p.binding.get? l = none ∧ f.target.net? = none ∧
              ∃ v, ∀ env, p.binding.Agrees env → f.target.eval env = v := by
  obtain ⟨a, h, q, p, size, enc⟩ := encodeImage_eq_ok he
  refine ⟨h, p, enc.placedImage_eq, fun i s k f l hs hf hin hl hsections himports => ?_⟩
  cases hbound : p.binding.get? l with
  | some value =>
    have hmem : l ∈ p.binding.labels := Binding.isSome_get?.1 (by rw [hbound]; rfl)
    rcases enc.mem_labels_binding hmem with hmem | hmem | hmem
    · exact absurd hmem hsections
    · exact absurd hmem himports
    · exact .inl ⟨rfl, hmem⟩
  | none =>
    have hvalue := enc.isSome_constantUnder hs hf hin
    obtain ⟨v, hv⟩ := Option.isSome_iff_exists.1 hvalue
    exact .inr ⟨rfl, enc.net?_eq_none hl hbound hvalue, v,
      fun env hagrees => Expr.eval_of_constantUnder hagrees hv⟩

/-- A program whose data refers to a symbol that is nowhere, by the name that the linker has for the
size of the image. -/
def imageSizeReference : Image :=
  { Image.empty with
    sections := [.new ".data" (.read ||| .write)
      (placeholder (.label "image_size") .u32 .little)] }

theorem encodeImage_reference_imageSize :
    (∃ e, (encodeImage imageSizeReference (.new .exe) 0).result = .ok e) ∧
      ∃ h p, placedImage imageSizeReference (.new .exe) 0 = .ok (h, p) ∧
        (p.binding.get? "image_size").isSome ∧ IsEncoderLabel "image_size" := by
  obtain ⟨e, he, himports⟩ : ∃ e, (encodeImage imageSizeReference (.new .exe) 0).result = .ok e ∧
      e.image.imports.isNone := exists_encodeImage (by decide +kernel)
  have htables : tablesInPlace imageSizeReference (.new .exe) 0 = [] := by decide +kernel
  obtain ⟨h, p, hplaced, hreference⟩ := encodeImage_reference he
  have hlabel := hreference 0 _ 0 ⟨.label "image_size", .u32, .little⟩ "image_size" rfl rfl
    (by
      rw [htables]
      rintro (hraw | ⟨r, t, offset, -, ht, -⟩)
      · exact absurd hraw (by decide)
      · exact nomatch ht) (by decide +kernel) (by decide +kernel)
    (by
      rw [Option.isNone_iff_eq_none.1 himports]
      exact List.not_mem_nil)
  exact ⟨⟨e, he⟩, h, p, hplaced, hlabel.resolve_right fun hmasked => nomatch hmasked.2.1⟩

end PortableImage
