import PortableImage.Proofs.Relocation.Complete

/-!
# Fields of an image that moves

When an image lies further by some distance, so do all its labels.  A field that holds a sum of them
moves along if the sum has a net count of one, and stays as it is if it has a net count of zero.

* `Expr.Steady` — the value does not depend on where the image lies.
* `PendingField.HoldsAddress` — the field moves along, and is written like an address.
* `eval_of_needsRelocation`, `steady_of_not_needsRelocation` — the fields of these two kinds are told
  apart.
* `Encoding.field_cases` — there are no other fields than those that were there when base relocations
  were looked for, and those of the blocks; the latter are steady.
-/

set_option autoImplicit false

namespace PortableImage

open Buffer

variable {moving : String → Prop} {d : LinkValue}

/-- The second values of the labels are the first, the moving labels lying further by `d`. -/
structure Moved (moving : String → Prop) (d : LinkValue) (env env' : String → LinkValue) : Prop where
  moves : ∀ l, moving l → env' l = env l + d
  stays : ∀ l, ¬ moving l → env' l = env l

/-- The value does not change when the moving labels lie further by `d`, wherever they are. -/
def Expr.Steady (moving : String → Prop) (d : LinkValue) (e : Expr) : Prop :=
  ∀ env env', Moved moving d env env' → e.eval env' = e.eval env

namespace Expr

theorem steady_reduce {e : Expr} : e.reduce.Steady moving d ↔ e.Steady moving d := by
  simp only [Steady, eval_reduce]

theorem steady_of_net {e : Expr} (hnet : e.net? = some 0) (h : ∀ l ∈ e.labels, moving l) :
    e.Steady moving d := by
  intro env env' hmoved
  rw [eval_shift hnet fun l hl => hmoved.moves l (h l hl), Int.cast_zero, zero_mul, add_zero]

/-- Distances between labels do not change. -/
theorem steady_distance {l m : String} (hl : moving l) (hm : moving m) (n : Nat) :
    (label l - label m + ofSize n : Expr).Steady moving d := by
  refine steady_of_net rfl fun x hx => ?_
  rcases List.mem_append.1 (mem_labels.1 hx) with hx | hx
  · rcases List.mem_append.1 hx with hx | hx
    · exact List.mem_singleton.1 hx ▸ hl
    · exact List.mem_singleton.1 hx ▸ hm
  · exact nomatch hx

end Expr

/-- The field is written like an address and holds one: it adds and takes away known labels, with a
net count of one. -/
structure PendingField.HoldsAddress (f : PendingField) (encoder : FieldEncoder)
    (known : List String) : Prop where
  order : f.order = encoder.order
  type : f.type = encoder.addressType
  net : f.target.net? = some 1
  labels : ∀ l ∈ f.target.labels, l ∈ known

/-! ## Fields that get a base relocation, and fields that do not -/

section Told

variable {image : Image} {options : EncodeOptions} {clock : UInt32} {a : Assembly} {b : Binding}
  (h : atRelocations image options clock = .ok (a, b))
  (hmoving : ∀ l ∈ relocationLabels image options clock, moving l) {f : PendingField}
  (hf : f.target.Steady moving d ∨
    f.HoldsAddress image.encoder (relocationLabels image options clock))

include h

theorem needsRelocation_of_holdsAddress
    (hf : f.HoldsAddress image.encoder (relocationLabels image options clock)) :
    needsRelocation a.context b f = true := by
  obtain ⟨hplaces, hknown⟩ := places_atRelocations h
  have hencoder : a.context.encoder = image.encoder := (continues_atRelocations h).context.1
  have haddress := isImageAddress_of_net hplaces hf.net fun l hl => (hknown l).2 (hf.labels l hl)
  rw [needsRelocation, hencoder, hf.order, hf.type, haddress]
  simp

include hf

/-- **A field without a base relocation does not depend on where the image lies.** -/
theorem steady_of_not_needsRelocation (hneeds : needsRelocation a.context b f = false) :
    f.target.Steady moving d := by
  refine hf.resolve_right fun hholds => ?_
  rw [needsRelocation_of_holdsAddress h hholds] at hneeds
  exact nomatch hneeds

include hmoving

/-- **A field that gets a base relocation moves with the image.** -/
theorem eval_of_needsRelocation (hneeds : needsRelocation a.context b f = true) :
    f.order = image.encoder.order ∧ f.type = image.encoder.addressType ∧
      ∀ env env', Moved moving d env env' → f.target.eval env' = f.target.eval env + d := by
  obtain ⟨hplaces, hknown⟩ := places_atRelocations h
  have hencoder : a.context.encoder = image.encoder := (continues_atRelocations h).context.1
  rw [needsRelocation, hencoder, Bool.and_eq_true, Bool.and_eq_true, beq_iff_eq, beq_iff_eq] at hneeds
  obtain ⟨⟨horder, htype⟩, haddress⟩ := hneeds
  refine ⟨horder, htype, fun env env' hmoved => ?_⟩
  rcases hf with hsteady | hholds
  · -- what does not move with the image is found only if the image does not move
    have hzero := eq_zero_of_isImageAddress hplaces haddress
      (fun l hl => hmoving l ((hknown l).1 (.inl hl))) (hmoving _ ((hknown _).1 (.inr rfl)))
      fun env env' hmoves hstays => hsteady env env' ⟨hmoves, hstays⟩
    rw [hzero, add_zero]
    exact hsteady env env' hmoved
  · rw [Expr.eval_shift hholds.net fun l hl => hmoved.moves l (hmoving l (hholds.labels l hl)),
      Int.cast_one, one_mul]

end Told

/-! ## All fields -/

/-- The fields of the blocks are distances. -/
theorem Assembly.Relocates.steady {a₀ a : Assembly} {b : Binding} {tables : List RelocationTable}
    {content : Buffer} {label : String} (hrel : a₀.Relocates a b tables content label)
    (hstart : moving a₀.context.start)
    (hsections : ∀ s ∈ a.image.sections, ∀ x ∈ s.content.exports, moving x.1) {k : Nat}
    {f : PendingField} (hf : content.fields.get? k = some f) : f.target.Steady moving d := by
  obtain ⟨x, hx, htarget⟩ := hrel.blocks.fields k f hf
  rw [htarget, Expr.steady_reduce]
  obtain ⟨t, ht, hx⟩ := List.mem_flatMap.1 hx
  have hconst : ∀ v, (Expr.const v).Steady moving d := fun _ _ _ _ => rfl
  rw [RelocationTable.record, List.mem_cons, List.mem_cons] at hx
  obtain rfl | rfl | hx := hx
  · have hcollected := hrel.collected
    split at hcollected
    · rw [hcollected, List.mem_singleton] at ht
      rw [ht]
      exact hconst _
    · rw [hcollected] at ht
      obtain ⟨start, page, hbase, s, hs, hlabel⟩ := base_of_mem_collectTables ht
      obtain ⟨i, hi⟩ := List.mem_iff_getElem?.1 hs
      obtain ⟨s', hs', hgrows⟩ := hrel.sectionsGrow i s hi
      have hmoves := hsections s' (List.mem_of_getElem? hs') _
        (hgrows.content.exports.subset hlabel)
      rw [hbase]
      exact Expr.steady_distance hmoves hstart page
  · exact hconst _
  · obtain ⟨r, -, rfl⟩ := List.mem_map.1 hx
    exact hconst _

/-- **A field of a section with headers was there when base relocations were looked for, or it is one
of the blocks.** -/
theorem Encoding.field_cases {image : Image} {options : EncodeOptions} {clock : UInt32}
    {a : Assembly} {h : HeadedImage} {q p : Placement} {e : EncodedImage} {size : Nat}
    (enc : Encoding image options clock a h q p e size) {a₀ : Assembly} {b : Binding}
    {tables : List RelocationTable} {content : Buffer} {label : String}
    (hrel : a₀.Relocates a b tables content label) {i k : Nat} {s : Section} {f : PendingField}
    (hs : h.image.sections[i]? = some s) (hf : s.content.fields.get? k = some f) :
    (∃ s₀, a₀.image.sections[i]? = some s₀ ∧ s₀.content.fields.get? k = some f) ∨
      ∃ j, content.fields.get? j = some f := by
  obtain ⟨t, ht, hheaded⟩ := exists_left_of_forall₂ enc.lays.sections hs
  obtain ⟨added, heq⟩ := Section.content_headed hheaded
  rw [heq] at hf
  rw [hrel.sections] at ht
  refine (fields_appendSection ht hf).imp_left fun ⟨u, hu, hf⟩ => ?_
  obtain ⟨s₀, hs₀, more, ⟨_, rfl⟩, rfl⟩ := exists_left_of_forall₂
    (Assembly.labelled_collectTables b a₀.image.sections a₀.context) hu
  exact ⟨s₀, hs₀, hf⟩

end PortableImage
