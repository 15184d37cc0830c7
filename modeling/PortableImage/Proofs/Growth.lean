import PortableImage.Layout
import PortableImage.Context
import PortableImage.Proofs.Buffer.Holds
import PortableImage.Proofs.Buffer.Written

/-!
# Sections only grow

While an image is assembled, its sections get labels, zeros and further content behind what they
have.  What is in a section stays where it is.

* `Buffer.Grows` — a buffer continues another one.
* `Section.Grows`, `SectionsGrow` — a section continues another one; every section of a list does.
* `Section.Labelled` — a section with more labels, and nothing else.
* `sectionsGrow_appendSection` — adding a generated section keeps the others.
* `Section.Stable` — what is true of all sections from the start remains true of all of them.
-/

set_option autoImplicit false

namespace PortableImage

/-! ## Buffers -/

/-- The second buffer starts with the first: its bytes, its pending fields and its labels. -/
structure Buffer.Grows (b b' : Buffer) : Prop where
  rawSize_le : b.rawSize ≤ b'.rawSize
  virtSize_le : b.virtSize ≤ b'.virtSize
  contents : ∀ i, i < b.virtSize → b'.contents[i]? = b.contents[i]?
  fields : ∀ k, k < b.virtSize → b'.fields.get? k = b.fields.get? k
  exports : b.exports <+: b'.exports

namespace Buffer

theorem Grows.refl (b : Buffer) : b.Grows b :=
  ⟨Nat.le_refl _, Nat.le_refl _, fun _ _ => rfl, fun _ _ => rfl, List.prefix_rfl⟩

theorem Grows.trans {b c d : Buffer} (hbc : b.Grows c) (hcd : c.Grows d) : b.Grows d where
  rawSize_le := Nat.le_trans hbc.rawSize_le hcd.rawSize_le
  virtSize_le := Nat.le_trans hbc.virtSize_le hcd.virtSize_le
  contents i hi := by
    rw [hcd.contents i (Nat.lt_of_lt_of_le hi hbc.virtSize_le), hbc.contents i hi]
  fields k hk := by
    rw [hcd.fields k (Nat.lt_of_lt_of_le hk hbc.virtSize_le), hbc.fields k hk]
  exports := hbc.exports.trans hcd.exports

theorem grows_append (a b : Buffer) : a.Grows (a ++ b) where
  rawSize_le := by
    have := a.rawSize_le_virtSize
    rw [rawSize_append]
    omega
  virtSize_le := by
    rw [virtSize_append]
    exact Nat.le_add_right _ _
  contents i hi := by
    rw [contents_append]
    exact List.getElem?_append_left (by rwa [length_contents])
  fields _ hk := get?_fields_append_left hk
  exports := List.prefix_append _ _

theorem grows_align (b : Buffer) (boundary : Nat) : b.Grows (b.align boundary) where
  rawSize_le := Nat.le_refl _
  virtSize_le := b.virtSize_le_align boundary
  contents i hi := by
    rw [contents_align, getElem?_padTo, length_contents, if_pos hi]
  fields _ _ := rfl
  exports := List.prefix_rfl

/-- The second buffer is the first with more labels. -/
def Labelled (b b' : Buffer) : Prop := ∃ added, b' = { b with exports := b.exports ++ added }

theorem Labelled.refl (b : Buffer) : b.Labelled b := ⟨[], by rw [List.append_nil]⟩

theorem Labelled.trans {b c d : Buffer} (hbc : b.Labelled c) (hcd : c.Labelled d) :
    b.Labelled d := by
  obtain ⟨added, rfl⟩ := hbc
  obtain ⟨more, rfl⟩ := hcd
  exact ⟨added ++ more, by rw [List.append_assoc]⟩

theorem Labelled.grows {b b' : Buffer} (h : b.Labelled b') : b.Grows b' := by
  obtain ⟨added, rfl⟩ := h
  exact ⟨Nat.le_refl _, Nat.le_refl _, fun _ _ => rfl, fun _ _ => rfl, List.prefix_append _ _⟩

theorem Labelled.virtSize_eq {b b' : Buffer} (h : b.Labelled b') : b'.virtSize = b.virtSize := by
  obtain ⟨added, rfl⟩ := h
  rfl

theorem Labelled.rawSize_eq {b b' : Buffer} (h : b.Labelled b') : b'.rawSize = b.rawSize := by
  obtain ⟨added, rfl⟩ := h
  rfl

theorem Labelled.inside_iff {b b' : Buffer} (h : b.Labelled b') : b'.FieldsInside ↔ b.FieldsInside := by
  obtain ⟨added, rfl⟩ := h
  exact .rfl

theorem Labelled.written_iff {b b' : Buffer} (h : b.Labelled b') :
    b'.FieldsWritten ↔ b.FieldsWritten := by
  obtain ⟨added, rfl⟩ := h
  exact .rfl

/-- Labelling an offset adds at most labels. -/
theorem labelled_labelAt (c : Context) (b : Buffer) (offset : Nat) (hint : String) :
    b.Labelled (c.labelAt b offset hint).2.2 := by
  unfold Context.labelAt LabelPool.labelAt
  cases b.exportAt offset with
  | some name => exact .refl b
  | none => exact ⟨_, rfl⟩

/-- The label that an offset gets is a label of it. -/
theorem mem_exports_labelAt (c : Context) (b : Buffer) (offset : Nat) (hint : String) :
    ((c.labelAt b offset hint).1, offset) ∈ (c.labelAt b offset hint).2.2.exports := by
  unfold Context.labelAt LabelPool.labelAt exportAt
  cases hfind : b.exports.find? (fun e => e.2 == offset) with
  | none => exact List.mem_append_right _ (List.mem_singleton.2 rfl)
  | some e =>
    have heq : e.2 = offset := by simpa using List.find?_some hfind
    rw [← heq]
    exact List.mem_of_find?_eq_some hfind

theorem FieldsInside.labelAt {b : Buffer} (h : b.FieldsInside) (c : Context) (offset : Nat)
    (hint : String) : (c.labelAt b offset hint).2.2.FieldsInside := by
  obtain ⟨added, h'⟩ := labelled_labelAt c b offset hint
  rw [h']
  exact h

/-- What a buffer holds, a buffer that continues it holds too. -/
theorem Holds.grows {env : String → LinkValue} {b b' : Buffer} {o : Nat} {t : FieldType}
    {order : ByteOrder} {v : LinkValue} (h : Holds env b o t order v) (hg : b.Grows b') :
    Holds env b' o t order v := by
  have hin := h.inside
  have hw := t.width_pos
  have hle := hg.virtSize_le
  refine h.of_eq (by omega) (fun i _ hi => hg.contents i (by omega)) (hg.fields o (by omega))
    fun k f hk hne => ?_
  by_cases hlt : k < b.virtSize
  · rw [hg.fields k hlt] at hk
    exact h.apart k f hk hne
  · exact .inr (by omega)

end Buffer

/-! ## Sections -/

/-- The second section continues the first at the same place; its name and its fixed sizes stay the
same, and all its pending fields lie in its bytes if those of the first do. -/
structure Section.Grows (s s' : Section) : Prop where
  name : s'.name = s.name
  content : s.content.Grows s'.content
  address : s'.address = s.address
  virtSize : s'.virtSize = s.virtSize
  rawSize : s'.rawSize = s.rawSize
  written : s.content.FieldsWritten → s'.content.FieldsWritten

namespace Section

theorem Grows.refl (s : Section) : s.Grows s := ⟨rfl, .refl _, rfl, rfl, rfl, id⟩

theorem Grows.trans {s t u : Section} (hst : s.Grows t) (htu : t.Grows u) : s.Grows u where
  name := htu.name.trans hst.name
  content := hst.content.trans htu.content
  address := htu.address.trans hst.address
  virtSize := htu.virtSize.trans hst.virtSize
  rawSize := htu.rawSize.trans hst.rawSize
  written h := htu.written (hst.written h)

theorem grows_merge (s : Section) {content : Buffer} (h : content.FieldsWritten) :
    s.Grows (s.merge content) where
  name := rfl
  content := (s.content.grows_align 8).trans (Buffer.grows_append _ _)
  address := rfl
  virtSize := rfl
  rawSize := rfl
  written hs := (hs.align 8).append h

/-- The second section is the first with more labels. -/
def Labelled (s s' : Section) : Prop :=
  ∃ content, s.content.Labelled content ∧ s' = { s with content }

theorem Labelled.refl (s : Section) : s.Labelled s := ⟨s.content, .refl _, rfl⟩

theorem Labelled.trans {s t u : Section} (hst : s.Labelled t) (htu : t.Labelled u) :
    s.Labelled u := by
  obtain ⟨content, hc, rfl⟩ := hst
  obtain ⟨content', hc', rfl⟩ := htu
  exact ⟨content', hc.trans hc', rfl⟩

theorem Labelled.grows {s s' : Section} (h : s.Labelled s') : s.Grows s' := by
  obtain ⟨content, ⟨added, rfl⟩, rfl⟩ := h
  exact ⟨rfl, Buffer.Labelled.grows ⟨added, rfl⟩, rfl, rfl, rfl, id⟩

/-- A section that continues another one covers what that covers. -/
theorem Grows.covers {s s' : Section} (h : s.Grows s') {rva : Nat} (hrva : s.covers rva = true) :
    s'.covers rva = true := by
  have hsize : s.sizeInMemory ≤ s'.sizeInMemory := by
    rw [sizeInMemory, sizeInMemory, h.virtSize]
    split
    · exact Nat.le_refl _
    · exact h.content.virtSize_le
  rw [Section.covers] at hrva ⊢
  rw [h.address]
  split at hrva
  · exact nomatch hrva
  · simp only [Bool.and_eq_true, decide_eq_true_eq] at hrva ⊢
    omega

/-- What an earlier encoding has left in a section: the label of the size in the file, where that size
is fixed now. -/
def leftover (s : Section) : List String :=
  if s.rawSize.isSome then (s.rawSizeLabel.map (·.name)).toList else []

theorem rawSizeLabel_eq_none {s : Section} (h : s.leftover = []) (hsize : s.rawSize.isSome) :
    s.rawSizeLabel = none := by
  rw [leftover, if_pos hsize] at h
  simpa using h

theorem labelled_labelAt (s : Section) (c : Context) (offset : Nat) (hint : String) :
    s.Labelled { s with content := (c.labelAt s.content offset hint).2.2 } :=
  ⟨_, Buffer.labelled_labelAt c s.content offset hint, rfl⟩

end Section

/-- The labels that an earlier encoding has left in sections whose size in the file is fixed now. -/
def leftoverLabels (sections : List Section) : List String := sections.flatMap Section.leftover

/-- Where no size in the file is fixed, every label of an earlier encoding is replaced. -/
theorem leftoverLabels_eq_nil {sections : List Section}
    (h : ∀ s ∈ sections, s.rawSize = none) : leftoverLabels sections = [] := by
  refine List.flatMap_eq_nil_iff.2 fun s hs => ?_
  rw [Section.leftover, h s hs]
  rfl

/-- Every section of the first list is continued at its place in the second. -/
def SectionsGrow (l l' : List Section) : Prop :=
  ∀ (i : Nat) (s : Section), l[i]? = some s → ∃ s', l'[i]? = some s' ∧ s.Grows s'

theorem SectionsGrow.refl (l : List Section) : SectionsGrow l l :=
  fun _ s h => ⟨s, h, .refl s⟩

theorem SectionsGrow.trans {l m n : List Section} (hlm : SectionsGrow l m)
    (hmn : SectionsGrow m n) : SectionsGrow l n := by
  intro i s hs
  obtain ⟨t, ht, hst⟩ := hlm i s hs
  obtain ⟨u, hu, htu⟩ := hmn i t ht
  exact ⟨u, hu, hst.trans htu⟩

theorem exists_right_of_forall₂ {α β : Type} {R : α → β → Prop} {l : List α} {m : List β}
    (h : List.Forall₂ R l m) {i : Nat} {a : α} (ha : l[i]? = some a) :
    ∃ b, m[i]? = some b ∧ R a b := by
  obtain ⟨hi, rfl⟩ := List.getElem?_eq_some_iff.1 ha
  have hi' : i < m.length := h.length_eq ▸ hi
  exact ⟨m[i], List.getElem?_eq_getElem hi', h.get hi hi'⟩

theorem exists_left_of_forall₂ {α β : Type} {R : α → β → Prop} {l : List α} {m : List β}
    (h : List.Forall₂ R l m) {i : Nat} {b : β} (hb : m[i]? = some b) :
    ∃ a, l[i]? = some a ∧ R a b := by
  obtain ⟨hi, rfl⟩ := List.getElem?_eq_some_iff.1 hb
  have hi' : i < l.length := h.length_eq ▸ hi
  exact ⟨l[i], List.getElem?_eq_getElem hi', h.get hi' hi⟩

theorem forall₂_trans {α β γ : Type} {R : α → β → Prop} {S : β → γ → Prop} {T : α → γ → Prop}
    (hT : ∀ a b c, R a b → S b c → T a c) {l : List α} {m : List β} {n : List γ}
    (hlm : List.Forall₂ R l m) (hmn : List.Forall₂ S m n) : List.Forall₂ T l n := by
  induction hlm generalizing n with
  | nil =>
    cases hmn
    exact .nil
  | cons hR _ ih =>
    cases hmn with
    | cons hS hrest => exact .cons (hT _ _ _ hR hS) (ih hrest)

/-- Where each section is the one at its place with more labels, all are continued. -/
theorem sectionsGrow_of_labelled {l l' : List Section} (h : List.Forall₂ Section.Labelled l l') :
    SectionsGrow l l' := by
  intro i s hs
  obtain ⟨s', hs', hlabelled⟩ := exists_right_of_forall₂ h hs
  exact ⟨s', hs', hlabelled.grows⟩

/-- Changing one section to one that continues it keeps the others. -/
theorem sectionsGrow_modify (l : List Section) (i : Nat) (change : Section → Section)
    (h : ∀ s : Section, s.Grows (change s)) : SectionsGrow l (l.modify i change) := by
  intro j s hs
  rw [List.getElem?_modify, hs]
  by_cases hij : i = j
  · exact ⟨change s, by simp [hij], h s⟩
  · exact ⟨s, by simp [hij], .refl s⟩

/-- A section that is merged into accepts the content. -/
theorem mergeIndex_eq_some {flags : SectionFlags} {l : List Section} {i : Nat}
    (h : mergeIndex flags l = some i) : ∃ s, l[i]? = some s ∧ s.accepts flags = true := by
  induction l generalizing i with
  | nil => exact nomatch h
  | cons s rest ih =>
    rw [mergeIndex] at h
    split at h
    · next haccepts =>
      cases h
      rw [Bool.and_eq_true] at haccepts
      exact ⟨s, rfl, haccepts.1⟩
    · obtain ⟨j, hj, rfl⟩ := Option.map_eq_some_iff.1 h
      exact ih hj

/-- A generated section becomes part of one that is there, whose sizes are not fixed, or stands
behind all of them. -/
theorem appendSection_cases (l : List Section) (s : Section) :
    (∃ i t, l[i]? = some t ∧ t.virtSize = none ∧ t.rawSize = none ∧
      (appendSection l s).1 = l.modify i (·.merge s.content)) ∨
      (appendSection l s).1 = l ++ [s] := by
  rw [appendSection]
  cases h : mergeTarget l s with
  | none => exact .inr rfl
  | some i =>
    rw [mergeTarget] at h
    split at h
    · obtain ⟨t, ht, haccepts⟩ := mergeIndex_eq_some h
      simp only [Section.accepts, Bool.and_eq_true, Option.isNone_iff_eq_none] at haccepts
      exact .inl ⟨i, t, ht, haccepts.1.1.2, haccepts.1.2, rfl⟩
    · exact nomatch h

/-- **Adding a generated section keeps the others.** -/
theorem sectionsGrow_appendSection (l : List Section) {s : Section}
    (hs : s.content.FieldsWritten) : SectionsGrow l (appendSection l s).1 := by
  obtain ⟨i, -, -, -, -, h⟩ | h := appendSection_cases l s
  · rw [h]
    exact sectionsGrow_modify l i _ fun t => t.grows_merge hs
  · rw [h]
    intro i t ht
    exact ⟨t, List.getElem?_append_left (List.getElem?_eq_some_iff.1 ht).1 ▸ ht, .refl t⟩

/-- A field of a section after content was added is one that the section had, or one of the content. -/
theorem fields_appendSection {l : List Section} {s t : Section} {i k : Nat} {f : PendingField}
    (ht : (appendSection l s).1[i]? = some t) (hf : t.content.fields.get? k = some f) :
    (∃ u, l[i]? = some u ∧ u.content.fields.get? k = some f) ∨
      ∃ j, s.content.fields.get? j = some f := by
  obtain ⟨j, -, -, -, -, h⟩ | h := appendSection_cases l s
  · rw [h, List.getElem?_modify, Option.map_eq_map, Option.map_eq_some_iff] at ht
    obtain ⟨u, hu, rfl⟩ := ht
    split at hf
    · rw [Section.merge, Buffer.get?_fields_append, Option.or_eq_some_iff] at hf
      rcases hf with hf | ⟨-, hf⟩
      · split at hf
        · exact .inr ⟨_, hf⟩
        · exact nomatch hf
      · exact .inl ⟨u, hu, hf⟩
    · exact .inl ⟨u, hu, hf⟩
  · rw [h, List.getElem?_append] at ht
    split at ht
    · exact .inl ⟨t, ht, hf⟩
    · rw [List.getElem?_singleton] at ht
      split at ht
      · cases ht
        exact .inr ⟨k, hf⟩
      · exact nomatch ht

/-! ## What every section keeps -/

/-- A property of sections that labelling and merging keep and that generated sections have. -/
structure Section.Stable (P : Section → Prop) : Prop where
  labelled : ∀ {s s' : Section}, s.Labelled s' → P s → P s'
  merge : ∀ {s : Section} {content : Buffer}, content.FieldsWritten → P s → P (s.merge content)
  generated : ∀ (name : String) (flags : SectionFlags) {content : Buffer},
    content.FieldsWritten → P (.new name flags content)

theorem Section.stable_fieldsInside : Stable fun s => s.content.FieldsInside where
  labelled := by
    rintro s _ ⟨content, ⟨added, rfl⟩, rfl⟩ h
    exact h
  merge hc h := (h.align 8).append hc.inside
  generated _ _ _ hc := hc.inside

theorem Section.stable_fieldsWritten : Stable fun s => s.content.FieldsWritten where
  labelled := by
    rintro s _ ⟨content, ⟨added, rfl⟩, rfl⟩ h
    exact h
  merge hc h := (h.align 8).append hc
  generated _ _ _ hc := hc

theorem Section.stable_rawSize : Stable fun s => s.rawSize = none where
  labelled := by
    rintro s _ ⟨content, -, rfl⟩ h
    exact h
  merge _ h := h
  generated _ _ _ _ := rfl

theorem Section.stable_virtSize : Stable fun s => s.virtSize = none where
  labelled := by
    rintro s _ ⟨content, -, rfl⟩ h
    exact h
  merge _ h := h
  generated _ _ _ _ := rfl

theorem Section.stable_leftover {P : String → Prop} : Stable fun s => ∀ l ∈ s.leftover, P l where
  labelled := by
    rintro s _ ⟨content, -, rfl⟩ h
    exact h
  merge _ h := h
  generated _ _ _ _ := fun _ hl => absurd hl List.not_mem_nil

theorem Section.Stable.of_labelled {P : Section → Prop} (hP : Stable P) {l l' : List Section}
    (h : List.Forall₂ Section.Labelled l l') (hl : ∀ s ∈ l, P s) : ∀ s ∈ l', P s := by
  intro s' hs'
  obtain ⟨i, hi⟩ := List.mem_iff_getElem?.1 hs'
  obtain ⟨s, hs, hlabelled⟩ := exists_left_of_forall₂ h hi
  exact hP.labelled hlabelled (hl s (List.mem_of_getElem? hs))

/-- Generated content is content of a section of its own, or of the one it becomes part of. -/
theorem Section.Stable.appendSection {P : Section → Prop} (hP : Stable P) {l : List Section}
    {name : String} {flags : SectionFlags} {content : Buffer} (hc : content.FieldsWritten)
    (hl : ∀ t ∈ l, P t) : ∀ t ∈ (appendSection l (.new name flags content)).1, P t := by
  intro t ht
  obtain ⟨i, -, -, -, -, h⟩ | h := appendSection_cases l (.new name flags content)
  · rw [h] at ht
    obtain ⟨j, hj⟩ := List.mem_iff_getElem?.1 ht
    rw [List.getElem?_modify, Option.map_eq_map, Option.map_eq_some_iff] at hj
    obtain ⟨u, hu, rfl⟩ := hj
    have hkeep := hl u (List.mem_of_getElem? hu)
    split
    · exact hP.merge hc hkeep
    · exact hkeep
  · rw [h] at ht
    rcases List.mem_append.1 ht with ht | ht
    · exact hl t ht
    · rw [List.mem_singleton.1 ht]
      exact hP.generated name flags hc

/-! ## Where generated content stands -/

/-- **The content of a generated section stands in some section, behind what was there.** -/
theorem exists_appendSection (l : List Section) (s : Section) :
    ∃ (i : Nat) (t : Section) (front : Buffer), (appendSection l s).1[i]? = some t ∧
      t.content = front ++ s.content ∧
      (front = .empty ∨ ∃ u ∈ l, front = u.content.align 8) := by
  obtain ⟨i, t, ht, -, -, h⟩ | h := appendSection_cases l s
  · refine ⟨i, t.merge s.content, t.content.align 8, ?_, rfl,
      .inr ⟨t, List.mem_of_getElem? ht, rfl⟩⟩
    rw [h, List.getElem?_modify, ht]
    simp
  · refine ⟨l.length, s, .empty, ?_, (Buffer.empty_append s.content).symm, .inl rfl⟩
    rw [h, List.getElem?_append_right (Nat.le_refl _), Nat.sub_self]
    rfl

end PortableImage
