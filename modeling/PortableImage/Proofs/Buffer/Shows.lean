import PortableImage.Proofs.Buffer.Fixup
import PortableImage.Proofs.Buffer.Window
import PortableImage.Proofs.Growth

/-!
# Buffers that stand in others

A buffer that was put behind another one stands there whatever comes behind it.  When the whole is
fixed up, the bytes there are those that the buffer becomes on its own.

* `Buffer.Shows` — from an offset on, a buffer has the bytes and the pending fields of another one.
* `Buffer.Shows.fixup` — a fixup keeps this.
-/

set_option autoImplicit false

namespace PortableImage.Buffer

/-- Fields that all fit with their values can be written. -/
theorem exists_resolvedFields {binding : Binding} {l : List (Nat × PendingField)}
    (h : ∀ k f v, (k, f) ∈ l → f.target.constantUnder binding = some v →
      ∃ bytes, f.type.encodeValue v f.order = .ok bytes) :
    ∃ resolved, resolvedFields binding l = .ok resolved := by
  induction l with
  | nil => exact ⟨[], rfl⟩
  | cons e rest ih =>
    obtain ⟨k, f⟩ := e
    obtain ⟨others, hothers⟩ := ih fun k f v hmem => h k f v (List.mem_cons_of_mem _ hmem)
    cases hv : f.target.constantUnder binding with
    | none => exact ⟨others, resolvedFields_cons.2 (.inl ⟨hv, hothers⟩)⟩
    | some v =>
      obtain ⟨bytes, hbytes⟩ := h k f v List.mem_cons_self hv
      exact ⟨_, resolvedFields_cons.2 (.inr ⟨v, bytes, others, hv, hbytes, hothers, rfl⟩)⟩

/-- A buffer can be fixed up if another one can that has all its fields somewhere. -/
theorem exists_fixup {b b' c : Buffer} {binding : Binding} (h : b.fixup binding = .ok b')
    (hc : ∀ k f, c.fields.get? k = some f → ∃ k', b.fields.get? k' = some f) :
    ∃ c', c.fixup binding = .ok c' := by
  obtain ⟨resolved, hresolved, -⟩ := fixup_eq_ok.1 h
  obtain ⟨others, hothers⟩ : ∃ others, resolvedFields binding c.fields.entries = .ok others := by
    refine exists_resolvedFields fun k f v hmem hv => ?_
    obtain ⟨k', hk'⟩ := hc k f (OffsetMap.get?_eq_some.2 hmem)
    exact encodes_of_resolvedFields hresolved (OffsetMap.get?_eq_some.1 hk') hv
  exact ⟨_, fixup_eq_ok.2 ⟨others, hothers, rfl⟩⟩

/-- From the offset on, the first buffer has the bytes and the pending fields of the second.  No
pending field before the offset reaches beyond it. -/
structure Shows (b : Buffer) (o : Nat) (c : Buffer) : Prop where
  inside : o + c.virtSize ≤ b.virtSize
  contents : ∀ j, j < c.virtSize → b.contents[o + j]? = c.contents[j]?
  fields : ∀ k, k < c.virtSize → b.fields.get? (o + k) = c.fields.get? k
  clear : ∀ k f, k < o → b.fields.get? k = some f → k + f.type.width ≤ o

theorem Shows.refl (b : Buffer) : b.Shows 0 b where
  inside := Nat.le_of_eq (Nat.zero_add _)
  contents j _ := by rw [Nat.zero_add]
  fields k _ := by rw [Nat.zero_add]
  clear k f hk := nomatch hk

/-- What is put behind a buffer stands there. -/
theorem FieldsInside.shows_append {a : Buffer} (ha : a.FieldsInside) (c : Buffer) :
    (a ++ c).Shows a.virtSize c where
  inside := Nat.le_of_eq (virtSize_append a c).symm
  contents j _ := by
    rw [contents_append, List.getElem?_append_right (by rw [length_contents]; omega),
      length_contents, Nat.add_sub_cancel_left]
  fields k _ := by
    rw [get?_fields_append, if_pos (Nat.le_add_right _ _), Nat.add_sub_cancel_left]
    cases hk : a.fields.get? (a.virtSize + k) with
    | none => rw [Option.or_none]
    | some f =>
      have hle := ha _ f hk
      have hpos := f.type.width_pos
      omega
  clear k f hk hf := ha k f ((get?_fields_append_left hk).symm.trans hf)

theorem Shows.grows {b b' c : Buffer} {o : Nat} (h : b.Shows o c) (hg : b.Grows b') :
    b'.Shows o c where
  inside := Nat.le_trans h.inside hg.virtSize_le
  contents j hj := by
    have hle := h.inside
    rw [hg.contents _ (by omega), h.contents j hj]
  fields k hk := by
    have hle := h.inside
    rw [hg.fields _ (by omega), h.fields k hk]
  clear k f hk hf := by
    have hle := h.inside
    exact h.clear k f hk (by rwa [hg.fields k (by omega)] at hf)

/-- What a buffer starts with stands where the buffer does. -/
theorem Shows.of_grows {b c c' : Buffer} {o : Nat} (h : b.Shows o c') (hg : c.Grows c') :
    b.Shows o c where
  inside := Nat.le_trans (Nat.add_le_add_left hg.virtSize_le o) h.inside
  contents j hj := by
    rw [h.contents j (Nat.lt_of_lt_of_le hj hg.virtSize_le), hg.contents j hj]
  fields k hk := by
    rw [h.fields k (Nat.lt_of_lt_of_le hk hg.virtSize_le), hg.fields k hk]
  clear := h.clear

/-- **A buffer that stands in another one is fixed up as on its own.** -/
theorem Shows.fixup {b b' c : Buffer} {o : Nat} {binding : Binding} (h : b.Shows o c)
    (hc : c.FieldsInside) (hfix : b.fixup binding = .ok b') :
    ∃ c', c.fixup binding = .ok c' ∧ c'.virtSize = c.virtSize ∧
      ∀ j, j < c.virtSize → b'.contents[o + j]? = c'.contents[j]? := by
  obtain ⟨c', hfix'⟩ := exists_fixup hfix fun k f hk => by
    have hle := hc k f hk
    have hpos := f.type.width_pos
    exact ⟨o + k, (h.fields k (by omega)).trans hk⟩
  -- both are compared with all their zeros written out
  obtain ⟨d, hd, halike⟩ := Alike.fixup (b := b.fill) ⟨(contents_fill b).symm, rfl⟩ hfix
  obtain ⟨d', hd', halike'⟩ := Alike.fixup (b := c.fill) ⟨(contents_fill c).symm, rfl⟩ hfix'
  have hraw := rawSize_fill b
  have hraw' := rawSize_fill c
  obtain ⟨hsize, htail⟩ := rawSize_fixup hd' rfl hc.fill
  have hle := h.inside
  have hgrown := rawSize_le_fixup hd
  refine ⟨c', hfix', ?_, fun j hj => ?_⟩
  · rw [halike'.virtSize_eq, virtSize, htail, ← rawSize, hsize, hraw']
    rfl
  · rw [halike.contents, halike'.contents, getElem?_contents_of_lt (by omega),
      getElem?_contents_of_lt (by omega)]
    refine getElem?_fixup_window hd hd' (by omega) (by omega) ?_ (fun k hk => ?_) h.clear
      fun _ _ _ _ _ => rfl
    · rw [data_fill, data_fill]
      exact h.contents j hj
    · exact h.fields k (by omega)

/-- What stands in a buffer stands in its bytes, once all of them are written out. -/
theorem Shows.bytesAt_fixup {b d c : Buffer} {o : Nat} {binding : Binding} (h : b.Shows o c)
    (hb : b.FieldsInside) (hc : c.FieldsInside) (hfix : b.fill.fixup binding = .ok d) :
    ∃ c', c.fixup binding = .ok c' ∧ bytesAt d.data o c.virtSize = c'.contents := by
  have hfill : b.fill.Shows o c :=
    ⟨by rw [← length_contents b.fill, contents_fill, length_contents]; exact h.inside,
      fun j hj => by rw [contents_fill, h.contents j hj], h.fields, h.clear⟩
  obtain ⟨-, htail⟩ := rawSize_fixup hfix rfl hb.fill
  obtain ⟨c', hfix', hsize, hsame⟩ := hfill.fixup hc hfix
  refine ⟨c', hfix', List.ext_getElem? fun j => ?_⟩
  rw [getElem?_bytesAt]
  split
  · next hj => rw [← hsame j hj, contents_eq_data htail]
  · next hj => rw [List.getElem?_eq_none (by rw [length_contents, hsize]; omega)]

/-- Fields that lie in a buffer do not make it longer. -/
theorem virtSize_fixup {b b' : Buffer} {binding : Binding} (hb : b.FieldsInside)
    (hfix : b.fixup binding = .ok b') : b'.virtSize = b.virtSize := by
  obtain ⟨c, hc, hsize, -⟩ := (Shows.refl b).fixup hb hfix
  rw [hfix, Except.ok.injEq] at hc
  rw [hc, hsize]

end PortableImage.Buffer
