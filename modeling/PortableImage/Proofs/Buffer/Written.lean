import PortableImage.Proofs.Buffer.Fields

/-!
# Pending fields in the bytes that are written out

A pending field behind the bytes of a buffer would have to be written where the zeros are that are
not written out.  No generated buffer has such a field: a field is a number of bytes when it is
added, and what follows it only adds more.

* `Buffer.FieldsWritten` — every pending field lies in the bytes that are written out; the
  operations that generate buffers keep it.
* `Buffer.FieldsApart` — no two pending fields overlap.
* `Buffer.Plain` — such a buffer without labels.
-/

set_option autoImplicit false

namespace PortableImage.Buffer

/-- Every pending field lies in the bytes that are written out. -/
def FieldsWritten (b : Buffer) : Prop :=
  ∀ k f, b.fields.get? k = some f → k + f.type.width ≤ b.rawSize

theorem fieldsWritten_iff {b : Buffer} :
    b.FieldsWritten ↔ ∀ e ∈ b.fields.entries, e.1 + e.2.type.width ≤ b.rawSize :=
  ⟨fun h e he => h e.1 e.2 (OffsetMap.get?_eq_some.2 he),
    fun h k f hk => h (k, f) (OffsetMap.get?_eq_some.1 hk)⟩

instance (b : Buffer) : Decidable b.FieldsWritten := decidable_of_iff _ fieldsWritten_iff.symm

theorem FieldsWritten.inside {b : Buffer} (h : b.FieldsWritten) : b.FieldsInside :=
  fun k f hk => Nat.le_trans (h k f hk) b.rawSize_le_virtSize

theorem fieldsWritten_of_noFields {b : Buffer} (h : b.fields = .empty) : b.FieldsWritten := by
  intro k f hk
  rw [h] at hk
  exact absurd hk (by simp)

theorem fieldsWritten_empty : empty.FieldsWritten := fieldsWritten_of_noFields rfl

/-- Content behind a buffer: the zeros of the first are written out. -/
theorem FieldsInside.append_written {a b : Buffer} (ha : a.FieldsInside) (hb : b.FieldsWritten) :
    (a ++ b).FieldsWritten := by
  intro k f hk
  rw [rawSize_append]
  rw [get?_fields_append, Option.or_eq_some_iff] at hk
  rcases hk with hk | ⟨-, hk⟩
  · split at hk
    · have := hb _ _ hk
      omega
    · exact absurd hk (by simp)
  · have := ha _ _ hk
    omega

theorem FieldsWritten.append {a b : Buffer} (ha : a.FieldsWritten) (hb : b.FieldsWritten) :
    (a ++ b).FieldsWritten := ha.inside.append_written hb

theorem FieldsWritten.align {b : Buffer} (h : b.FieldsWritten) (boundary : Nat) :
    (b.align boundary).FieldsWritten := h

theorem FieldsWritten.extend {b : Buffer} (h : b.FieldsWritten) (bytes : List UInt8) :
    (b.extend bytes).FieldsWritten := by
  rw [extend_eq_append]
  exact h.append (fieldsWritten_of_noFields rfl)

theorem FieldsWritten.addExport {b : Buffer} (h : b.FieldsWritten) (name : String) (offset : Nat) :
    (b.addExport name offset).FieldsWritten := h

/-- A buffer without zeros behind its bytes. -/
theorem FieldsInside.written {b : Buffer} (h : b.FieldsInside) (ht : b.tail = 0) :
    b.FieldsWritten := by
  intro k f hk
  have hle := h k f hk
  rwa [virtSize, ht, Nat.add_zero] at hle

theorem fieldsWritten_placeholder (target : Expr) (t : FieldType) (order : ByteOrder) :
    (placeholder target t order).FieldsWritten :=
  (fieldsInside_placeholder target t order).written rfl

theorem FieldsWritten.fixup {b b' : Buffer} {binding : Binding} (h : b.fixup binding = .ok b')
    (hb : b.FieldsWritten) : b'.FieldsWritten := by
  intro k f hk
  rw [get?_fields_fixup h, Option.filter_eq_some_iff] at hk
  exact Nat.le_trans (hb k f hk.1) (rawSize_le_fixup h)

/-! ## Fields apart from each other -/

/-- No two pending fields overlap. -/
def FieldsApart (b : Buffer) : Prop :=
  ∀ j k f g, b.fields.get? j = some f → b.fields.get? k = some g → j < k → j + f.type.width ≤ k

theorem fieldsApart_iff {b : Buffer} : b.FieldsApart ↔ ∀ e ∈ b.fields.entries,
    ∀ e' ∈ b.fields.entries, e.1 < e'.1 → e.1 + e.2.type.width ≤ e'.1 :=
  ⟨fun h e he e' he' => h e.1 e'.1 e.2 e'.2 (OffsetMap.get?_eq_some.2 he)
    (OffsetMap.get?_eq_some.2 he'), fun h j k f g hf hg =>
      h (j, f) (OffsetMap.get?_eq_some.1 hf) (k, g) (OffsetMap.get?_eq_some.1 hg)⟩

instance (b : Buffer) : Decidable b.FieldsApart := decidable_of_iff _ fieldsApart_iff.symm

/-! ## Buffers without labels -/

/-- A buffer without labels, its pending fields in its bytes. -/
structure Plain (b : Buffer) : Prop where
  written : b.FieldsWritten
  exports : b.exports = []

theorem plain_empty : empty.Plain := ⟨fieldsWritten_empty, rfl⟩

theorem plain_ofBytes (data : List UInt8) : (ofBytes data).Plain :=
  ⟨fieldsWritten_of_noFields rfl, rfl⟩

theorem plain_placeholder (target : Expr) (t : FieldType) (order : ByteOrder) :
    (placeholder target t order).Plain := ⟨fieldsWritten_placeholder target t order, rfl⟩

theorem Plain.append {a b : Buffer} (ha : a.Plain) (hb : b.Plain) : (a ++ b).Plain where
  written := ha.written.append hb.written
  exports := by rw [exports_append, ha.exports, hb.exports, List.map_nil, List.append_nil]

theorem plain_concat {bs : List Buffer} (h : ∀ b ∈ bs, b.Plain) : (concat bs).Plain := by
  induction bs with
  | nil => exact plain_empty
  | cons b bs ih =>
    exact (h b List.mem_cons_self).append (ih fun c hc => h c (List.mem_cons_of_mem _ hc))

end PortableImage.Buffer
