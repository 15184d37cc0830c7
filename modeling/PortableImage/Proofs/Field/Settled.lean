import PortableImage.Proofs.Field.Spelled

/-!
# Records that can be written and settled

A record is written if its constants fit their fields.  It is fixed up if a binding gives every field
a value that fits, and then it is the row of these values.

* `FieldEncoder.exists_record` — a record that can be written.
* `FieldEncoder.fixup_record` — a record that can be fixed up, and its bytes.
-/

set_option autoImplicit false

namespace PortableImage

namespace FieldEncoder

open Buffer

variable {f : FieldEncoder} {b : Buffer} {binding : Binding}

/-! ## Writing -/

theorem exists_encode {t : FieldType} {e : Expr} (h : ∀ v, e.reduce = .const v → t.Fits v) :
    ∃ b, f.encode t e = .ok b := by
  rw [encode]
  split
  · next v hv =>
    have hbytes := FieldType.encodeValue_eq_ok (o := f.order).2
      ⟨h v (Expr.constant?_eq_some.1 hv), rfl⟩
    exact ⟨_, bind_eq_ok.2 ⟨_, hbytes, rfl⟩⟩
  · exact ⟨_, rfl⟩

/-- A record can be written if its constants fit their fields. -/
theorem exists_record {r : Record} (h : ∀ x ∈ r, ∀ v, x.2.reduce = .const v → x.1.Fits v) :
    ∃ b, f.record r = .ok b := by
  induction r with
  | nil => exact ⟨_, rfl⟩
  | cons x r ih =>
    obtain ⟨first, hfirst⟩ := exists_encode (f := f) (h x List.mem_cons_self)
    obtain ⟨others, hothers⟩ := ih fun y hy => h y (List.mem_cons_of_mem _ hy)
    exact ⟨_, record_cons.2 ⟨first, others, hfirst, hothers, rfl⟩⟩

/-! ## Fixing up -/

theorem exists_fixup_encode {t : FieldType} {e : Expr} {v : LinkValue} (h : f.encode t e = .ok b)
    (hv : e.constantUnder binding = some v) (hfits : t.Fits v) :
    ∃ b', b.fixup binding = .ok b' := by
  obtain ⟨w, bytes, -, -, rfl⟩ | ⟨-, rfl⟩ := encode_eq_ok h
  · exact ⟨_, rfl⟩
  · have hbytes := FieldType.encodeValue_eq_ok (o := f.order).2 ⟨hfits, rfl⟩
    have hunder : e.reduce.constantUnder binding = some v := by
      rw [Expr.constantUnder_reduce, hv]
    rw [fixup_placeholder hunder, hbytes]
    exact ⟨_, rfl⟩

/-- **A record all of whose values are known and fit is fixed up to their bytes.** -/
theorem fixup_record {r : Record} {vs : FieldValues} (h : f.record r = .ok b)
    (hr : r.Becomes binding vs) (hfit : vs.Fit) :
    b.fixup binding = .ok (ofBytes (vs.bytes f.order)) := by
  have hexists : ∃ b', b.fixup binding = .ok b' := by
    induction r generalizing b vs with
    | nil =>
      cases h
      exact ⟨_, rfl⟩
    | cons x r ih =>
      obtain ⟨first, others, hfirst, hothers, rfl⟩ := record_cons.1 h
      cases hr with
      | cons hx hr =>
        obtain ⟨hhead, hrest⟩ := List.forall_mem_cons.1 hfit
        obtain ⟨first', hf1⟩ := exists_fixup_encode hfirst hx.2 (hx.1 ▸ hhead)
        obtain ⟨others', hf2⟩ := ih hothers hr hrest
        exact ⟨_, (fixup_append (fieldsInside_encode hfirst) (tail_encode hfirst)).2
          ⟨first', others', hf1, hf2, rfl⟩⟩
  obtain ⟨b', hfix⟩ := hexists
  have hsettled := record_fixup h hfix
  rw [hr.settle_eq] at hsettled
  rw [hfix, (record_constants hsettled).2]

end FieldEncoder

end PortableImage
