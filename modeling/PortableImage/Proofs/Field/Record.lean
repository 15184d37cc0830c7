import PortableImage.Field.Encoder
import PortableImage.Proofs.Buffer.Holds
import PortableImage.Proofs.Buffer.Written

/-!
# Records hold the values of their fields

* `FieldEncoder.holds_encode` — a field holds the value of its expression.
* `Record.size` — the bytes of a record; the fields before one add up to its place.
* `FieldEncoder.holds_record` — every field of a record holds its value at its place.
* `Buffer.HoldsRecord` — a record that stands somewhere in a buffer.
-/

set_option autoImplicit false

namespace PortableImage

/-- The bytes that the fields of a record take. -/
def Record.size (r : Record) : Nat := (r.map (·.1.width)).sum

theorem Record.size_cons (e : FieldType × Expr) (r : Record) :
    Record.size (e :: r) = e.1.width + r.size := by
  rw [size, List.map_cons, List.sum_cons, size]

theorem Record.size_append (r s : Record) : Record.size (r ++ s) = r.size + s.size := by
  rw [size, List.map_append, List.sum_append, size, size]

namespace FieldEncoder

open Buffer

theorem signed_addressType (f : FieldEncoder) : f.addressType.signed = false := by
  unfold addressType
  split <;> rfl

variable {f : FieldEncoder} {b : Buffer}

section Encode

variable {type : FieldType} {value : Expr} (h : f.encode type value = .ok b)

include h

/-- A field is either the bytes of its value or pending. -/
theorem encode_eq_ok :
    (∃ v bytes, value.reduce = .const v ∧ type.encodeValue v f.order = .ok bytes ∧
      b = ofBytes bytes) ∨
    (value.reduce.constant? = none ∧ b = placeholder value.reduce type f.order) := by
  rw [encode] at h
  split at h
  · next v hv =>
    rw [bind_eq_ok] at h
    obtain ⟨bytes, hb, heq⟩ := h
    exact .inl ⟨v, bytes, Expr.constant?_eq_some.1 hv, hb, (pure_eq_ok.1 heq).symm⟩
  · next hnone =>
    cases h
    exact .inr ⟨hnone, rfl⟩

theorem plain_encode : b.Plain := by
  obtain ⟨v, bytes, -, -, rfl⟩ | ⟨-, rfl⟩ := encode_eq_ok h
  · exact plain_ofBytes bytes
  · exact plain_placeholder _ _ _

theorem exports_encode : b.exports = [] := (plain_encode h).exports

theorem fieldsInside_encode : b.FieldsInside := (plain_encode h).written.inside

theorem virtSize_encode : b.virtSize = type.width := by
  obtain ⟨v, bytes, -, hb, rfl⟩ | ⟨-, rfl⟩ := encode_eq_ok h
  · exact FieldType.length_encodeValue hb
  · exact List.length_replicate

theorem get?_fields_encode (k : Nat) :
    b.fields.get? k =
      if k = 0 ∧ value.reduce.constant? = none then some ⟨value.reduce, type, f.order⟩
      else none := by
  obtain ⟨v, bytes, hv, -, rfl⟩ | ⟨hnone, rfl⟩ := encode_eq_ok h
  · rw [hv]
    simp [ofBytes, Expr.constant?]
  · simp only [hnone, and_true]
    exact OffsetMap.get?_singleton 0 k _

/-- A field holds the value of its expression. -/
theorem holds_encode (env : String → LinkValue) :
    Holds env b 0 type f.order (value.eval env) where
  inside := by rw [virtSize_encode h, Nat.zero_add]
  apart k g hk hne := by
    rw [get?_fields_encode h, if_neg fun hk0 => hne hk0.1] at hk
    exact nomatch hk
  value := by
    obtain ⟨v, bytes, hv, hb, rfl⟩ | ⟨hnone, rfl⟩ := encode_eq_ok h
    · refine .inr ⟨rfl, ?_⟩
      have heval : value.eval env = v := by
        rw [← Expr.eval_reduce, hv]
        rfl
      have hlen := FieldType.length_encodeValue hb
      rw [heval, hb, contents_eq_data rfl, ← hlen]
      exact congrArg _ (bytesAt_self bytes).symm
    · refine .inl ⟨value.reduce, ?_, Expr.eval_reduce env value⟩
      rw [get?_fields_encode h, if_pos ⟨rfl, hnone⟩]

end Encode

/-! ## Records -/

theorem record_cons {type : FieldType} {value : Expr} {r : Record} :
    f.record ((type, value) :: r) = .ok b ↔
      ∃ first others, f.encode type value = .ok first ∧ f.record r = .ok others ∧
        b = first ++ others := by
  rw [record]
  simp only [bind_eq_ok, pure_eq_ok, eq_comm (b := b)]
  constructor
  · rintro ⟨first, h1, others, h2, rfl⟩
    exact ⟨first, others, h1, h2, rfl⟩
  · rintro ⟨first, others, h1, h2, rfl⟩
    exact ⟨first, h1, others, h2, rfl⟩

section Record

variable {r : Record} (h : f.record r = .ok b)

include h

theorem exports_record : b.exports = [] := by
  induction r generalizing b with
  | nil =>
    cases h
    rfl
  | cons e r ih =>
    obtain ⟨first, others, h1, h2, rfl⟩ := record_cons.1 h
    rw [exports_append, exports_encode h1, ih h2]
    rfl

theorem virtSize_record : b.virtSize = r.size := by
  induction r generalizing b with
  | nil =>
    cases h
    rfl
  | cons e r ih =>
    obtain ⟨first, others, h1, h2, rfl⟩ := record_cons.1 h
    rw [virtSize_append, virtSize_encode h1, ih h2, Record.size_cons]

theorem plain_record : b.Plain := by
  induction r generalizing b with
  | nil =>
    cases h
    exact plain_empty
  | cons e r ih =>
    obtain ⟨first, others, h1, h2, rfl⟩ := record_cons.1 h
    exact (plain_encode h1).append (ih h2)

theorem fieldsInside_record : b.FieldsInside := (plain_record h).written.inside

/-- What is pending in a record is the value of one of its fields. -/
theorem exists_of_fields_record {k : Nat} {g : PendingField} (hg : b.fields.get? k = some g) :
    ∃ x ∈ r, g.target = x.2.reduce := by
  induction r generalizing b k with
  | nil =>
    cases h
    exact nomatch (OffsetMap.get?_empty k).symm.trans hg
  | cons e r ih =>
    obtain ⟨first, others, h1, h2, rfl⟩ := record_cons.1 h
    rw [get?_fields_append, Option.or_eq_some_iff] at hg
    rcases hg with hg | ⟨-, hg⟩
    · split at hg
      · obtain ⟨x, hx, htarget⟩ := ih h2 hg
        exact ⟨x, List.mem_cons_of_mem _ hx, htarget⟩
      · exact nomatch hg
    · rw [get?_fields_encode h1] at hg
      split at hg
      · cases hg
        exact ⟨e, List.mem_cons_self, rfl⟩
      · exact nomatch hg

end Record

/-- Every field of a record holds its value, behind the fields before it. -/
theorem holds_record (before : Record) {behind : Record} {type : FieldType} {value : Expr}
    (h : f.record (before ++ (type, value) :: behind) = .ok b) (env : String → LinkValue) :
    Holds env b before.size type f.order (value.eval env) := by
  induction before generalizing b with
  | nil =>
    obtain ⟨first, others, h1, -, rfl⟩ := record_cons.1 h
    exact (holds_encode h1 env).append_left
  | cons e before ih =>
    obtain ⟨first, others, h1, h2, rfl⟩ := record_cons.1 h
    rw [Record.size_cons, ← virtSize_encode h1]
    exact (ih h2).append_right (fieldsInside_encode h1)

/-- A field of a record without a constant value is pending, behind the fields before it. -/
theorem get?_fields_record {before behind : Record} {type : FieldType} {value : Expr}
    (h : f.record (before ++ (type, value) :: behind) = .ok b)
    (hnone : value.reduce.constant? = none) :
    b.fields.get? before.size = some ⟨value.reduce, type, f.order⟩ := by
  induction before generalizing b with
  | nil =>
    obtain ⟨first, others, h1, -, rfl⟩ := record_cons.1 h
    have hpos : 0 < first.virtSize := by
      rw [virtSize_encode h1]
      exact type.width_pos
    rw [show Record.size [] = 0 from rfl, get?_fields_append_left hpos,
      get?_fields_encode h1, if_pos ⟨rfl, hnone⟩]
  | cons e before ih =>
    obtain ⟨first, others, h1, h2, rfl⟩ := record_cons.1 h
    rw [Record.size_cons, get?_fields_append, virtSize_encode h1, if_pos (Nat.le_add_right _ _),
      Nat.add_sub_cancel_left, ih h2, Option.some_or]

theorem tail_encode {type : FieldType} {value : Expr} (h : f.encode type value = .ok b) :
    b.tail = 0 := by
  obtain ⟨v, bytes, -, -, rfl⟩ | ⟨-, rfl⟩ := encode_eq_ok h <;> rfl

end FieldEncoder

/-! ## Records inside a buffer -/

/-- The fields of the record hold their values, one behind the other from `o` on. -/
def Buffer.HoldsRecord (env : String → LinkValue) (b : Buffer) (order : ByteOrder) :
    (o : Nat) → Record → Prop
  | _, [] => True
  | o, (type, value) :: r =>
    b.Holds env o type order (value.eval env) ∧ HoldsRecord env b order (o + type.width) r

namespace Buffer

variable {env : String → LinkValue} {b b' : Buffer} {order : ByteOrder}

theorem holdsRecord_append {o : Nat} {r s : Record} :
    HoldsRecord env b order o (r ++ s) ↔
      HoldsRecord env b order o r ∧ HoldsRecord env b order (o + r.size) s := by
  induction r generalizing o with
  | nil => simp [HoldsRecord, Record.size]
  | cons e r ih =>
    rw [List.cons_append, HoldsRecord, HoldsRecord, ih, Record.size_cons, and_assoc,
      Nat.add_assoc]

/-- Every field of the record holds its value, behind the fields before it. -/
theorem HoldsRecord.holds (before : Record) {behind : Record} {o : Nat} {type : FieldType}
    {value : Expr} (h : HoldsRecord env b order o (before ++ (type, value) :: behind)) :
    b.Holds env (o + before.size) type order (value.eval env) :=
  (holdsRecord_append.1 h).2.1

/-- What keeps the values of fields keeps those of a record. -/
theorem HoldsRecord.map {o k : Nat} {r : Record} (h : HoldsRecord env b order o r)
    (hkeeps : ∀ p t v, o ≤ p → p + t.width ≤ o + r.size → b.Holds env p t order v →
      b'.Holds env (k + p) t order v) : HoldsRecord env b' order (k + o) r := by
  induction r generalizing o with
  | nil => trivial
  | cons e r ih =>
    rw [Record.size_cons] at hkeeps
    refine ⟨hkeeps o e.1 _ (Nat.le_refl _) (by omega) h.1, ?_⟩
    rw [Nat.add_assoc]
    exact ih h.2 fun p t v hle hlt hv => hkeeps p t v (by omega) (by omega) hv

/-- A record holds the values of its fields. -/
theorem holdsRecord_record {f : FieldEncoder} {r : Record} (h : f.record r = .ok b)
    (env : String → LinkValue) : HoldsRecord env b f.order 0 r := by
  induction r generalizing b with
  | nil => trivial
  | cons e r ih =>
    obtain ⟨first, others, h1, h2, rfl⟩ := FieldEncoder.record_cons.1 h
    refine ⟨(FieldEncoder.holds_encode h1 env).append_left, ?_⟩
    have hsize := FieldEncoder.virtSize_encode h1
    rw [Nat.add_comm, ← hsize]
    exact (ih h2).map fun p t v _ _ hv => hv.append_right (FieldEncoder.fieldsInside_encode h1)

end Buffer

end PortableImage
