import PortableImage.Proofs.Buffer.Bytes
import PortableImage.Proofs.Field.Value
import PortableImage.Proofs.OffsetMap
import PortableImage.Proofs.Outcome

/-!
# Pending fields through the operations on buffers

What is pending at each offset after an operation, and how the bytes that are there change.

* `Buffer.FieldsInside` — every pending field lies inside the buffer; appending and slicing keep it.
* `Buffer.fixup_eq_ok` — what remains pending when the fields with values are written, and which
  bytes change.
-/

set_option autoImplicit false

namespace PortableImage.Buffer

/-! ## Fields and labels -/

theorem get?_fields_append (a b : Buffer) (k : Nat) :
    (a ++ b).fields.get? k =
      ((if a.virtSize ≤ k then b.fields.get? (k - a.virtSize) else none)).or (a.fields.get? k) := by
  show (a.fields.insertAll (b.fields.shift a.virtSize)).get? k = _
  rw [OffsetMap.get?_insertAll, OffsetMap.get?_shift]

/-- The fields of the first buffer that start inside it stay. -/
theorem get?_fields_append_left {a b : Buffer} {k : Nat} (h : k < a.virtSize) :
    (a ++ b).fields.get? k = a.fields.get? k := by
  rw [get?_fields_append, if_neg (by omega), Option.none_or]

theorem get?_fields_append_right {a b : Buffer} {k : Nat} {f : PendingField}
    (h : b.fields.get? k = some f) : (a ++ b).fields.get? (a.virtSize + k) = some f := by
  rw [get?_fields_append, if_pos (Nat.le_add_right _ _), Nat.add_sub_cancel_left, h, Option.some_or]

@[simp]
theorem exports_append (a b : Buffer) :
    (a ++ b).exports = a.exports ++ b.exports.map fun e => (e.1, e.2 + a.virtSize) := rfl

@[simp]
theorem data_append (a b : Buffer) : (a ++ b).data = a.contents ++ b.data := rfl

@[simp]
theorem tail_append (a b : Buffer) : (a ++ b).tail = b.tail := rfl

theorem rawSize_append (a b : Buffer) : (a ++ b).rawSize = a.virtSize + b.rawSize := by
  rw [rawSize, data_append, List.length_append, length_contents, rawSize]

@[simp]
theorem fields_growTo (b : Buffer) (size : Nat) : (b.growTo size).fields = b.fields := rfl

@[simp]
theorem data_growTo (b : Buffer) (size : Nat) : (b.growTo size).data = b.data := rfl

@[simp]
theorem exports_growTo (b : Buffer) (size : Nat) : (b.growTo size).exports = b.exports := rfl

@[simp]
theorem fields_align (b : Buffer) (boundary : Nat) : (b.align boundary).fields = b.fields := rfl

@[simp]
theorem data_align (b : Buffer) (boundary : Nat) : (b.align boundary).data = b.data := rfl

@[simp]
theorem exports_align (b : Buffer) (boundary : Nat) : (b.align boundary).exports = b.exports := rfl

@[simp]
theorem fields_fill (b : Buffer) : b.fill.fields = b.fields := rfl

@[simp]
theorem exports_fill (b : Buffer) : b.fill.exports = b.exports := rfl

@[simp]
theorem data_fill (b : Buffer) : b.fill.data = b.contents := rfl

@[simp]
theorem tail_fill (b : Buffer) : b.fill.tail = 0 := rfl

@[simp]
theorem rawSize_fill (b : Buffer) : b.fill.rawSize = b.virtSize := by
  rw [rawSize, data_fill, length_contents]

@[simp]
theorem fields_addExport (b : Buffer) (name : String) (offset : Nat) :
    (b.addExport name offset).fields = b.fields := rfl

@[simp]
theorem data_addExport (b : Buffer) (name : String) (offset : Nat) :
    (b.addExport name offset).data = b.data := rfl

@[simp]
theorem tail_addExport (b : Buffer) (name : String) (offset : Nat) :
    (b.addExport name offset).tail = b.tail := rfl

@[simp]
theorem exports_addExport (b : Buffer) (name : String) (offset : Nat) :
    (b.addExport name offset).exports = b.exports ++ [(name, offset)] := rfl

@[simp]
theorem virtSize_addExport (b : Buffer) (name : String) (offset : Nat) :
    (b.addExport name offset).virtSize = b.virtSize := rfl

/-- Bytes behind a buffer are a buffer of bytes behind it. -/
theorem extend_eq_append (b : Buffer) (bytes : List UInt8) : b.extend bytes = b ++ ofBytes bytes := by
  show Buffer.mk _ _ _ b.exports = Buffer.mk _ _ _ (b.exports ++ [])
  rw [List.append_nil]
  rfl

theorem virtSize_le_align (b : Buffer) (boundary : Nat) :
    b.virtSize ≤ (b.align boundary).virtSize := by
  rw [align, virtSize_growTo]
  exact Nat.le_max_left _ _

theorem contents_eq_data {b : Buffer} (h : b.tail = 0) : b.contents = b.data := by
  rw [contents, h, List.replicate_zero, List.append_nil]

theorem data_slice (b : Buffer) : (b.slice 0 b.rawSize).data = b.data := by
  show (b.data.drop 0).take b.data.length = _
  rw [List.drop_zero, List.take_length]

theorem tail_slice (b : Buffer) : (b.slice 0 b.rawSize).tail = 0 := by
  show min b.rawSize (b.virtSize - 0) - ((b.data.drop 0).take b.data.length).length = 0
  rw [List.drop_zero, List.take_length, rawSize]
  omega

/-- The slice of all bytes that are written out has nothing behind them. -/
theorem virtSize_slice (b : Buffer) : (b.slice 0 b.rawSize).virtSize = b.rawSize := by
  rw [virtSize, data_slice, tail_slice, Nat.add_zero, rawSize]

theorem contents_slice (b : Buffer) : (b.slice 0 b.rawSize).contents = b.data := by
  rw [contents_eq_data b.tail_slice, data_slice]

theorem get?_fields_slice (b : Buffer) (offset len k : Nat) :
    (b.slice offset len).fields.get? k =
      (b.fields.get? (k + offset)).filter fun f => k + offset + f.type.width ≤ offset + len := by
  show ((b.fields.filter _).dropBelow offset).get? k = _
  rw [OffsetMap.get?_dropBelow, OffsetMap.get?_filter]
  congr 1
  funext f
  have hw := f.type.width_pos
  by_cases h : k + offset + f.type.width ≤ offset + len
  · simp [h, show k + offset < offset + len by omega]
  · simp [h]

theorem get?_fields_patch (b : Buffer) (offset : Nat) (other : Buffer) (k : Nat) :
    (b.patch offset other).fields.get? k =
      ((if offset ≤ k then other.fields.get? (k - offset) else none)).or
        ((b.fields.get? k).filter fun _ => k < offset || offset + other.virtSize ≤ k) := by
  show ((b.fields.filter _).insertAll (other.fields.shift offset)).get? k = _
  rw [OffsetMap.get?_insertAll, OffsetMap.get?_shift, OffsetMap.get?_filter]

/-- A buffer behind nothing is the buffer. -/
theorem empty_append (b : Buffer) : empty ++ b = b := by
  have hfields : (empty ++ b).fields = b.fields := by
    refine OffsetMap.ext_get? fun k => ?_
    rw [get?_fields_append, show empty.virtSize = 0 from rfl, if_pos (Nat.zero_le k)]
    show (b.fields.get? k).or none = _
    rw [Option.or_none]
  have hexports : (empty ++ b).exports = b.exports := by
    rw [exports_append]
    exact List.map_id _
  have hrest : empty ++ b = ⟨b.data, b.tail, (empty ++ b).fields, (empty ++ b).exports⟩ := rfl
  rw [hrest, hfields, hexports]

/-! ## Fields inside the buffer -/

/-- Every pending field lies inside the buffer. -/
def FieldsInside (b : Buffer) : Prop :=
  ∀ k f, b.fields.get? k = some f → k + f.type.width ≤ b.virtSize

/-- Every pending field starts inside the buffer. -/
def FieldsStart (b : Buffer) : Prop := ∀ k f, b.fields.get? k = some f → k < b.virtSize

theorem FieldsInside.start {b : Buffer} (h : b.FieldsInside) : b.FieldsStart := fun k f hk =>
  Nat.lt_of_lt_of_le (Nat.lt_add_of_pos_right f.type.width_pos) (h k f hk)

theorem fieldsInside_of_noFields {b : Buffer} (h : b.fields = .empty) : b.FieldsInside := by
  intro k f hk
  rw [h] at hk
  exact absurd hk (by simp)

theorem fieldsInside_empty : empty.FieldsInside := fieldsInside_of_noFields rfl

theorem FieldsInside.append {a b : Buffer} (ha : a.FieldsInside) (hb : b.FieldsInside) :
    (a ++ b).FieldsInside := by
  intro k f hk
  rw [virtSize_append]
  rw [get?_fields_append, Option.or_eq_some_iff] at hk
  rcases hk with hk | ⟨-, hk⟩
  · split at hk
    · have := hb _ _ hk
      omega
    · exact absurd hk (by simp)
  · have := ha _ _ hk
    omega

theorem FieldsInside.fill {b : Buffer} (h : b.FieldsInside) : b.fill.FieldsInside := fun k f hk => by
  have hle := h k f hk
  rw [← rawSize_fill] at hle
  exact Nat.le_trans hle b.fill.rawSize_le_virtSize

theorem FieldsInside.align {b : Buffer} (h : b.FieldsInside) (boundary : Nat) :
    (b.align boundary).FieldsInside :=
  fun k f hk => Nat.le_trans (h k f hk) (b.virtSize_le_align boundary)

theorem FieldsInside.addExport {b : Buffer} (h : b.FieldsInside) (name : String) (offset : Nat) :
    (b.addExport name offset).FieldsInside := h

theorem FieldsInside.extend {b : Buffer} (h : b.FieldsInside) (bytes : List UInt8) :
    (b.extend bytes).FieldsInside := by
  rw [extend_eq_append]
  exact h.append (fieldsInside_of_noFields rfl)

theorem fieldsInside_placeholder (target : Expr) (t : FieldType) (order : ByteOrder) :
    (placeholder target t order).FieldsInside := by
  intro k f hk
  rw [placeholder, OffsetMap.get?_singleton] at hk
  split at hk
  · next h =>
    cases hk
    show k + t.width ≤ (List.replicate t.width 0).length + 0
    rw [h, List.length_replicate]
    omega
  · exact nomatch hk

/-- A slice keeps only the fields that lie wholly in it. -/
theorem fieldsInside_slice (b : Buffer) : (b.slice 0 b.rawSize).FieldsInside := by
  intro k f hk
  rw [get?_fields_slice, Option.filter_eq_some_iff] at hk
  have h := hk.2
  rw [decide_eq_true_eq] at h
  rw [virtSize_slice]
  omega

/-! ## Writing pending fields -/

theorem get?_fields_writeField (b : Buffer) (offset : Nat) (bytes : List UInt8) (k : Nat) :
    (b.writeField offset bytes).fields.get? k = if k = offset then none else b.fields.get? k := by
  show (b.fields.filter fun k _ => k != offset).get? k = _
  rw [OffsetMap.get?_filter]
  split
  · next h => cases b.fields.get? k <;> simp [h]
  · next h => cases b.fields.get? k <;> simp [h]

theorem data_writeField (b : Buffer) (offset : Nat) (bytes : List UInt8) :
    (b.writeField offset bytes).data =
      overwrite (padTo (offset + bytes.length) b.data) offset bytes := rfl

theorem rawSize_writeField (b : Buffer) (offset : Nat) (bytes : List UInt8) :
    (b.writeField offset bytes).rawSize = max (offset + bytes.length) b.rawSize := by
  rw [rawSize, data_writeField, length_overwrite (by rw [length_padTo]; omega), length_padTo,
    rawSize]

theorem virtSize_writeField (b : Buffer) (offset : Nat) (bytes : List UInt8) :
    (b.writeField offset bytes).virtSize = max b.virtSize (offset + bytes.length) := by
  have hraw := rawSize_writeField b offset bytes
  have hle := b.rawSize_le_virtSize
  rw [rawSize] at hraw
  show (b.writeField offset bytes).data.length +
    (max b.virtSize (offset + bytes.length) - (padTo (offset + bytes.length) b.data).length) = _
  rw [hraw, length_padTo, ← rawSize]
  omega

/-- Writing a field leaves the bytes outside it. -/
theorem getElem?_writeField {b : Buffer} {offset : Nat} {bytes : List UInt8} {i : Nat}
    (hi : i < b.rawSize) (h : i < offset ∨ offset + bytes.length ≤ i) :
    (b.writeField offset bytes).data[i]? = b.data[i]? := by
  rw [rawSize] at hi
  rw [data_writeField, getElem?_overwrite (by rw [length_padTo]; omega), if_neg (by omega),
    getElem?_padTo, if_pos hi]

theorem bytesAt_writeField_self (b : Buffer) (offset : Nat) (bytes : List UInt8) :
    bytesAt (b.writeField offset bytes).data offset bytes.length = bytes := by
  rw [data_writeField]
  exact bytesAt_overwrite_self (by rw [length_padTo]; omega)

/-- Writes fields one after the other. -/
def writeFields (b : Buffer) (resolved : List (Nat × List UInt8)) : Buffer :=
  resolved.foldl (fun acc e => acc.writeField e.1 e.2) b

@[simp]
theorem writeFields_nil (b : Buffer) : b.writeFields [] = b := rfl

@[simp]
theorem writeFields_cons (b : Buffer) (e : Nat × List UInt8) (rest : List (Nat × List UInt8)) :
    b.writeFields (e :: rest) = (b.writeField e.1 e.2).writeFields rest := rfl

theorem get?_fields_writeFields (b : Buffer) (resolved : List (Nat × List UInt8)) (k : Nat) :
    (b.writeFields resolved).fields.get? k =
      if k ∈ resolved.map (·.1) then none else b.fields.get? k := by
  induction resolved generalizing b with
  | nil => simp
  | cons e rest ih =>
    rw [writeFields_cons, ih, get?_fields_writeField, List.map_cons]
    by_cases h : k = e.1
    · simp [h]
    · simp only [List.mem_cons, h, false_or, if_false]

theorem exports_writeFields (b : Buffer) (resolved : List (Nat × List UInt8)) :
    (b.writeFields resolved).exports = b.exports := by
  induction resolved generalizing b with
  | nil => rfl
  | cons e rest ih => rw [writeFields_cons, ih]; rfl

theorem rawSize_le_writeFields (b : Buffer) (resolved : List (Nat × List UInt8)) :
    b.rawSize ≤ (b.writeFields resolved).rawSize := by
  induction resolved generalizing b with
  | nil => exact Nat.le_refl _
  | cons e rest ih =>
    have h := ih (b.writeField e.1 e.2)
    rw [rawSize_writeField] at h
    rw [writeFields_cons]
    omega

theorem virtSize_le_writeFields (b : Buffer) (resolved : List (Nat × List UInt8)) :
    b.virtSize ≤ (b.writeFields resolved).virtSize := by
  induction resolved generalizing b with
  | nil => exact Nat.le_refl _
  | cons e rest ih =>
    have h := ih (b.writeField e.1 e.2)
    rw [virtSize_writeField] at h
    rw [writeFields_cons]
    omega

/-- Writing fields that lie in the bytes does not change their number. -/
theorem rawSize_writeFields {b : Buffer} {resolved : List (Nat × List UInt8)} (ht : b.tail = 0)
    (h : ∀ e ∈ resolved, e.1 + e.2.length ≤ b.rawSize) :
    (b.writeFields resolved).rawSize = b.rawSize ∧ (b.writeFields resolved).tail = 0 := by
  induction resolved generalizing b with
  | nil => exact ⟨rfl, ht⟩
  | cons e rest ih =>
    have he := h e (by simp)
    have hraw : (b.writeField e.1 e.2).rawSize = b.rawSize := by
      rw [rawSize_writeField]
      omega
    have htail : (b.writeField e.1 e.2).tail = 0 := by
      show max b.virtSize (e.1 + e.2.length) - (padTo (e.1 + e.2.length) b.data).length = 0
      rw [length_padTo, virtSize, ht, ← rawSize]
      omega
    rw [writeFields_cons, ← hraw]
    exact ih htail fun x hx => by rw [hraw]; exact h x (by simp [hx])

theorem getElem?_writeFields {b : Buffer} {resolved : List (Nat × List UInt8)} {i : Nat}
    (hi : i < b.rawSize) (h : ∀ e ∈ resolved, i < e.1 ∨ e.1 + e.2.length ≤ i) :
    (b.writeFields resolved).data[i]? = b.data[i]? := by
  induction resolved generalizing b with
  | nil => rfl
  | cons e rest ih =>
    rw [writeFields_cons, ih (by rw [rawSize_writeField]; omega) fun x hx => h x (by simp [hx]),
      getElem?_writeField hi (h e (by simp))]

/-- A field that no later one overlaps holds what was written there. -/
theorem bytesAt_writeFields {b : Buffer} {resolved : List (Nat × List UInt8)}
    (hkeys : (resolved.map (·.1)).Nodup) {e : Nat × List UInt8} (he : e ∈ resolved)
    (h : ∀ x ∈ resolved, x.1 ≠ e.1 → x.1 + x.2.length ≤ e.1 ∨ e.1 + e.2.length ≤ x.1) :
    bytesAt (b.writeFields resolved).data e.1 e.2.length = e.2 := by
  induction resolved generalizing b with
  | nil => exact absurd he (by simp)
  | cons a rest ih =>
    rw [List.map_cons, List.nodup_cons] at hkeys
    rw [writeFields_cons]
    rcases List.mem_cons.1 he with rfl | he
    · -- the fields written after this one lie elsewhere, so its bytes stay
      refine Eq.trans ?_ (bytesAt_writeField_self b e.1 e.2)
      refine bytesAt_congr fun i hi => getElem?_writeFields ?_ fun x hx => ?_
      · rw [rawSize_writeField]
        omega
      · have hne : x.1 ≠ e.1 := fun heq => hkeys.1 (heq ▸ List.mem_map_of_mem hx)
        have := h x (by simp [hx]) hne
        omega
    · exact ih hkeys.2 he fun x hx => h x (by simp [hx])

/-! ## Fixups -/

/-- Taking the fields in order: a field without a value is passed over, any other is encoded. -/
theorem resolvedFields_cons {binding : Binding} {k : Nat} {f : PendingField}
    {rest : List (Nat × PendingField)} {resolved : List (Nat × List UInt8)} :
    resolvedFields binding ((k, f) :: rest) = .ok resolved ↔
      (f.target.constantUnder binding = none ∧ resolvedFields binding rest = .ok resolved) ∨
      ∃ v bytes others, f.target.constantUnder binding = some v ∧
        f.type.encodeValue v f.order = .ok bytes ∧
        resolvedFields binding rest = .ok others ∧ resolved = (k, bytes) :: others := by
  rw [resolvedFields]
  split
  · next hnone => simp [hnone]
  · next value hsome =>
    simp only [bind_eq_ok, pure_eq_ok, hsome, Option.some.injEq]
    constructor
    · rintro ⟨bytes, hb, others, ho, rfl⟩
      exact .inr ⟨value, bytes, others, rfl, hb, ho, rfl⟩
    · rintro (⟨h, -⟩ | ⟨v, bytes, others, rfl, hb, ho, rfl⟩)
      · exact nomatch h
      · exact ⟨bytes, hb, others, ho, rfl⟩

/-- The bytes of the fields that a binding gives values to. -/
theorem mem_resolvedFields {binding : Binding} {l : List (Nat × PendingField)}
    {resolved : List (Nat × List UInt8)} (h : resolvedFields binding l = .ok resolved)
    {x : Nat × List UInt8} :
    x ∈ resolved ↔ ∃ f v, (x.1, f) ∈ l ∧ f.target.constantUnder binding = some v ∧
      f.type.encodeValue v f.order = .ok x.2 := by
  induction l generalizing resolved with
  | nil =>
    cases h
    simp
  | cons e rest ih =>
    rcases resolvedFields_cons.1 h with ⟨hnone, hrest⟩ | ⟨v, bs, others, hv, hb, hrest, rfl⟩
    · rw [ih hrest]
      refine ⟨fun ⟨f, v, hm, hv⟩ => ⟨f, v, List.mem_cons_of_mem _ hm, hv⟩, ?_⟩
      rintro ⟨f, v, hm, hv, hb⟩
      rcases List.mem_cons.1 hm with rfl | hm
      · rw [hnone] at hv
        exact nomatch hv
      · exact ⟨f, v, hm, hv, hb⟩
    · rw [List.mem_cons, ih hrest]
      constructor
      · rintro (heq | ⟨f, v, hm, hv⟩)
        · cases heq
          exact ⟨e.2, v, by simp, hv, hb⟩
        · exact ⟨f, v, List.mem_cons_of_mem _ hm, hv⟩
      · rintro ⟨f, w, hm, hw, hbytes⟩
        rcases List.mem_cons.1 hm with rfl | hm
        · rw [hv] at hw
          cases hw
          rw [hb] at hbytes
          cases hbytes
          exact .inl rfl
        · exact .inr ⟨f, w, hm, hw, hbytes⟩

/-- Every value that a field gets fits it. -/
theorem encodes_of_resolvedFields {binding : Binding} {l : List (Nat × PendingField)}
    {resolved : List (Nat × List UInt8)} (h : resolvedFields binding l = .ok resolved)
    {k : Nat} {f : PendingField} (hf : (k, f) ∈ l) {v : LinkValue}
    (hv : f.target.constantUnder binding = some v) :
    ∃ bytes, f.type.encodeValue v f.order = .ok bytes := by
  induction l generalizing resolved with
  | nil => exact nomatch hf
  | cons e rest ih =>
    rcases resolvedFields_cons.1 h with ⟨hnone, hrest⟩ | ⟨w, bs, others, hw, hb, hrest, -⟩
    · rcases List.mem_cons.1 hf with rfl | hf
      · rw [hnone] at hv
        exact nomatch hv
      · exact ih hrest hf
    · rcases List.mem_cons.1 hf with rfl | hf
      · rw [hw] at hv
        cases hv
        exact ⟨bs, hb⟩
      · exact ih hrest hf

theorem sublist_resolvedFields {binding : Binding} {l : List (Nat × PendingField)}
    {resolved : List (Nat × List UInt8)} (h : resolvedFields binding l = .ok resolved) :
    (resolved.map (·.1)).Sublist (l.map (·.1)) := by
  induction l generalizing resolved with
  | nil =>
    cases h
    exact .slnil
  | cons e rest ih =>
    rcases resolvedFields_cons.1 h with ⟨-, hrest⟩ | ⟨v, bs, others, -, -, hrest, rfl⟩
    · exact (ih hrest).cons _
    · exact (ih hrest).cons_cons _

theorem fixup_eq_ok {b b' : Buffer} {binding : Binding} :
    b.fixup binding = .ok b' ↔
      ∃ resolved, resolvedFields binding b.fields.entries = .ok resolved ∧
        b' = b.writeFields resolved := by
  rw [fixup, bind_eq_ok]
  simp only [pure_eq_ok, eq_comm (b := b')]
  rfl

section Fixup

variable {b b' : Buffer} {binding : Binding} (h : b.fixup binding = .ok b')

include h

/-- A fixup leaves pending what the binding gives no value to. -/
theorem get?_fields_fixup (k : Nat) :
    b'.fields.get? k =
      (b.fields.get? k).filter fun f => (f.target.constantUnder binding).isNone := by
  obtain ⟨resolved, hres, rfl⟩ := fixup_eq_ok.1 h
  rw [get?_fields_writeFields]
  split
  · next hk =>
    obtain ⟨e, he, rfl⟩ := List.mem_map.1 hk
    obtain ⟨f, v, hf, hv, -⟩ := (mem_resolvedFields hres).1 he
    rw [OffsetMap.get?_eq_some.2 hf, Option.filter_some, hv]
    rfl
  · next hk =>
    cases hf : b.fields.get? k with
    | none => rfl
    | some f =>
      have hnone : f.target.constantUnder binding = none := by
        by_contra hne
        obtain ⟨v, hv⟩ := Option.ne_none_iff_exists'.1 hne
        obtain ⟨bytes, hb⟩ := encodes_of_resolvedFields hres (OffsetMap.get?_eq_some.1 hf) hv
        have hmem : (k, bytes) ∈ resolved :=
          (mem_resolvedFields hres).2 ⟨f, v, OffsetMap.get?_eq_some.1 hf, hv, hb⟩
        exact hk (List.mem_map_of_mem hmem)
      rw [Option.filter_some, hnone]
      rfl

theorem exports_fixup : b'.exports = b.exports := by
  obtain ⟨resolved, -, rfl⟩ := fixup_eq_ok.1 h
  exact exports_writeFields b resolved

theorem rawSize_le_fixup : b.rawSize ≤ b'.rawSize := by
  obtain ⟨resolved, -, rfl⟩ := fixup_eq_ok.1 h
  exact rawSize_le_writeFields b resolved

theorem FieldsInside.fixup (hin : b.FieldsInside) : b'.FieldsInside := by
  intro k f hk
  rw [get?_fields_fixup h, Option.filter_eq_some_iff] at hk
  obtain ⟨resolved, -, rfl⟩ := fixup_eq_ok.1 h
  exact Nat.le_trans (hin k f hk.1) (virtSize_le_writeFields b resolved)

/-- A fixup of fields that lie in the bytes does not change their number. -/
theorem rawSize_fixup (ht : b.tail = 0) (hin : b.FieldsInside) :
    b'.rawSize = b.rawSize ∧ b'.tail = 0 := by
  obtain ⟨resolved, hres, rfl⟩ := fixup_eq_ok.1 h
  refine rawSize_writeFields ht fun e he => ?_
  obtain ⟨f, v, hf, hv, hb⟩ := (mem_resolvedFields hres).1 he
  have hsize := hin _ f (OffsetMap.get?_eq_some.2 hf)
  rw [FieldType.length_encodeValue hb, rawSize]
  rwa [virtSize, ht, Nat.add_zero] at hsize

/-- A fixup leaves the bytes that no pending field with a value covers. -/
theorem getElem?_fixup {i : Nat} (hi : i < b.rawSize)
    (hfree : ∀ k f, b.fields.get? k = some f → (f.target.constantUnder binding).isSome →
      i < k ∨ k + f.type.width ≤ i) : b'.data[i]? = b.data[i]? := by
  obtain ⟨resolved, hres, rfl⟩ := fixup_eq_ok.1 h
  refine getElem?_writeFields hi fun e he => ?_
  obtain ⟨f, v, hf, hv, hb⟩ := (mem_resolvedFields hres).1 he
  rw [FieldType.length_encodeValue hb]
  exact hfree _ f (OffsetMap.get?_eq_some.2 hf) (by simp [hv])

/-- A fixup writes the value of every pending field that has one, if no other field overlaps it. -/
theorem bytesAt_fixup {k : Nat} {f : PendingField} (hf : b.fields.get? k = some f)
    {v : LinkValue} (hv : f.target.constantUnder binding = some v)
    (hapart : ∀ j g, b.fields.get? j = some g → j ≠ k →
      j + g.type.width ≤ k ∨ k + f.type.width ≤ j) :
    f.type.encodeValue v f.order = .ok (bytesAt b'.data k f.type.width) := by
  obtain ⟨resolved, hres, rfl⟩ := fixup_eq_ok.1 h
  obtain ⟨bytes, hb⟩ := encodes_of_resolvedFields hres (OffsetMap.get?_eq_some.1 hf) hv
  have hmem : (k, bytes) ∈ resolved :=
    (mem_resolvedFields hres).2 ⟨f, v, OffsetMap.get?_eq_some.1 hf, hv, hb⟩
  have hkeys : (resolved.map (·.1)).Nodup := by
    refine (sublist_resolvedFields hres).nodup (List.pairwise_map.2 ?_)
    exact b.fields.ascending.imp fun hab => Nat.ne_of_lt hab
  have hwritten := bytesAt_writeFields (b := b) hkeys hmem fun x hx hne => ?_
  · rw [FieldType.length_encodeValue hb] at hwritten
    rw [hwritten, hb]
  · obtain ⟨g, w, hg, -, hgb⟩ := (mem_resolvedFields hres).1 hx
    rw [FieldType.length_encodeValue hgb, FieldType.length_encodeValue hb]
    exact hapart x.1 g (OffsetMap.get?_eq_some.2 hg) hne

end Fixup

end PortableImage.Buffer
