import PortableImage.Proofs.Buffer.Fields

/-!
# Fixups of buffers one behind the other

A fixup writes each pending field on its own, so buffers may be fixed up before or after they are
put one behind the other, and the zeros behind a buffer play no part.

* `Buffer.fixup_append` — the parts of a buffer are fixed up one by one.
* `Buffer.Alike` — buffers with the same bytes and the same pending fields; `Alike.fixup` fixes both
  up alike.
-/

set_option autoImplicit false

namespace PortableImage

namespace OffsetMap

variable {α : Type}

/-- A map behind another one: the entries of the one follow those of the other. -/
theorem entries_insertAll {m n : OffsetMap α}
    (h : ∀ e ∈ m.entries, ∀ f ∈ n.entries, e.1 < f.1) :
    (m.insertAll n).entries = m.entries ++ n.entries := by
  have hascending : (m.entries ++ n.entries).Pairwise fun a b => a.1 < b.1 :=
    List.pairwise_append.2 ⟨m.ascending, n.ascending, h⟩
  refine congrArg entries (ext_get? (n := ⟨_, hascending⟩) fun k => ?_)
  rw [get?_insertAll]
  show (n.get? k).or (m.get? k) = (m.entries ++ n.entries).lookup k
  rw [List.lookup_append]
  show _ = (m.get? k).or (n.get? k)
  cases hm : m.get? k with
  | none => rw [Option.or_none, Option.none_or]
  | some v =>
    cases hn : n.get? k with
    | none => rfl
    | some w => exact absurd (h _ (get?_eq_some.1 hm) _ (get?_eq_some.1 hn)) (Nat.lt_irrefl k)

end OffsetMap

namespace Buffer

theorem ext {a b : Buffer} (hdata : a.data = b.data) (htail : a.tail = b.tail)
    (hfields : ∀ k, a.fields.get? k = b.fields.get? k) (hexports : a.exports = b.exports) :
    a = b := by
  have hmap := OffsetMap.ext_get? hfields
  cases a
  cases b
  congr

/-- It makes no difference which of three buffers are put behind each other first. -/
theorem append_assoc (a b c : Buffer) : a ++ b ++ c = a ++ (b ++ c) := by
  refine Buffer.ext ?_ rfl (fun k => ?_) ?_
  · rw [data_append, data_append, contents_append, data_append, List.append_assoc]
  · rw [get?_fields_append, get?_fields_append, get?_fields_append, virtSize_append]
    by_cases ha : a.virtSize ≤ k
    · rw [if_pos ha, if_pos ha, get?_fields_append]
      by_cases hb : a.virtSize + b.virtSize ≤ k
      · rw [if_pos hb, if_pos (by omega), Option.or_assoc, Nat.sub_sub]
      · rw [if_neg hb, if_neg (by omega), Option.none_or, Option.none_or]
    · rw [if_neg ha, if_neg ha, if_neg (by omega), Option.none_or]
  · rw [exports_append, exports_append, exports_append, exports_append, virtSize_append,
      List.map_append, List.map_map, List.append_assoc]
    refine congrArg (fun l => a.exports ++ (b.exports.map _ ++ l))
      (List.map_congr_left fun e _ => ?_)
    show (e.1, _) = (e.1, e.2 + b.virtSize + a.virtSize)
    rw [Nat.add_comm a.virtSize, Nat.add_assoc]

/-! ## Writing into one of two buffers -/

section Parts

variable {a b : Buffer}

theorem writeField_append_left {o : Nat} {bytes : List UInt8} (ht : a.tail = 0)
    (hlt : o < a.virtSize) (hin : o + bytes.length ≤ a.virtSize) :
    (a ++ b).writeField o bytes = a.writeField o bytes ++ b := by
  have hcontents : a.contents = a.data := contents_eq_data ht
  have hlen : a.data.length = a.virtSize := by rw [virtSize, ht, Nat.add_zero]
  have hpad : padTo (o + bytes.length) a.data = a.data := by
    rw [padTo, Nat.sub_eq_zero_of_le (by omega), List.replicate_zero, List.append_nil]
  have hpad' : padTo (o + bytes.length) (a ++ b).data = a.data ++ b.data := by
    rw [data_append, hcontents, padTo, Nat.sub_eq_zero_of_le (by rw [List.length_append]; omega),
      List.replicate_zero, List.append_nil]
  have htail : (a.writeField o bytes).tail = 0 := by
    show max a.virtSize (o + bytes.length) - (padTo (o + bytes.length) a.data).length = 0
    rw [hpad]
    omega
  have hsize : (a.writeField o bytes).virtSize = a.virtSize := by
    rw [virtSize_writeField]
    omega
  refine Buffer.ext ?_ ?_ (fun k => ?_) ?_
  · rw [data_writeField, hpad', overwrite_append_left (by omega), data_append,
      contents_eq_data htail, data_writeField, hpad]
  · show max (a ++ b).virtSize (o + bytes.length) - (padTo (o + bytes.length) (a ++ b).data).length =
      b.tail
    rw [hpad', List.length_append, virtSize_append, virtSize.eq_def b]
    omega
  · rw [get?_fields_writeField, get?_fields_append, get?_fields_append, hsize,
      get?_fields_writeField]
    by_cases hk : k = o
    · rw [if_pos hk, if_pos hk, if_neg (by omega)]
      rfl
    · rw [if_neg hk, if_neg hk]
  · show (a ++ b).exports = _
    rw [exports_append, exports_append, hsize]
    rfl

theorem writeField_append_right (ha : a.FieldsInside) (o : Nat) (bytes : List UInt8) :
    (a ++ b).writeField (a.virtSize + o) bytes = a ++ b.writeField o bytes := by
  have hlen := a.length_contents
  have hpad : padTo (a.virtSize + o + bytes.length) (a ++ b).data =
      a.contents ++ padTo (o + bytes.length) b.data := by
    rw [data_append, padTo, padTo, List.append_assoc, List.length_append]
    congr 3
    omega
  refine Buffer.ext ?_ ?_ (fun k => ?_) ?_
  · rw [data_writeField, hpad, data_append, data_writeField, overwrite, overwrite, ← hlen,
      List.take_length_add_append, Nat.add_assoc, List.drop_length_add_append, List.append_assoc,
      List.append_assoc, List.append_assoc]
  · show max (a ++ b).virtSize (a.virtSize + o + bytes.length) -
        (padTo (a.virtSize + o + bytes.length) (a ++ b).data).length =
      max b.virtSize (o + bytes.length) - (padTo (o + bytes.length) b.data).length
    rw [hpad, List.length_append, virtSize_append]
    omega
  · rw [get?_fields_writeField, get?_fields_append, get?_fields_append, get?_fields_writeField]
    by_cases hk : k = a.virtSize + o
    · have hnone : a.fields.get? k = none := by
        cases hf : a.fields.get? k with
        | none => rfl
        | some f =>
          have hle := ha k f hf
          have hpos := f.type.width_pos
          omega
      rw [if_pos hk, if_pos (by omega), if_pos (by omega), hnone]
      rfl
    · by_cases hle : a.virtSize ≤ k
      · rw [if_neg hk, if_pos hle, if_pos hle, if_neg (by omega)]
      · rw [if_neg hk, if_neg hle, if_neg hle]
  · show (a ++ b).exports = _
    rw [exports_append, exports_append]
    rfl

/-- The fields of the second buffer come behind those of the first. -/
theorem entries_append (ha : a.FieldsStart) :
    (a ++ b).fields.entries =
      a.fields.entries ++ b.fields.entries.map fun e => (a.virtSize + e.1, e.2) := by
  have hshift : (b.fields.shift a.virtSize).entries =
      b.fields.entries.map fun e => (a.virtSize + e.1, e.2) := by
    refine List.map_congr_left fun e _ => ?_
    rw [Nat.add_comm]
  rw [← hshift]
  refine OffsetMap.entries_insertAll fun e he f hf => ?_
  rw [hshift] at hf
  obtain ⟨g, -, rfl⟩ := List.mem_map.1 hf
  exact Nat.lt_add_right g.1 (ha e.1 e.2 (OffsetMap.get?_eq_some.2 he))

theorem writeFields_append (b : Buffer) (x y : List (Nat × List UInt8)) :
    b.writeFields (x ++ y) = (b.writeFields x).writeFields y :=
  List.foldl_append

theorem writeFields_append_left {x : List (Nat × List UInt8)} (ht : a.tail = 0)
    (hx : ∀ e ∈ x, e.1 < a.virtSize ∧ e.1 + e.2.length ≤ a.virtSize) :
    (a ++ b).writeFields x = a.writeFields x ++ b := by
  induction x generalizing a with
  | nil => rfl
  | cons e rest ih =>
    obtain ⟨⟨hlt, hle⟩, hrest⟩ := List.forall_mem_cons.1 hx
    have hsize : (a.writeField e.1 e.2).virtSize = a.virtSize := by
      rw [virtSize_writeField]
      omega
    have hraw := rawSize_writeField a e.1 e.2
    rw [writeFields_cons, writeFields_cons, writeField_append_left ht hlt hle]
    refine ih ?_ (by rwa [hsize])
    rw [rawSize] at hraw
    rw [virtSize, hraw] at hsize
    rw [virtSize, ht] at hle hsize
    rw [rawSize] at hsize
    omega

theorem writeFields_append_right (ha : a.FieldsInside) (x : List (Nat × List UInt8)) :
    (a ++ b).writeFields (x.map fun e => (a.virtSize + e.1, e.2)) = a ++ b.writeFields x := by
  induction x generalizing b with
  | nil => rfl
  | cons e rest ih =>
    rw [List.map_cons, writeFields_cons, writeFields_cons, writeField_append_right ha, ih]

end Parts

/-! ## Fixups of the parts -/

theorem resolvedFields_append {binding : Binding} {l m : List (Nat × PendingField)}
    {x : List (Nat × List UInt8)} :
    resolvedFields binding (l ++ m) = .ok x ↔ ∃ y z, resolvedFields binding l = .ok y ∧
      resolvedFields binding m = .ok z ∧ x = y ++ z := by
  induction l generalizing x with
  | nil => simp [resolvedFields]
  | cons e rest ih =>
    obtain ⟨k, f⟩ := e
    simp only [List.cons_append, resolvedFields_cons, ih]
    constructor
    · rintro (⟨hnone, y, z, hy, hz, rfl⟩ | ⟨v, bytes, _, hv, hb, ⟨y, z, hy, hz, rfl⟩, rfl⟩)
      · exact ⟨y, z, .inl ⟨hnone, hy⟩, hz, rfl⟩
      · exact ⟨_, z, .inr ⟨v, bytes, y, hv, hb, hy, rfl⟩, hz, rfl⟩
    · rintro ⟨y, z, ⟨hnone, hy⟩ | ⟨v, bytes, others, hv, hb, hy, rfl⟩, hz, rfl⟩
      · exact .inl ⟨hnone, y, z, hy, hz, rfl⟩
      · exact .inr ⟨v, bytes, _, hv, hb, ⟨others, z, hy, hz, rfl⟩, rfl⟩

theorem resolvedFields_shift {binding : Binding} {l : List (Nat × PendingField)} (d : Nat)
    {x : List (Nat × List UInt8)} :
    resolvedFields binding (l.map fun e => (d + e.1, e.2)) = .ok x ↔
      ∃ y, resolvedFields binding l = .ok y ∧ x = y.map fun e => (d + e.1, e.2) := by
  induction l generalizing x with
  | nil => simp [resolvedFields, eq_comm]
  | cons e rest ih =>
    obtain ⟨k, f⟩ := e
    simp only [List.map_cons, resolvedFields_cons, ih]
    constructor
    · rintro (⟨hnone, y, hy, rfl⟩ | ⟨v, bytes, _, hv, hb, ⟨y, hy, rfl⟩, rfl⟩)
      · exact ⟨y, .inl ⟨hnone, hy⟩, rfl⟩
      · exact ⟨(k, bytes) :: y, .inr ⟨v, bytes, y, hv, hb, hy, rfl⟩, rfl⟩
    · rintro ⟨y, ⟨hnone, hy⟩ | ⟨v, bytes, others, hv, hb, hy, rfl⟩, rfl⟩
      · exact .inl ⟨hnone, y, hy, rfl⟩
      · exact .inr ⟨v, bytes, _, hv, hb, ⟨others, hy, rfl⟩, rfl⟩

/-- **Buffers one behind the other are fixed up one by one.** -/
theorem fixup_append {a b c : Buffer} {binding : Binding} (ha : a.FieldsInside) (ht : a.tail = 0) :
    (a ++ b).fixup binding = .ok c ↔
      ∃ a' b', a.fixup binding = .ok a' ∧ b.fixup binding = .ok b' ∧ c = a' ++ b' := by
  simp only [fixup_eq_ok, entries_append ha.start, resolvedFields_append, resolvedFields_shift]
  -- what is written lies in the part it belongs to
  have hleft : ∀ {y}, resolvedFields binding a.fields.entries = .ok y →
      ∀ e ∈ y, e.1 < a.virtSize ∧ e.1 + e.2.length ≤ a.virtSize := by
    intro y hy e he
    obtain ⟨f, v, hf, -, hb⟩ := (mem_resolvedFields hy).1 he
    have hle := ha _ f (OffsetMap.get?_eq_some.2 hf)
    have hpos := f.type.width_pos
    rw [FieldType.length_encodeValue hb]
    omega
  have hwrite : ∀ {y}, resolvedFields binding a.fields.entries = .ok y → ∀ z,
      (a ++ b).writeFields (y ++ z.map fun e => (a.virtSize + e.1, e.2)) =
        a.writeFields y ++ b.writeFields z := by
    intro y hy z
    have hfix : a.fixup binding = .ok (a.writeFields y) := fixup_eq_ok.2 ⟨y, hy, rfl⟩
    obtain ⟨hraw, htail⟩ := rawSize_fixup hfix ht ha
    have hsize : (a.writeFields y).virtSize = a.virtSize := by
      rw [virtSize, htail, virtSize, ht, ← rawSize, ← rawSize, hraw]
    rw [writeFields_append, writeFields_append_left ht (hleft hy), ← hsize,
      writeFields_append_right (FieldsInside.fixup hfix ha)]
  constructor
  · rintro ⟨_, ⟨y, _, hy, ⟨z, hz, rfl⟩, rfl⟩, rfl⟩
    exact ⟨_, _, ⟨y, hy, rfl⟩, ⟨z, hz, rfl⟩, hwrite hy z⟩
  · rintro ⟨_, _, ⟨y, hy, rfl⟩, ⟨z, hz, rfl⟩, rfl⟩
    exact ⟨_, ⟨y, _, hy, ⟨z, hz, rfl⟩, rfl⟩, (hwrite hy z).symm⟩

/-! ## Buffers that differ in their labels -/

/-- The buffers have the same bytes, those not written out included, and the same pending fields. -/
structure Alike (a b : Buffer) : Prop where
  contents : a.contents = b.contents
  fields : a.fields = b.fields

theorem Alike.refl (a : Buffer) : a.Alike a := ⟨rfl, rfl⟩

theorem Alike.trans {a b c : Buffer} (hab : a.Alike b) (hbc : b.Alike c) : a.Alike c :=
  ⟨hab.contents.trans hbc.contents, hab.fields.trans hbc.fields⟩

theorem Alike.virtSize_eq {a b : Buffer} (h : a.Alike b) : a.virtSize = b.virtSize := by
  rw [← length_contents, h.contents, length_contents]

theorem Alike.append {a b c d : Buffer} (hab : a.Alike b) (hcd : c.Alike d) :
    (a ++ c).Alike (b ++ d) where
  contents := by rw [contents_append, contents_append, hab.contents, hcd.contents]
  fields := by
    show a.fields.insertAll _ = b.fields.insertAll _
    rw [hab.fields, hcd.fields, hab.virtSize_eq]

theorem contents_writeField (b : Buffer) (o : Nat) (bytes : List UInt8) :
    (b.writeField o bytes).contents = overwrite (padTo (o + bytes.length) b.contents) o bytes := by
  have hpad : padTo (o + bytes.length) b.contents = padTo (o + bytes.length) b.data ++
      List.replicate (max b.virtSize (o + bytes.length) -
        (padTo (o + bytes.length) b.data).length) 0 := by
    rw [length_padTo, padTo, padTo, length_contents, Buffer.contents, List.append_assoc,
      List.append_assoc, List.replicate_append_replicate, List.replicate_append_replicate, virtSize]
    congr 2
    omega
  rw [hpad, overwrite_append_left (by rw [length_padTo]; omega)]
  rfl

theorem Alike.writeFields {a b : Buffer} (h : a.Alike b) (x : List (Nat × List UInt8)) :
    (a.writeFields x).Alike (b.writeFields x) := by
  induction x generalizing a b with
  | nil => exact h
  | cons e rest ih =>
    refine ih ⟨?_, ?_⟩
    · rw [contents_writeField, contents_writeField, h.contents]
    · exact congrArg (OffsetMap.filter fun k _ => k != e.1) h.fields

/-- **Buffers that are alike are fixed up alike.** -/
theorem Alike.fixup {a a' b : Buffer} {binding : Binding} (h : a.Alike b)
    (hfix : a.fixup binding = .ok a') : ∃ b', b.fixup binding = .ok b' ∧ a'.Alike b' := by
  obtain ⟨x, hx, rfl⟩ := fixup_eq_ok.1 hfix
  exact ⟨_, fixup_eq_ok.2 ⟨x, by rw [← h.fields]; exact hx, rfl⟩, h.writeFields x⟩

end Buffer

end PortableImage
