import PortableImage.Proofs.Buffer.Fields
import PortableImage.Proofs.Expr.Value

/-!
# The value a field is to have

A field has its value for good as soon as its expression is known: as a pending field whose target
has that value, or as the bytes of the value.  What happens to a buffer afterwards keeps the value.

* `Buffer.Holds` — the field at an offset has a value, pending or written.
* `Holds.append_left`, `Holds.append_right`, `Holds.patch`, `Holds.fixup` — the operations that keep
  it.
* `Holds.decode` — where nothing is pending, the value is read out of the bytes.
-/

set_option autoImplicit false

namespace PortableImage.Buffer

/-! ## Bytes with the zeros behind them -/

theorem contents_growTo (b : Buffer) (size : Nat) :
    (b.growTo size).contents = padTo size b.contents := by
  show b.data ++ List.replicate (max b.virtSize size - b.data.length) 0 = _
  rw [contents, padTo, List.append_assoc, List.replicate_append_replicate, List.length_append,
    List.length_replicate, virtSize]
  congr 2
  omega

theorem contents_align (b : Buffer) (boundary : Nat) :
    (b.align boundary).contents = padTo (alignSize b.virtSize boundary) b.contents :=
  contents_growTo b _

@[simp]
theorem contents_addExport (b : Buffer) (name : String) (offset : Nat) :
    (b.addExport name offset).contents = b.contents := rfl

theorem getElem?_contents_of_lt {b : Buffer} {i : Nat} (h : i < b.rawSize) :
    b.contents[i]? = b.data[i]? :=
  List.getElem?_append_left h

/-- Behind the bytes that are written out there are zeros. -/
theorem getElem?_contents (b : Buffer) (i : Nat) :
    b.contents[i]? =
      if i < b.rawSize then b.data[i]? else if i < b.virtSize then some 0 else none := by
  have h := getElem?_padTo b.virtSize b.data i
  rw [padTo, show b.virtSize - b.data.length = b.tail by rw [virtSize]; omega] at h
  exact h

theorem virtSize_patch (b : Buffer) (offset : Nat) (other : Buffer) :
    (b.patch offset other).virtSize = max b.virtSize (offset + other.virtSize) := by
  show (overwrite (padTo (offset + other.virtSize) b.data) offset other.contents).length
    + (max b.virtSize (offset + other.virtSize)
      - (padTo (offset + other.virtSize) b.data).length) = _
  rw [length_overwrite (by rw [length_contents, length_padTo]; omega), length_padTo]
  have := b.rawSize_le_virtSize
  rw [rawSize] at this
  omega

/-- A patch changes the bytes of its range and no others. -/
theorem getElem?_contents_patch (b : Buffer) (offset : Nat) (other : Buffer) (i : Nat) :
    (b.patch offset other).contents[i]? =
      if offset ≤ i ∧ i < offset + other.virtSize then other.contents[i - offset]?
      else (padTo (offset + other.virtSize) b.contents)[i]? := by
  have hfit : offset + other.contents.length ≤ (padTo (offset + other.virtSize) b.data).length := by
    rw [length_contents, length_padTo]
    omega
  have hraw : (b.patch offset other).rawSize = max (offset + other.virtSize) b.rawSize := by
    show (overwrite _ _ _).length = _
    rw [length_overwrite hfit, length_padTo, rawSize]
  have hdata : (b.patch offset other).data[i]? =
      if offset ≤ i ∧ i < offset + other.virtSize then other.contents[i - offset]?
      else (padTo (offset + other.virtSize) b.data)[i]? := by
    show (overwrite _ _ _)[i]? = _
    rw [getElem?_overwrite hfit, length_contents]
  have hle := b.rawSize_le_virtSize
  have hpad := getElem?_padTo (offset + other.virtSize) b.data i
  have hpad' := getElem?_padTo (offset + other.virtSize) b.contents i
  rw [length_contents, getElem?_contents] at hpad'
  rw [← rawSize] at hpad
  rw [getElem?_contents, hraw, virtSize_patch, hdata, hpad', hpad]
  by_cases h1 : offset ≤ i ∧ i < offset + other.virtSize
  · rw [if_pos h1, if_pos h1, if_pos (by omega)]
  · rw [if_neg h1, if_neg h1]
    by_cases h2 : i < b.rawSize
    · simp [h2, show i < b.virtSize by omega]
    · by_cases h3 : i < offset + other.virtSize
      · by_cases h4 : i < b.virtSize <;> simp [h2, h3, h4]
      · by_cases h4 : i < b.virtSize <;> simp [h2, h3, h4]

/-! ## Pending fields around a patch -/

/-- A patch leaves the pending fields that start outside it. -/
theorem get?_fields_patch_outside {b other : Buffer} (hother : other.FieldsInside) {offset k : Nat}
    (hk : k < offset ∨ offset + other.virtSize ≤ k) :
    (b.patch offset other).fields.get? k = b.fields.get? k := by
  have hnone : (if offset ≤ k then other.fields.get? (k - offset) else none) = none := by
    split
    · cases hf : other.fields.get? (k - offset) with
      | none => rfl
      | some f =>
        have hle := hother _ f hf
        have hpos := f.type.width_pos
        omega
    · rfl
  have htest : (decide (k < offset) || decide (offset + other.virtSize ≤ k)) = true := by
    rw [Bool.or_eq_true, decide_eq_true_eq, decide_eq_true_eq]
    exact hk
  rw [get?_fields_patch, hnone, Option.none_or]
  cases b.fields.get? k with
  | none => rfl
  | some f => rw [Option.filter_some, if_pos htest]

theorem FieldsInside.patch {b other : Buffer} (hb : b.FieldsInside) (hother : other.FieldsInside)
    (offset : Nat) : (b.patch offset other).FieldsInside := by
  intro k f hk
  rw [virtSize_patch]
  rw [get?_fields_patch, Option.or_eq_some_iff] at hk
  rcases hk with hk | ⟨-, hk⟩
  · split at hk
    · have hle := hother _ f hk
      omega
    · exact nomatch hk
  · rw [Option.filter_eq_some_iff] at hk
    have hle := hb k f hk.1
    omega

/-! ## Values of fields -/

/-- The field of type `t` at the offset `o` has the value `v`: it is pending with that value, or its
bytes are those of the value.  No other pending field overlaps it. -/
structure Holds (env : String → LinkValue) (b : Buffer) (o : Nat) (t : FieldType)
    (order : ByteOrder) (v : LinkValue) : Prop where
  inside : o + t.width ≤ b.virtSize
  apart : ∀ k f, b.fields.get? k = some f → k ≠ o → k + f.type.width ≤ o ∨ o + t.width ≤ k
  value : (∃ target, b.fields.get? o = some ⟨target, t, order⟩ ∧ target.eval env = v) ∨
    (b.fields.get? o = none ∧ t.encodeValue v order = .ok (bytesAt b.contents o t.width))

/-- A pending field that overlaps no other one holds the value of its target. -/
theorem holds_pending {b : Buffer} {o : Nat} {f : PendingField} (env : String → LinkValue)
    (hf : b.fields.get? o = some f) (hin : o + f.type.width ≤ b.virtSize)
    (hapart : ∀ k g, b.fields.get? k = some g → k ≠ o →
      k + g.type.width ≤ o ∨ o + f.type.width ≤ k) :
    Holds env b o f.type f.order (f.target.eval env) :=
  ⟨hin, hapart, .inl ⟨f.target, hf, rfl⟩⟩

/-- Known bytes hold what they encode. -/
theorem holds_ofBytes (env : String → LinkValue) {bytes : List UInt8} {o : Nat} {t : FieldType}
    {order : ByteOrder} {v : LinkValue} (hin : o + t.width ≤ bytes.length)
    (h : t.encodeValue v order = .ok (bytesAt bytes o t.width)) :
    Holds env (ofBytes bytes) o t order v := by
  refine ⟨hin, fun k f hk => ?_, .inr ⟨rfl, ?_⟩⟩
  · exact absurd hk (by simp [ofBytes])
  · rw [contents_eq_data rfl]
    exact h

namespace Holds

variable {env : String → LinkValue} {a b : Buffer} {o : Nat} {t : FieldType} {order : ByteOrder}
  {v : LinkValue}

/-- A buffer that has the same around a field holds the same value there. -/
theorem of_eq (h : Holds env a o t order v) (hsize : o + t.width ≤ b.virtSize)
    (hbytes : ∀ i, o ≤ i → i < o + t.width → b.contents[i]? = a.contents[i]?)
    (hfield : b.fields.get? o = a.fields.get? o)
    (hapart : ∀ k f, b.fields.get? k = some f → k ≠ o →
      k + f.type.width ≤ o ∨ o + t.width ≤ k) : Holds env b o t order v where
  inside := hsize
  apart := hapart
  value := by
    rw [hfield]
    refine h.value.imp_right fun ⟨hnone, hv⟩ => ⟨hnone, ?_⟩
    rw [hv]
    exact congrArg _ (bytesAt_congr fun i hi => (hbytes (o + i) (by omega) (by omega)).symm)

theorem append_left (h : Holds env a o t order v) : Holds env (a ++ b) o t order v := by
  have hin := h.inside
  have hw := t.width_pos
  refine h.of_eq (by rw [virtSize_append]; omega) (fun i _ hi => ?_)
    (get?_fields_append_left (by omega)) fun k f hk hne => ?_
  · rw [contents_append]
    exact List.getElem?_append_left (by rw [length_contents]; omega)
  · by_cases hka : k < a.virtSize
    · rw [get?_fields_append_left hka] at hk
      exact h.apart k f hk hne
    · exact .inr (by omega)

theorem append_right (ha : a.FieldsInside) (h : Holds env b o t order v) :
    Holds env (a ++ b) (a.virtSize + o) t order v where
  inside := by
    have := h.inside
    rw [virtSize_append]
    omega
  apart k f hk hne := by
    rw [get?_fields_append, Option.or_eq_some_iff] at hk
    rcases hk with hk | ⟨-, hk⟩
    · split at hk
      · have := h.apart (k - a.virtSize) f hk (by omega)
        omega
      · exact absurd hk (by simp)
    · have := ha k f hk
      exact .inl (by omega)
  value := by
    have hfield : (a ++ b).fields.get? (a.virtSize + o) = b.fields.get? o := by
      rw [get?_fields_append, if_pos (Nat.le_add_right _ _), Nat.add_sub_cancel_left,
        Option.or_eq_left_of_none]
      cases hk : a.fields.get? (a.virtSize + o) with
      | none => rfl
      | some f =>
        have := ha _ f hk
        have := f.type.width_pos
        omega
    rw [hfield, contents_append, ← a.length_contents, bytesAt_append_right]
    exact h.value

theorem growTo (h : Holds env b o t order v) (size : Nat) :
    Holds env (b.growTo size) o t order v := by
  have hin := h.inside
  refine h.of_eq (by rw [virtSize_growTo]; omega) (fun i _ hi => ?_) rfl h.apart
  rw [contents_growTo, getElem?_padTo, length_contents, if_pos (by omega)]

theorem align (h : Holds env b o t order v) (boundary : Nat) :
    Holds env (b.align boundary) o t order v :=
  h.growTo _

theorem fill (h : Holds env b o t order v) : Holds env b.fill o t order v :=
  h.of_eq (by rw [← length_contents, contents_fill, length_contents]; exact h.inside)
    (fun _ _ _ => by rw [contents_fill]) rfl h.apart

theorem addExport (h : Holds env b o t order v) (name : String) (offset : Nat) :
    Holds env (b.addExport name offset) o t order v :=
  ⟨h.inside, h.apart, h.value⟩

/-- Cutting off the zeros that are not written out keeps what lies in the bytes. -/
theorem slice (h : Holds env b o t order v) (hraw : o + t.width ≤ b.rawSize) :
    Holds env (b.slice 0 b.rawSize) o t order v := by
  have hle := b.rawSize_le_virtSize
  refine h.of_eq (by rw [virtSize_slice]; exact hraw) (fun i _ hi => ?_) ?_ fun k f hk hne => ?_
  · rw [contents_slice, getElem?_contents_of_lt (by omega)]
  · rw [get?_fields_slice, Nat.add_zero, Nat.zero_add]
    obtain ⟨target, hp, -⟩ | ⟨hnone, -⟩ := h.value
    · rw [hp, Option.filter_some, if_pos (decide_eq_true hraw)]
    · rw [hnone, Option.filter_none]
  · rw [get?_fields_slice, Nat.add_zero, Option.filter_eq_some_iff] at hk
    exact h.apart k f hk.1 hne

/-- Writing over another range keeps the value. -/
theorem patch {offset : Nat} {other : Buffer} (h : Holds env b o t order v)
    (hin : other.FieldsInside)
    (hapart : o + t.width ≤ offset ∨ offset + other.virtSize ≤ o) :
    Holds env (b.patch offset other) o t order v := by
  have hinside := h.inside
  have hw := t.width_pos
  refine h.of_eq (by rw [virtSize_patch]; omega) (fun i hi hi' => ?_) ?_ fun k f hk hne => ?_
  · rw [getElem?_contents_patch, if_neg (by omega), getElem?_padTo, length_contents,
      if_pos (by omega)]
  · exact get?_fields_patch_outside hin (by omega)
  · rw [get?_fields_patch, Option.or_eq_some_iff] at hk
    rcases hk with hk | ⟨-, hk⟩
    · split at hk
      · have := hin _ f hk
        omega
      · exact nomatch hk
    · rw [Option.filter_eq_some_iff] at hk
      exact h.apart k f hk.1 hne

/-- A fixup keeps the value, if the binding gives the field's target no other one. -/
theorem fixup {b' : Buffer} {binding : Binding} (h : Holds env b o t order v)
    (hfix : b.fixup binding = .ok b') (ht : b.tail = 0) (hin : b.FieldsInside)
    (hval : ∀ f w, b.fields.get? o = some f → f.target.constantUnder binding = some w →
      f.target.eval env = w) : Holds env b' o t order v where
  inside := by
    obtain ⟨hraw, htail⟩ := rawSize_fixup hfix ht hin
    rw [virtSize, htail, ← rawSize, hraw, rawSize]
    have := h.inside
    rwa [virtSize, ht] at this
  apart k f hk hne := by
    rw [get?_fields_fixup hfix, Option.filter_eq_some_iff] at hk
    exact h.apart k f hk.1 hne
  value := by
    obtain ⟨-, htail⟩ := rawSize_fixup hfix ht hin
    rw [get?_fields_fixup hfix, contents_eq_data htail]
    obtain ⟨target, hp, heval⟩ | ⟨hnone, hv⟩ := h.value
    · rw [hp, Option.filter_some]
      cases hc : target.constantUnder binding with
      | none => exact .inl ⟨target, rfl, heval⟩
      | some w =>
        refine .inr ⟨rfl, ?_⟩
        rw [← heval, hval _ w hp hc]
        exact bytesAt_fixup hfix hp hc h.apart
    · rw [hnone]
      refine .inr ⟨rfl, ?_⟩
      rw [hv, contents_eq_data ht]
      refine congrArg _ (bytesAt_congr fun i hi => (getElem?_fixup hfix ?_ ?_).symm)
      · have := h.inside
        rw [virtSize, ht] at this
        rw [rawSize]
        omega
      · intro k f hk _
        have hne : k ≠ o := fun heq => by
          rw [heq, hnone] at hk
          cases hk
        have := h.apart k f hk hne
        omega

/-- Where nothing is pending, the value is read out of the bytes. -/
theorem decode (h : Holds env b o t order v) (hnone : b.fields.get? o = none) :
    t.encodeValue v order = .ok (bytesAt b.contents o t.width) := by
  obtain ⟨target, hp, -⟩ | ⟨-, hv⟩ := h.value
  · rw [hp] at hnone
    exact nomatch hnone
  · exact hv

end Holds

end PortableImage.Buffer
