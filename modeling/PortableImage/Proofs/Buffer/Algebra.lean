import PortableImage.Proofs.Binding
import PortableImage.Proofs.Buffer.Fixup

/-!
# Laws of buffers

Buffers are put one behind the other all over the encoding, and cut again when what stands in a
section is looked at.  The zeros behind the bytes are written out by then only where something comes
behind them, so the laws say where the bytes, the sizes, the pending fields and the labels come from.

## What is here

* `Buffer.append_assoc` and `Buffer.entries_append`, from the modules before this one, for what is
  put one behind the other.
* `Buffer.binding_append` — the labels of two buffers are those of the first and of the second, which
  lies behind it.
* `Buffer.slice_slice` — a range of a range.
* `Buffer.append_slice_laws` — all laws in one statement.
-/

set_option autoImplicit false

namespace PortableImage

/-- Two constants are added to an expression as their sum is. -/
theorem Expr.reduce_add_ofSize (base : Expr) (a b : Nat) :
    (base + .ofSize a + .ofSize b).reduce = (base + .ofSize (b + a)).reduce := by
  have h : LinkValue.ofSize a + LinkValue.ofSize b = LinkValue.ofSize (b + a) := by
    rw [Nat.add_comm]
    exact (BitVec.ofNat_add a b).symm
  show Linear.toExpr ⟨base.linear.terms, base.linear.constant + LinkValue.ofSize a * 1 +
    LinkValue.ofSize b * 1⟩ = Linear.toExpr ⟨base.linear.terms, base.linear.constant +
      LinkValue.ofSize (b + a) * 1⟩
  rw [mul_one, mul_one, mul_one, add_assoc, h]

/-- Pairs are bound in two parts. -/
theorem Binding.bindAll_append (b : Binding) (p q : List (String × Expr)) :
    b.bindAll (p ++ q) = (b.bindAll p >>= fun c => c.bindAll q) := by
  induction p generalizing b with
  | nil => rfl
  | cons x rest ih =>
    obtain ⟨name, value⟩ := x
    rw [List.cons_append, bindAll_cons, bindAll_cons]
    cases b.bind name value with
    | error e => rfl
    | ok c => exact ih c

namespace Buffer

/-! ## Labels of two buffers -/

theorem addresses_append (a b : Buffer) (base : Expr) :
    (a ++ b).addresses base = a.addresses base ++ b.addresses (base + .ofSize a.virtSize) := by
  rw [addresses, exports_append, List.map_append, List.map_map]
  refine congrArg (a.addresses base ++ ·) (List.map_congr_left fun e _ => ?_)
  exact congrArg (Prod.mk e.1) (Expr.reduce_add_ofSize base a.virtSize e.2).symm

/-- **The labels of two buffers one behind the other** are those of both, the second lying behind the
first; they can be bound if those of each can and the two have none in common. -/
theorem binding_append {a b : Buffer} {base : Expr} {r : Binding} :
    (a ++ b).binding base = .ok r ↔ (do
      let first ← a.binding base
      let second ← b.binding (base + Expr.ofSize a.virtSize)
      first.merge second) = .ok r := by
  rw [binding, addresses_append, Binding.bindAll_append]
  simp only [bind_eq_ok]
  refine exists_congr fun first => and_congr_right fun _ => ⟨fun h => ?_, ?_⟩
  · obtain ⟨second, hsecond⟩ := Binding.exists_bindAll (b := .empty) (fun _ _ => rfl)
      (Binding.bindAll_eq_ok h).2.2
    refine ⟨second, hsecond, ?_⟩
    rw [Binding.merge, binding_eq_ok hsecond]
    exact h
  · rintro ⟨second, hsecond, h⟩
    rwa [Binding.merge, binding_eq_ok hsecond] at h

/-! ## A range of a range -/

/-- A range ends where the buffer ends at the latest. -/
theorem virtSize_slice_eq (b : Buffer) (offset len : Nat) :
    (b.slice offset len).virtSize = min len (b.virtSize - offset) := by
  show ((b.data.drop offset).take len).length +
    (min len (b.virtSize - offset) - ((b.data.drop offset).take len).length) = _
  rw [List.length_take, List.length_drop, virtSize]
  omega

theorem exports_slice_slice (x : Buffer) {o l p m : Nat} (h : p + m ≤ l) :
    ((x.slice o l).slice p m).exports = (x.slice (o + p) m).exports := by
  show (((x.exports.filter _).map _).filter _).map _ = (x.exports.filter _).map _
  rw [List.filter_map, List.map_map, List.filter_filter]
  have hrange : ∀ e : String × Nat, (((fun e : String × Nat => decide (p ≤ e.2) && decide
      (e.2 ≤ p + m)) ∘ fun e => (e.1, e.2 - o)) e && (decide (o ≤ e.2) && decide (e.2 ≤ o + l))) =
      (decide (o + p ≤ e.2) && decide (e.2 ≤ o + p + m)) := fun e => by
    rw [Bool.eq_iff_iff]
    simp only [Function.comp_apply, Bool.and_eq_true, decide_eq_true_eq]
    omega
  rw [funext hrange]
  exact List.map_congr_left fun e _ => congrArg (Prod.mk e.1) (Nat.sub_sub e.2 o p)

/-- **A range of a range is a range.** -/
theorem slice_slice (x : Buffer) {o l p m : Nat} (h : p + m ≤ l) :
    (x.slice o l).slice p m = x.slice (o + p) m := by
  have hdata : ((x.slice o l).slice p m).data = (x.slice (o + p) m).data := bytesAt_bytesAt h
  have hsize : ((x.slice o l).slice p m).virtSize = (x.slice (o + p) m).virtSize := by
    rw [virtSize_slice_eq, virtSize_slice_eq, virtSize_slice_eq]
    omega
  refine Buffer.ext hdata ?_ (fun k => ?_) (exports_slice_slice x h)
  · rw [virtSize.eq_def, virtSize.eq_def, hdata] at hsize
    omega
  · rw [get?_fields_slice, get?_fields_slice, get?_fields_slice, Option.filter_filter,
      show k + p + o = k + (o + p) by omega]
    congr 1
    funext f
    rw [← Bool.decide_and]
    exact decide_eq_decide.2 (by omega)

/-! ## All laws -/

/-- **The laws of buffers.**  Of two buffers one behind the other, the bytes are those of both, and if
the pending fields of the first start inside it, the pending fields are those of the first and then
those of the second, moved up by the size of the first.  So are the labels, and they are bound as the
labels of both are.  It makes no difference which of three buffers are put together first.  A range
of a range is the range of the whole. -/
theorem append_slice_laws :
    (∀ a b : Buffer,
      (a ++ b).contents = a.contents ++ b.contents ∧
      (a.FieldsStart → (a ++ b).fields.entries =
        a.fields.entries ++ b.fields.entries.map (fun e => (a.virtSize + e.1, e.2))) ∧
      (a ++ b).exports = a.exports ++ b.exports.map (fun e => (e.1, e.2 + a.virtSize)) ∧
      ∀ base r, (a ++ b).binding base = .ok r ↔ (do
        let first ← a.binding base
        let second ← b.binding (base + Expr.ofSize a.virtSize)
        first.merge second) = .ok r) ∧
    (∀ a b c : Buffer, a ++ b ++ c = a ++ (b ++ c)) ∧
    ∀ (x : Buffer) (o l p m : Nat), p + m ≤ l →
      (x.slice o l).slice p m = x.slice (o + p) m :=
  ⟨fun a b => ⟨contents_append a b, entries_append, exports_append a b, fun _ _ => binding_append⟩,
    append_assoc, fun x _ _ _ _ h => slice_slice x h⟩

/-- A field, a label, and zeros that are not written out. -/
def zeroTailed : Buffer where
  data := [1, 0, 0, 2]
  tail := 4
  fields := .singleton 1 ⟨.label "table", .u16, .little⟩
  exports := [("start", 0)]

theorem append_slice_laws_zeroTailed :
    zeroTailed.FieldsStart ∧
    (zeroTailed ++ zeroTailed).fields.entries =
      [(1, ⟨.label "table", .u16, .little⟩), (9, ⟨.label "table", .u16, .little⟩)] ∧
    (zeroTailed.slice 1 6).slice 0 5 = zeroTailed.slice 1 5 := by
  have hstart : zeroTailed.FieldsStart := fun k f hk => by
    rw [zeroTailed, OffsetMap.get?_singleton] at hk
    split at hk
    · next h => rw [h]; decide
    · exact nomatch hk
  exact ⟨hstart, (append_slice_laws.1 zeroTailed zeroTailed).2.1 hstart,
    append_slice_laws.2.2 zeroTailed 1 6 0 5 (by decide)⟩

end Buffer

end PortableImage
