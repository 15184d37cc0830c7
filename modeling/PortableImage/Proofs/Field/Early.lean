import PortableImage.Proofs.Field.Settled

/-!
# Reducing early

An expression is reduced when its field is written, long before its labels have values.  The binding
that gives them values may then put whole expressions in their place: a bitwise operation that was
kept as a term becomes a constant or a sum, terms cancel or appear, and their order changes.  It makes
no difference, so a field may be stored with its normal form.

## What is here

* `Expr.resolve_reduce` — an expression and its normal form have the same value, and where they have
  none the same labels are reported.
* `FieldEncoder.encode_bind_fixup` — a field that is written and fixed up later is the field of the
  value.
* `Expr.reduce_early` — the whole statement.
-/

set_option autoImplicit false

namespace PortableImage

namespace Expr

/-- An expression may be reduced before it is resolved. -/
theorem resolve_reduce (e : Expr) (b : Binding) : e.reduce.resolve b = e.resolve b := by
  rw [resolve, resolve, bind, bind, reduce_subst_reduce]

/-- An expression has a value under a binding when it becomes a constant. -/
theorem resolve_eq_ok {e : Expr} {b : Binding} {v : LinkValue} :
    e.resolve b = .ok v ↔ e.constantUnder b = some v := by
  rw [resolve, constantUnder]
  cases (e.bind b).reduce.constant? with
  | none =>
    constructor
    · intro h
      cases h
    · intro h
      cases h
  | some w =>
    exact ⟨fun h => congrArg some (Except.ok.inj h), fun h => congrArg Except.ok (Option.some.inj h)⟩

end Expr

namespace FieldEncoder

/-- **A field that is fixed up later is the field of its value.** -/
theorem encode_bind_fixup (f : FieldEncoder) (t : FieldType) {e : Expr} {b : Binding}
    {v : LinkValue} (h : e.constantUnder b = some v) :
    (f.encode t e >>= fun field => field.fixup b) = f.encode t (.const v) := by
  have hunder : e.reduce.constantUnder b = some v := by rw [Expr.constantUnder_reduce, h]
  rw [encode_const, encode]
  cases hreduced : e.reduce.constant? with
  | none => exact fixup_placeholder hunder
  | some w =>
    -- a constant is written at once, and it is the value under every binding
    obtain rfl : w = v := by
      rw [Expr.constant?_eq_some.1 hreduced, Expr.constantUnder_const] at hunder
      exact Option.some.inj hunder
    show ((do return Buffer.ofBytes (← t.encodeValue w f.order)) >>= fun field => field.fixup b) = _
    cases t.encodeValue w f.order with
    | error e => rfl
    | ok bytes => rfl

end FieldEncoder

namespace Expr

/-- **It makes no difference whether an expression is reduced before its labels have values.**  The
binding may be partial, and its values may be expressions.  The normal form of what comes out is the
same; so the expression has the same value, or the same labels are reported.  A field that is written
with an expression and fixed up by a binding under which it has the value `v` is what a field that is
written with `v` at once is: the bytes of `v`, with nothing pending, or the error that `v` does not
fit. -/
theorem reduce_early (e : Expr) (b : Binding) :
    (e.reduce.bind b).reduce = (e.bind b).reduce ∧
    e.reduce.resolve b = e.resolve b ∧
    ∀ v, e.resolve b = .ok v → ∀ (f : FieldEncoder) (t : FieldType),
      (f.encode t e >>= fun field => field.fixup b) = f.encode t (.const v) ∧
      ((∃ bytes, t.encodeValue v f.order = .ok bytes ∧
          f.encode t (.const v) = .ok (.ofBytes bytes)) ∨
        t.encodeValue v f.order = .error (.encodingOverflow v (.field t)) ∧
          f.encode t (.const v) = .error (.encodingOverflow v (.field t))) := by
  refine ⟨reduce_subst_reduce _ e, resolve_reduce e b, fun v hv f t => ⟨?_, ?_⟩⟩
  · exact f.encode_bind_fixup t (resolve_eq_ok.1 hv)
  · rw [FieldEncoder.encode_const]
    cases hencode : t.encodeValue v f.order with
    | ok bytes => exact .inl ⟨bytes, rfl, rfl⟩
    | error e =>
      obtain ⟨-, rfl⟩ := FieldType.encodeValue_eq_error.1 hencode
      exact .inr ⟨rfl, rfl⟩

/-- Flags behind a mask, and the distance between two labels. -/
def maskedDistance : Expr :=
  ((label "flags" ||| const 8) &&& label "mask") + (label "stop" - label "start")

/-- Expressions for all labels of `maskedDistance` but the last, which is in one of them. -/
def symbolicValues : Binding :=
  ⟨[("flags", label "other" + const 3 - label "other"), ("mask", const 0xff),
    ("stop", label "start" + const 4)]⟩

theorem reduce_early_maskedDistance :
    (maskedDistance.reduce.bind symbolicValues).reduce = const 15 ∧
    ((⟨.big, false⟩ : FieldEncoder).encode .u16 maskedDistance >>= fun field =>
      field.fixup symbolicValues) = .ok (.ofBytes [0, 15]) := by
  have hvalue : maskedDistance.resolve symbolicValues = .ok 15 := by decide +kernel
  obtain ⟨hreduce, -, hfields⟩ := reduce_early maskedDistance symbolicValues
  have hconst : (maskedDistance.bind symbolicValues).reduce = const 15 := by decide +kernel
  exact ⟨hreduce.trans hconst, (hfields 15 hvalue ⟨.big, false⟩ .u16).1.trans (by decide +kernel)⟩

end Expr

end PortableImage
