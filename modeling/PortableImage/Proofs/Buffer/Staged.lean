import PortableImage.Proofs.Buffer.Shows
import PortableImage.Proofs.Expr.Constant

/-!
# Fixups in stages

A buffer is fixed up in place: the values of all fields are found first, and only then is anything
written.  So a value that does not fit leaves the buffer as it was.  Where every value fits, the
binding alone decides what the buffer becomes, and a part of the binding may be used earlier.  The
fields that have their values by then are written, and the others are left for later.

## What is here

* `Buffer.fixupInPlace` — the fixup on a buffer that is changed as it goes, with its two loops;
  `Buffer.on_fixupInPlace` says that `Buffer.fixup` is what it does.
* `Buffer.FixedUp` — what a fixup changes and what it leaves.  There is exactly one such buffer if the
  values fit, and `Buffer.fixup_eq_ok_iff` says that the fixup finds it.
* `Buffer.FixedUp.staged` — two fixups, the first by a part of the binding, are one.
* `Buffer.fixupInPlace_atomic` — all of it, for the fixup in place.
-/

set_option autoImplicit false

namespace PortableImage

/-! ## Computations that change a buffer -/

/-- A computation that changes a buffer and may fail; what it has changed by then stays changed. -/
abbrev InPlace (α : Type) := ExceptT EncodeError (StateM Buffer) α

namespace InPlace

variable {α β : Type}

/-- The outcome of a computation on a buffer, and what the buffer is then. -/
def on (x : InPlace α) (b : Buffer) : Except EncodeError α × Buffer := (x.run.run b).run

theorem on_bind_of_ok {x : InPlace α} {f : α → InPlace β} {b b' : Buffer} {a : α}
    (h : x.on b = (.ok a, b')) : (x >>= f).on b = (f a).on b' := by
  have hrun : x b = (.ok a, b') := h
  show (x >>= f) b = f a b'
  simp only [bind, ExceptT.bind, ExceptT.mk, StateT.bind, hrun]
  rfl

theorem on_bind_of_error {x : InPlace α} {f : α → InPlace β} {b b' : Buffer} {e : EncodeError}
    (h : x.on b = (.error e, b')) : (x >>= f).on b = (.error e, b') := by
  have hrun : x b = (.error e, b') := h
  show (x >>= f) b = _
  simp only [bind, ExceptT.bind, ExceptT.mk, StateT.bind, hrun]
  rfl

end InPlace

namespace Buffer

/-! ## A fixup that runs in place -/

/-- Finds the bytes of one more field, if the binding gives it a value. -/
def resolveStep (binding : Binding) (resolved : List (Nat × List UInt8))
    (entry : Nat × PendingField) : InPlace (List (Nat × List UInt8)) := do
  match entry.2.target.constantUnder binding with
  | none => return resolved
  | some value =>
    let bytes ← liftExcept (entry.2.type.encodeValue value entry.2.order)
    return resolved ++ [(entry.1, bytes)]

/-- Finds the bytes of all fields that the binding gives values to, and then writes them. -/
def fixupInPlace (binding : Binding) : InPlace Unit := do
  let resolved ← (← get).fields.entries.foldlM (resolveStep binding) []
  resolved.forM fun e => modify fun b => b.writeField e.1 e.2

section Steps

variable {binding : Binding} {e : Nat × PendingField} (resolved : List (Nat × List UInt8)) (b : Buffer)

theorem on_resolveStep_of_none (h : e.2.target.constantUnder binding = none) :
    (resolveStep binding resolved e).on b = (.ok resolved, b) := by
  rw [resolveStep, h]
  rfl

/-- A field with a value is found, or the value does not fit; nothing is written. -/
theorem on_resolveStep_of_some {v : LinkValue} (h : e.2.target.constantUnder binding = some v) :
    (resolveStep binding resolved e).on b =
      ((fun bytes => resolved ++ [(e.1, bytes)]) <$> e.2.type.encodeValue v e.2.order, b) := by
  rw [resolveStep, h]
  show InPlace.on (liftExcept (e.2.type.encodeValue v e.2.order) >>= _) b = _
  cases e.2.type.encodeValue v e.2.order <;> rfl

end Steps

/-- The first loop: it finds the bytes of all fields, or the first value that does not fit, and it
leaves the buffer as it is. -/
theorem on_resolve (binding : Binding) (fields : List (Nat × PendingField))
    (resolved : List (Nat × List UInt8)) (b : Buffer) :
    (fields.foldlM (resolveStep binding) resolved).on b =
      ((resolved ++ ·) <$> resolvedFields binding fields, b) := by
  induction fields generalizing resolved with
  | nil =>
    show (Except.ok resolved, b) = (Except.ok (resolved ++ []), b)
    rw [List.append_nil]
  | cons e rest ih =>
    rw [List.foldlM_cons, resolvedFields]
    cases hv : e.2.target.constantUnder binding with
    | none => rw [InPlace.on_bind_of_ok (on_resolveStep_of_none resolved b hv), ih]
    | some v =>
      have hstep := on_resolveStep_of_some resolved b hv
      dsimp only
      cases hbytes : e.2.type.encodeValue v e.2.order with
      | error err =>
        rw [hbytes] at hstep
        exact InPlace.on_bind_of_error hstep
      | ok bytes =>
        rw [hbytes] at hstep
        rw [InPlace.on_bind_of_ok hstep, ih]
        cases resolvedFields binding rest with
        | error err => rfl
        | ok others => exact congrArg (fun l => (Except.ok l, b)) (List.append_assoc _ _ _)

/-- The second loop: it writes the fields, and it cannot fail. -/
theorem on_write (resolved : List (Nat × List UInt8)) (b : Buffer) :
    InPlace.on (resolved.forM fun e => modify fun b => b.writeField e.1 e.2) b =
      (.ok (), b.writeFields resolved) := by
  induction resolved generalizing b with
  | nil => rfl
  | cons e rest ih => exact ih _

/-- **The fixup in place does what the fixup says, and where that fails the buffer stays as it was.** -/
theorem on_fixupInPlace (binding : Binding) (b : Buffer) :
    (fixupInPlace binding).on b =
      match b.fixup binding with
      | .ok b' => (.ok (), b')
      | .error e => (.error e, b) := by
  have hfirst := on_resolve binding b.fields.entries [] b
  have hget : InPlace.on get b = (.ok b, b) := rfl
  rw [fixupInPlace, InPlace.on_bind_of_ok hget, fixup]
  cases hres : resolvedFields binding b.fields.entries with
  | error e =>
    rw [hres] at hfirst
    exact InPlace.on_bind_of_error hfirst
  | ok resolved =>
    rw [hres] at hfirst
    exact (InPlace.on_bind_of_ok hfirst).trans (on_write resolved b)

/-! ## What a fixup changes -/

/-- What a fixup makes of a buffer.  The fields without a value are still pending, every other one has
the bytes of its value, which are read as the value, and all else is as it was. -/
structure FixedUp (binding : Binding) (b b' : Buffer) : Prop where
  pending : ∀ k, b'.fields.get? k =
    (b.fields.get? k).filter fun f => (f.target.constantUnder binding).isNone
  written : ∀ k f v, b.fields.get? k = some f → f.target.constantUnder binding = some v →
    f.type.encodeValue v f.order = .ok (bytesAt b'.data k f.type.width) ∧
      f.type.decodeValue f.order (bytesAt b'.data k f.type.width) = v
  kept : ∀ i, (∀ k f, b.fields.get? k = some f → (f.target.constantUnder binding).isSome →
    i < k ∨ k + f.type.width ≤ i) → b'.data[i]? = b.data[i]?
  exports : b'.exports = b.exports
  rawSize : b'.rawSize = b.rawSize
  virtSize : b'.virtSize = b.virtSize

/-- What a fixup fails with: the value of a field, which does not fit it. -/
def NoRoom (binding : Binding) (b : Buffer) (e : EncodeError) : Prop :=
  ∃ k f v, b.fields.get? k = some f ∧ f.target.constantUnder binding = some v ∧
    ¬ f.type.Fits v ∧ e = .encodingOverflow v (.field f.type)

theorem failsWith_noRoom (binding : Binding) (b : Buffer) :
    FailsWith (NoRoom binding b) (b.fixup binding) := by
  suffices h : ∀ l : List (Nat × PendingField), (∀ x ∈ l, b.fields.get? x.1 = some x.2) →
      FailsWith (NoRoom binding b) (resolvedFields binding l) by
    rw [fixup, failsWith_bind]
    exact ⟨h _ fun x hx => OffsetMap.get?_eq_some.2 hx, fun _ _ => failsWith_pure _⟩
  intro l hl
  induction l with
  | nil => exact failsWith_ok _
  | cons x rest ih =>
    obtain ⟨hx, hrest⟩ := List.forall_mem_cons.1 hl
    rw [resolvedFields]
    cases hv : x.2.target.constantUnder binding with
    | none => exact ih hrest
    | some v =>
      simp only [failsWith_bind, failsWith_pure, implies_true, and_true]
      refine ⟨fun e he => ?_, fun _ _ => ih hrest⟩
      obtain ⟨hfits, rfl⟩ := FieldType.encodeValue_eq_error.1 he
      exact ⟨x.1, x.2, v, hx, hv, hfits, rfl⟩

section FixedUp

variable {b b' c : Buffer} {binding binding₁ : Binding}

/-- A buffer can be fixed up if every value fits its field. -/
theorem exists_fixup_of_fits (h : ∀ k f v, b.fields.get? k = some f →
    f.target.constantUnder binding = some v → f.type.Fits v) : ∃ c, b.fixup binding = .ok c := by
  obtain ⟨resolved, hresolved⟩ : ∃ resolved, resolvedFields binding b.fields.entries = .ok resolved :=
    exists_resolvedFields fun k f v hmem hv =>
      ⟨_, FieldType.encodeValue_eq_ok.2 ⟨h k f v (OffsetMap.get?_eq_some.2 hmem) hv, rfl⟩⟩
  exact ⟨_, fixup_eq_ok.2 ⟨resolved, hresolved, rfl⟩⟩

theorem FixedUp.fits (h : FixedUp binding b b') {k : Nat} {f : PendingField} {v : LinkValue}
    (hf : b.fields.get? k = some f) (hv : f.target.constantUnder binding = some v) :
    f.type.Fits v :=
  (FieldType.encodeValue_eq_ok.1 (h.written k f v hf hv).1).1

/-- A buffer is fixed up in one way only. -/
theorem FixedUp.unique (hb : FixedUp binding b b') (hc : FixedUp binding b c) : b' = c := by
  have hraw := hb.rawSize.trans hc.rawSize.symm
  have hvirt := hb.virtSize.trans hc.virtSize.symm
  refine Buffer.ext (List.ext_getElem? fun i => ?_) ?_
    (fun k => (hb.pending k).trans (hc.pending k).symm) (hb.exports.trans hc.exports.symm)
  · -- a byte is in a field that has a value, or it has been kept
    by_cases hin : ∃ k f v, b.fields.get? k = some f ∧ f.target.constantUnder binding = some v ∧
        k ≤ i ∧ i < k + f.type.width
    · obtain ⟨k, f, v, hf, hv, hle, hlt⟩ := hin
      have hsame := (hb.written k f v hf hv).1.symm.trans (hc.written k f v hf hv).1
      have hbyte := congrArg (·[i - k]?) (Except.ok.inj hsame)
      simp only [getElem?_bytesAt] at hbyte
      rwa [if_pos (by omega), if_pos (by omega), Nat.add_sub_cancel' hle] at hbyte
    · have hout : ∀ k f, b.fields.get? k = some f → (f.target.constantUnder binding).isSome →
          i < k ∨ k + f.type.width ≤ i := fun k f hf hsome => by
        obtain ⟨v, hv⟩ := Option.isSome_iff_exists.1 hsome
        by_contra hcovers
        exact hin ⟨k, f, v, hf, hv, by omega, by omega⟩
      rw [hb.kept i hout, hc.kept i hout]
  · rw [virtSize.eq_def, virtSize.eq_def] at hvirt
    rw [rawSize.eq_def, rawSize.eq_def] at hraw
    omega

/-- What is pending after a fixup was pending before. -/
theorem FixedUp.get?_fields (h : FixedUp binding b b') {k : Nat} {f : PendingField} :
    b'.fields.get? k = some f ↔
      b.fields.get? k = some f ∧ f.target.constantUnder binding = none := by
  rw [h.pending, Option.filter_eq_some_iff, Option.isNone_iff_eq_none]

theorem FixedUp.fieldsWritten (h : FixedUp binding b b') (hwritten : b.FieldsWritten) :
    b'.FieldsWritten := by
  intro k f hk
  rw [h.rawSize]
  exact hwritten k f (h.get?_fields.1 hk).1

theorem FixedUp.fieldsApart (h : FixedUp binding b b') (hapart : b.FieldsApart) :
    b'.FieldsApart := fun j k f g hf hg =>
  hapart j k f g (h.get?_fields.1 hf).1 (h.get?_fields.1 hg).1

section Apart

variable (hwritten : b.FieldsWritten) (hapart : b.FieldsApart)

include hwritten hapart

/-- **The fixup finds the one buffer that is fixed up.** -/
theorem fixup_eq_ok_iff : b.fixup binding = .ok b' ↔ FixedUp binding b b' := by
  have hfixed : ∀ {c}, b.fixup binding = .ok c → FixedUp binding b c := fun {c} h => by
    have hraw := hwritten.rawSize_fixup h
    refine ⟨get?_fields_fixup h, fun k f v hf hv => ?_, fun i hfree => ?_, exports_fixup h, hraw,
      virtSize_fixup hwritten.inside h⟩
    · have hbytes := bytesAt_fixup h hf hv fun j g hg hne => by
        rcases Nat.lt_or_gt_of_ne hne with hlt | hlt
        · exact .inl (hapart j k g f hg hf hlt)
        · exact .inr (hapart k j f g hf hg hlt)
      exact ⟨hbytes, FieldType.decodeValue_encodeValue hbytes⟩
    · by_cases hi : i < b.rawSize
      · exact getElem?_fixup h hi hfree
      · rw [List.getElem?_eq_none (Nat.le_of_not_lt fun hlt => hi (hraw ▸ hlt)),
          List.getElem?_eq_none (Nat.le_of_not_lt hi)]
  constructor
  · exact hfixed
  · intro h
    obtain ⟨c, hc⟩ := exists_fixup_of_fits fun k f v hf hv => h.fits hf hv
    rw [hc, h.unique (hfixed hc)]

end Apart

/-! ## Two fixups, one after the other -/

section Staged

variable (hconstant : binding.Constant) (hextends : binding₁.Extends binding)

include hconstant hextends

/-- What has a value early has the same value later. -/
theorem constantUnder_later {e : Expr} {v : LinkValue} (h : e.constantUnder binding₁ = some v) :
    e.constantUnder binding = some v :=
  Expr.constantUnder_extends (fun name value hname => hconstant name value (hextends name value hname))
    hextends h

/-- **What is fixed up by a part of a binding, and then by the binding, is fixed up by the binding.** -/
theorem FixedUp.trans (hapart : b.FieldsApart) (hc : FixedUp binding₁ b c)
    (hb' : FixedUp binding c b') : FixedUp binding b b' where
  pending k := by
    rw [hb'.pending, hc.pending, Option.filter_filter]
    congr 1
    funext f
    cases hv : f.target.constantUnder binding₁ with
    | none => rw [Option.isNone_none, Bool.true_and]
    | some v => rw [constantUnder_later hconstant hextends hv]; rfl
  written k f v hf hv := by
    cases hearly : f.target.constantUnder binding₁ with
    | none => exact hb'.written k f v (hc.get?_fields.2 ⟨hf, hearly⟩) hv
    | some w =>
      -- the field has been written early, and no later one overlaps it
      obtain rfl : w = v := by
        rw [constantUnder_later hconstant hextends hearly, Option.some.injEq] at hv
        exact hv
      have hsame : bytesAt b'.data k f.type.width = bytesAt c.data k f.type.width :=
        bytesAt_congr fun i hi => hb'.kept _ fun j g hg _ => by
          obtain ⟨hg, hlate⟩ := hc.get?_fields.1 hg
          rcases Nat.lt_trichotomy j k with hlt | rfl | hlt
          · exact .inr (Nat.le_trans (hapart j k g f hg hf hlt) (Nat.le_add_right k i))
          · rw [hf, Option.some.injEq] at hg
            rw [← hg, hearly] at hlate
            exact nomatch hlate
          · have hle := hapart k j f g hf hg hlt
            exact .inl (by omega)
      rw [hsame]
      exact hc.written k f w hf hearly
  kept i hfree := by
    rw [hb'.kept i fun k f hf => hfree k f (hc.get?_fields.1 hf).1]
    refine hc.kept i fun k f hf hsome => hfree k f hf ?_
    obtain ⟨v, hv⟩ := Option.isSome_iff_exists.1 hsome
    rw [constantUnder_later hconstant hextends hv]
    rfl
  exports := hb'.exports.trans hc.exports
  rawSize := hb'.rawSize.trans hc.rawSize
  virtSize := hb'.virtSize.trans hc.virtSize

/-- **A buffer may be fixed up by a part of a binding first.** -/
theorem fixup_staged (hwritten : b.FieldsWritten) (hapart : b.FieldsApart) :
    b.fixup binding = .ok b' ↔ ∃ c, b.fixup binding₁ = .ok c ∧ c.fixup binding = .ok b' := by
  constructor
  · intro h
    have hfixed := (fixup_eq_ok_iff hwritten hapart).1 h
    obtain ⟨c, hc⟩ := exists_fixup_of_fits fun k f v hf hv =>
      hfixed.fits hf (constantUnder_later hconstant hextends hv)
    have hearly := (fixup_eq_ok_iff hwritten hapart).1 hc
    obtain ⟨d, hd⟩ := exists_fixup_of_fits fun k f v hf hv =>
      hfixed.fits (hearly.get?_fields.1 hf).1 hv
    have hlate := (fixup_eq_ok_iff (hearly.fieldsWritten hwritten)
      (hearly.fieldsApart hapart)).1 hd
    rw [hfixed.unique (hearly.trans hconstant hextends hapart hlate)]
    exact ⟨c, hc, hd⟩
  · rintro ⟨c, hc, hd⟩
    have hearly := (fixup_eq_ok_iff hwritten hapart).1 hc
    have hlate := (fixup_eq_ok_iff (hearly.fieldsWritten hwritten)
      (hearly.fieldsApart hapart)).1 hd
    exact (fixup_eq_ok_iff hwritten hapart).2 (hearly.trans hconstant hextends hapart hlate)

end Staged

end FixedUp

/-! ## The fixup in place -/

/-- A fixup in place succeeds where the fixup does. -/
theorem on_fixupInPlace_eq_ok {binding : Binding} {b b' : Buffer} :
    (fixupInPlace binding).on b = (.ok (), b') ↔ b.fixup binding = .ok b' := by
  rw [on_fixupInPlace]
  cases b.fixup binding with
  | error e => exact ⟨fun h => (nomatch h), fun h => nomatch h⟩
  | ok c => simp

/-- **A fixup is all or nothing, it is exact, and it may be done in stages.**  The pending fields of the
buffer lie in its bytes and apart from each other, and the labels are bound to constants.

Where the fixup fails, the value of some field does not fit, and the buffer is as it was.  Otherwise
the buffer becomes what `FixedUp` says: the fields without a value are still pending, every field with
one is read as its value, and all other bytes, the labels and the sizes are as before.  A fixup by a
part of the binding may come first. -/
theorem fixupInPlace_atomic {b : Buffer} {binding₁ binding : Binding} (hwritten : b.FieldsWritten)
    (hapart : b.FieldsApart) (hconstant : binding.Constant) (hextends : binding₁.Extends binding) :
    (∀ e b', (fixupInPlace binding).on b = (.error e, b') → b' = b ∧ NoRoom binding b e) ∧
    (∀ b', (fixupInPlace binding).on b = (.ok (), b') ↔ FixedUp binding b b') ∧
    ∀ b', (fixupInPlace binding).on b = (.ok (), b') ↔
      InPlace.on (do fixupInPlace binding₁; fixupInPlace binding) b = (.ok (), b') := by
  refine ⟨fun e b' h => ?_, fun b' => ?_, fun b' => ?_⟩
  · rw [on_fixupInPlace] at h
    cases hfix : b.fixup binding with
    | ok c =>
      rw [hfix] at h
      exact nomatch h
    | error e' =>
      rw [hfix] at h
      cases h
      exact ⟨rfl, failsWith_noRoom binding b e hfix⟩
  · rw [on_fixupInPlace_eq_ok, fixup_eq_ok_iff hwritten hapart]
  · rw [on_fixupInPlace_eq_ok, fixup_staged hconstant hextends hwritten hapart]
    cases hfix : b.fixup binding₁ with
    | error e =>
      have hfirst := on_fixupInPlace binding₁ b
      rw [hfix] at hfirst
      rw [InPlace.on_bind_of_error hfirst]
      exact ⟨fun ⟨_, h, _⟩ => (nomatch h), fun h => nomatch h⟩
    | ok c =>
      rw [InPlace.on_bind_of_ok (on_fixupInPlace_eq_ok.2 hfix), on_fixupInPlace_eq_ok]
      simp

/-- Two fields of different widths and byte orders, one of them signed, and a byte behind them. -/
def mixedFields : Buffer where
  data := [0, 0, 0, 0, 0, 0, 7]
  tail := 2
  fields := (OffsetMap.singleton 0 ⟨.label "count" + .const 1, .u16, .big⟩).insert 2
    ⟨.label "start" - .label "stop", .i32, .little⟩
  exports := [("table", 2)]

/-- What the first field needs. -/
def earlyValues : Binding := ⟨[("count", .const 0x102)]⟩

/-- What both fields need. -/
def mixedValues : Binding :=
  ⟨[("count", .const 0x102), ("start", .const 16), ("stop", .const 18)]⟩

theorem fixupInPlace_mixedFields :
    mixedFields.FieldsWritten ∧ mixedFields.FieldsApart ∧
    InPlace.on (do fixupInPlace earlyValues; fixupInPlace mixedValues) mixedFields =
      (.ok (), { mixedFields with data := [1, 3, 0xfe, 0xff, 0xff, 0xff, 7], fields := .empty }) := by
  have hwritten : mixedFields.FieldsWritten := by decide +kernel
  have hapart : mixedFields.FieldsApart := by decide +kernel
  have hbind : earlyValues.bindAll [("start", .const 16), ("stop", .const 18)] = .ok mixedValues :=
    rfl
  have hearly : Binding.empty.bindAll [("count", .const 0x102)] = .ok earlyValues := rfl
  have hconstant : mixedValues.Constant :=
    (Binding.constant_empty.bindAll hearly (by simp)).bindAll hbind (by simp)
  obtain ⟨-, -, hstaged⟩ :=
    fixupInPlace_atomic hwritten hapart hconstant (Binding.extends_bindAll hbind)
  refine ⟨hwritten, hapart, (hstaged _).1 (on_fixupInPlace_eq_ok.2 ?_)⟩
  decide +kernel

end Buffer

end PortableImage
