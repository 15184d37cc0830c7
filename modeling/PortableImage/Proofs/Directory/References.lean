import PortableImage.AutoImport
import PortableImage.Proofs.Expr.Canonical

/-!
# How a field refers to a symbol

Whether a field refers to a symbol is read off the shape of a normal form.  As the normal form is
canonical, that is a matter of the values: a sum is a slot exactly when it always has the value of one
label, and a call stub exactly when it always is the distance of two different labels, up to a
constant.

## What is here

* `slotSymbol_eq_iff` — the symbol of a slot.
* `classify_eq_slot`, `classify_eq_stub` — what is read off the normal form.
* `Expr.distance` — the distance of two labels and a constant, which is a normal form.
* `classify_of_values` — what is read off the values.
-/

set_option autoImplicit false

namespace PortableImage

/-! ## The symbol of a slot -/

/-- The symbol is the label without one leading `iat_`, if there is one. -/
def SlotOf (symbol label : String) : Prop :=
  label = "iat_" ++ symbol ∨ ((∀ rest, label ≠ "iat_" ++ rest) ∧ symbol = label)

theorem slotSymbol_eq_iff {symbol label : String} :
    symbol = slotSymbol label ↔ SlotOf symbol label := by
  have happend : ∀ rest : String, ("iat_" ++ rest).toList = 'i' :: 'a' :: 't' :: '_' :: rest.toList :=
    fun rest => String.toList_append
  unfold slotSymbol SlotOf
  split
  · next rest hlabel =>
    have heq : ∀ s : String, label = "iat_" ++ s ↔ s = String.ofList rest := by
      intro s
      rw [← String.toList_inj, hlabel, happend, ← String.toList_inj, String.toList_ofList]
      simp [eq_comm]
    rw [← heq]
    constructor
    · exact .inl
    · rintro (h | ⟨hnone, -⟩)
      · exact h
      · exact absurd ((heq _).2 rfl) (hnone _)
  · next hnone =>
    have hne : ∀ rest, label ≠ "iat_" ++ rest := fun rest h => hnone rest.toList (h ▸ happend rest)
    constructor
    · exact fun h => .inr ⟨hne, h⟩
    · rintro (h | ⟨-, h⟩)
      · exact absurd h (hne _)
      · exact h

/-! ## The shape of the normal form -/

namespace Expr

/-- The label `s` without the label `r`, and a constant. -/
def distance (s r : String) (c : LinkValue) : Expr := place s c - label r

theorem eval_distance (env : String → LinkValue) (s r : String) (c : LinkValue) :
    (distance s r c).eval env = env s - env r + c := by
  show (place s c).eval env - env r = _
  rw [eval_place, sub_add_eq_add_sub]

theorem isSum_place (s : String) (c : LinkValue) : (place s c).IsSum := by
  rw [place, Linear.toExpr_multiple_one]
  split
  · exact .label s
  · exact .add (.label s) (.const c)

theorem isSum_distance (s r : String) (c : LinkValue) : (distance s r c).IsSum :=
  .sub (isSum_place s c) (.label r)

/-- The distance of different labels is a normal form, whichever of them comes first. -/
theorem reduce_distance {s r : String} (h : s ≠ r) (c : LinkValue) :
    (distance s r c).reduce = distance s r c := by
  have hne : ¬(label r).cmp (label s) = .eq := fun heq => h (Expr.label.inj (eq_of_cmp heq)).symm
  have hlinear : (distance s r c).linear =
      ⟨Linear.addTerm (label r) (-1) [(label s, 1)], c⟩ := by
    rw [distance, linear_sub, linear_place, linear_label]
    simp [Linear.combine, Linear.multiple]
  rw [reduce, hlinear, distance, place, Linear.toExpr_multiple_one, Linear.addTerm]
  cases hcmp : (label r).cmp (label s) with
  | lt => simp [Linear.toExpr, Linear.toExprAdded, Linear.added, Linear.removed]
  | eq => exact absurd hcmp hne
  | gt => simp [Linear.toExpr, Linear.toExprAdded, Linear.added, Linear.removed, Linear.addTerm]

/-- The distance of a label from itself is the constant. -/
theorem reduce_distance_self (s : String) (c : LinkValue) :
    (distance s s c).reduce = const c := by
  have hconst : (const c).reduce = const c := rfl
  rw [← hconst]
  refine (reduce_eq_iff (isSum_distance s s c) (.const c)).2 fun env => ?_
  rw [eval_distance, sub_self, zero_add]
  rfl

/-- Two labels with the values of a distance: they differ, and it is the distance itself. -/
theorem eq_distance_of_reduce {e a : Expr} {s r : String} {c : LinkValue}
    (h : e.reduce = a - label r) (hsum : a.IsSum) (ha : ∀ env, a.eval env = env s + c) :
    s ≠ r ∧ e.reduce = distance s r c := by
  have hvalues : (a - label r).reduce = (distance s r c).reduce := by
    refine (reduce_eq_iff (.sub hsum (.label r)) (isSum_distance s r c)).2 fun env => ?_
    rw [eval_distance, sub_add_eq_add_sub, ← ha]
    rfl
  have hreduce : e.reduce = (distance s r c).reduce := by
    rw [← hvalues, ← h, reduce_reduce]
  have hne : s ≠ r := by
    rintro rfl
    rw [reduce_distance_self, h] at hreduce
    cases hreduce
  exact ⟨hne, hreduce.trans (reduce_distance hne c)⟩

end Expr

open PortableImage.Expr

variable {e : Expr} {s symbol l : String}

/-- **What is read off the normal form**: a label alone is a slot, the distance of two labels a call
stub, and nothing else is a reference. -/
theorem classify_cases (e : Expr) :
    (∃ l, e.reduce = label l ∧ classify e = some (.slot (slotSymbol l) l)) ∨
    (∃ s r c, s ≠ r ∧ e.reduce = distance s r c ∧ classify e = some (.stub s)) ∨
    ((∀ l, e.reduce ≠ label l) ∧ (∀ s r c, e.reduce ≠ distance s r c) ∧ classify e = none) := by
  unfold classify
  split
  · next l h => exact .inl ⟨l, h, rfl⟩
  · next s r h =>
    obtain ⟨hne, hreduce⟩ := eq_distance_of_reduce (c := 0) h (.label s) fun env => (add_zero _).symm
    exact .inr (.inl ⟨s, r, 0, hne, hreduce, rfl⟩)
  · next s c r h =>
    obtain ⟨hne, hreduce⟩ := eq_distance_of_reduce h (.add (.label s) (.const c)) fun _ => rfl
    exact .inr (.inl ⟨s, r, c, hne, hreduce, rfl⟩)
  · next hlabel hlabels hconstant =>
    refine .inr (.inr ⟨hlabel, fun s r c h => ?_, rfl⟩)
    rw [distance, place, Linear.toExpr_multiple_one] at h
    split at h
    · exact hlabels s r h
    · exact hconstant s c r h

theorem classify_eq_slot :
    classify e = some (.slot symbol l) ↔ symbol = slotSymbol l ∧ e.reduce = label l := by
  obtain ⟨l', h, hclassify⟩ | ⟨s, r, c, -, h, hclassify⟩ | ⟨h, -, hclassify⟩ := classify_cases e
  · rw [hclassify, h, Option.some.injEq, Reference.slot.injEq, Expr.label.injEq]
    constructor
    · rintro ⟨rfl, rfl⟩
      exact ⟨rfl, rfl⟩
    · rintro ⟨rfl, rfl⟩
      exact ⟨rfl, rfl⟩
  · rw [hclassify, h]
    constructor
    · intro heq
      cases heq
    · rintro ⟨-, heq⟩
      cases heq
  · rw [hclassify]
    exact ⟨fun heq => (Option.some_ne_none _ heq.symm).elim, fun heq => absurd heq.2 (h l)⟩

theorem classify_eq_stub :
    classify e = some (.stub s) ↔ ∃ r c, s ≠ r ∧ e.reduce = distance s r c := by
  obtain ⟨l', h, hclassify⟩ | ⟨s', r', c', hne, h, hclassify⟩ | ⟨-, h, hclassify⟩ := classify_cases e
  · rw [hclassify, h]
    constructor
    · intro heq
      cases heq
    · rintro ⟨r, c, -, heq⟩
      cases heq
  · rw [hclassify, Option.some.injEq, Reference.stub.injEq]
    constructor
    · rintro rfl
      exact ⟨r', c', hne, h⟩
    · rintro ⟨r, c, -, heq⟩
      -- the label in front is the same in both distances
      have hplaces : place s' c' = place s c := (Expr.binary.inj (h.symm.trans heq)).2.1
      rw [place, place, Linear.toExpr_multiple_one, Linear.toExpr_multiple_one] at hplaces
      split at hplaces <;> split at hplaces <;> cases hplaces <;> rfl
  · rw [hclassify]
    constructor
    · intro heq
      cases heq
    · rintro ⟨r, c, -, heq⟩
      exact absurd heq (h s r c)

theorem classify_eq_none :
    classify e = none ↔ (∀ l, e.reduce ≠ label l) ∧ ∀ s r c, s ≠ r → e.reduce ≠ distance s r c := by
  obtain ⟨l, h, hclassify⟩ | ⟨s, r, c, hne, h, hclassify⟩ | ⟨hlabel, hdistance, hclassify⟩ :=
    classify_cases e
  · rw [hclassify]
    exact ⟨fun heq => (Option.some_ne_none _ heq).elim, fun hnone => absurd h (hnone.1 l)⟩
  · rw [hclassify]
    exact ⟨fun heq => (Option.some_ne_none _ heq).elim, fun hnone => absurd h (hnone.2 s r c hne)⟩
  · exact ⟨fun _ => ⟨hlabel, fun s r c _ => hdistance s r c⟩, fun _ => hclassify⟩

/-! ## The values -/

theorem reduce_eq_label_iff (he : e.IsSum) : e.reduce = label l ↔ ∀ env, e.eval env = env l := by
  have hreduce : (label l).reduce = label l := place_zero l
  have hvalues := reduce_eq_iff he (.label l)
  rw [hreduce] at hvalues
  exact hvalues

theorem reduce_eq_distance_iff {r : String} {c : LinkValue} (he : e.IsSum) (hne : s ≠ r) :
    e.reduce = distance s r c ↔ ∀ env, e.eval env = env s - env r + c := by
  rw [← reduce_distance hne c, reduce_eq_iff he (isSum_distance s r c)]
  simp only [eval_distance]

/-- **A reference is a matter of the values.**  A sum refers to a slot exactly when it always has the
value of the label, and to a call stub exactly when it always is the distance of two different labels
and a constant; in all other cases it is no reference.  So sums that always have the same value refer
to the same symbol in the same way. -/
theorem classify_of_values (he : e.IsSum) :
    (∀ symbol l, classify e = some (.slot symbol l) ↔
      SlotOf symbol l ∧ ∀ env, e.eval env = env l) ∧
    (∀ s, classify e = some (.stub s) ↔
      ∃ r c, s ≠ r ∧ ∀ env, e.eval env = env s - env r + c) ∧
    (classify e = none ↔ (¬∃ l, ∀ env, e.eval env = env l) ∧
      ¬∃ s r c, s ≠ r ∧ ∀ env, e.eval env = env s - env r + c) ∧
    ∀ f : Expr, f.IsSum → (∀ env, e.eval env = f.eval env) → classify e = classify f := by
  have hlabel : ∀ l, (e.reduce = label l ↔ ∀ env, e.eval env = env l) := fun l =>
    reduce_eq_label_iff he
  have hdistance : ∀ s r c, (s ≠ r ∧ e.reduce = distance s r c ↔
      s ≠ r ∧ ∀ env, e.eval env = env s - env r + c) := fun s r c =>
    and_congr_right fun hne => reduce_eq_distance_iff he hne
  refine ⟨fun symbol l => ?_, fun s => ?_, ?_, fun f hf h => ?_⟩
  · rw [classify_eq_slot, slotSymbol_eq_iff, hlabel]
  · simp only [classify_eq_stub, hdistance]
  · simp only [classify_eq_none, ← hdistance, ← hlabel, not_exists, not_and, ne_eq]
  · rw [classify, classify, (reduce_eq_iff he hf).2 h]

/-- The distance of `puts` from the field, with the terms in another order and one that cancels. -/
theorem classify_of_values_reordered :
    (const 4 - label "here" - (label "x" - label "puts") + label "x").IsSum ∧
    classify (const 4 - label "here" - (label "x" - label "puts") + label "x") = some (.stub "puts") ∧
    classify (const 4 - label "here" - (label "x" - label "puts") + label "x") =
      classify (label "puts" + const 4 - label "here") := by
  have he : (const 4 - label "here" - (label "x" - label "puts") + label "x").IsSum :=
    .add (.sub (.sub (.const _) (.label _)) (.sub (.label _) (.label _))) (.label _)
  have hf : (label "puts" + const 4 - label "here").IsSum :=
    .sub (.add (.label _) (.const _)) (.label _)
  obtain ⟨-, hstub, -, hsame⟩ := classify_of_values he
  refine ⟨he, (hstub "puts").2 ⟨"here", 4, by decide, fun env => ?_⟩, hsame _ hf fun env => ?_⟩
  · show 4 - env "here" - (env "x" - env "puts") + env "x" = env "puts" - env "here" + 4
    ring
  · show 4 - env "here" - (env "x" - env "puts") + env "x" = env "puts" + 4 - env "here"
    ring

end PortableImage
