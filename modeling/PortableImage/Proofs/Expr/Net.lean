import PortableImage.Proofs.Expr.Value

/-!
# Sums of labels

An expression that only adds and takes away has a net count of labels.  When all its labels stand for
places at fixed distances from one place, the expression is that place as often as the count says,
and a constant.

* `Expr.net?` — the net count.
* `Expr.eval_shift` — what moving all labels by the same distance does to the value.
* `Linear.multiple` — the sums of one label and a constant; `Expr.linear_of_places` reads one off.
-/

set_option autoImplicit false

namespace PortableImage

/-! ## Counting labels -/

/-- How often labels are added less how often they are taken away, in an expression that only does
that. -/
def Expr.net? : Expr → Option Int
  | const _ => some 0
  | label _ => some 1
  | binary .add lhs rhs => do return (← lhs.net?) + (← rhs.net?)
  | binary .sub lhs rhs => do return (← lhs.net?) - (← rhs.net?)
  | binary .or _ _ => none
  | binary .and _ _ => none

namespace Expr

theorem mem_labels {e : Expr} {l : String} : l ∈ e.labels ↔ l ∈ e.labelLeaves :=
  List.mem_eraseDups

theorem eval_congr {env env' : String → LinkValue} {e : Expr}
    (h : ∀ l ∈ e.labels, env l = env' l) : e.eval env = e.eval env' := by
  simp only [mem_labels] at h
  induction e with
  | const v => rfl
  | label name => exact h name (List.mem_singleton.2 rfl)
  | binary op lhs rhs ihl ihr =>
    rw [eval, eval, ihl fun l hl => h l (List.mem_append_left _ hl),
      ihr fun l hl => h l (List.mem_append_right _ hl)]

theorem net?_add {lhs rhs : Expr} {n : Int} :
    (binary .add lhs rhs).net? = some n ↔
      ∃ i j, lhs.net? = some i ∧ rhs.net? = some j ∧ n = i + j := by
  simp only [net?, Option.bind_eq_bind, Option.bind_eq_some_iff, Option.pure_def,
    Option.some.injEq]
  constructor
  · rintro ⟨i, hi, j, hj, rfl⟩
    exact ⟨i, j, hi, hj, rfl⟩
  · rintro ⟨i, j, hi, hj, rfl⟩
    exact ⟨i, hi, j, hj, rfl⟩

theorem net?_sub {lhs rhs : Expr} {n : Int} :
    (binary .sub lhs rhs).net? = some n ↔
      ∃ i j, lhs.net? = some i ∧ rhs.net? = some j ∧ n = i - j := by
  simp only [net?, Option.bind_eq_bind, Option.bind_eq_some_iff, Option.pure_def,
    Option.some.injEq]
  constructor
  · rintro ⟨i, hi, j, hj, rfl⟩
    exact ⟨i, j, hi, hj, rfl⟩
  · rintro ⟨i, j, hi, hj, rfl⟩
    exact ⟨i, hi, j, hj, rfl⟩

/-- The net count is no larger than the number of labels. -/
theorem natAbs_net?_le {e : Expr} {n : Int} (hn : e.net? = some n) :
    n.natAbs ≤ e.labelLeaves.length := by
  induction e generalizing n with
  | const v =>
    cases hn
    exact Nat.le_refl 0
  | label name =>
    cases hn
    exact Nat.le_refl 1
  | binary op lhs rhs ihl ihr =>
    rw [labelLeaves, List.length_append]
    cases op with
    | add =>
      obtain ⟨i, j, hi, hj, rfl⟩ := net?_add.1 hn
      have hleft := ihl hi
      have hright := ihr hj
      omega
    | sub =>
      obtain ⟨i, j, hi, hj, rfl⟩ := net?_sub.1 hn
      have hleft := ihl hi
      have hright := ihr hj
      omega
    | or => exact nomatch hn
    | and => exact nomatch hn

/-- **Moving all labels by `d` moves the value by `d` as often as the net count says.** -/
theorem eval_shift {env env' : String → LinkValue} {d : LinkValue} {e : Expr} {n : Int}
    (hn : e.net? = some n) (h : ∀ l ∈ e.labels, env' l = env l + d) :
    e.eval env' = e.eval env + n * d := by
  simp only [mem_labels] at h
  induction e generalizing n with
  | const v =>
    cases hn
    simp [eval]
  | label name =>
    cases hn
    simpa [eval] using h name (List.mem_singleton.2 rfl)
  | binary op lhs rhs ihl ihr =>
    have hl := fun l hl => h l (List.mem_append_left _ hl)
    have hr := fun l hl => h l (List.mem_append_right _ hl)
    cases op with
    | add =>
      obtain ⟨i, j, hi, hj, rfl⟩ := net?_add.1 hn
      rw [eval, eval, ihl hi hl, ihr hj hr]
      show lhs.eval env + i * d + (rhs.eval env + j * d) = lhs.eval env + rhs.eval env + _
      push_cast
      ring
    | sub =>
      obtain ⟨i, j, hi, hj, rfl⟩ := net?_sub.1 hn
      rw [eval, eval, ihl hi hl, ihr hj hr]
      show lhs.eval env + i * d - (rhs.eval env + j * d) = lhs.eval env - rhs.eval env + _
      push_cast
      ring
    | or => cases hn
    | and => cases hn

end Expr

/-! ## Sums of one label -/

namespace Linear

/-- The label `n` times, and the constant `c`. -/
def multiple (s : String) (n c : LinkValue) : Linear :=
  ⟨if n = 0 then [] else [(.label s, n)], c⟩

theorem combine_multiple (s : String) (n c m d : LinkValue) {sign : LinkValue}
    (hsign : sign * sign = 1) :
    (multiple s n c).combine (multiple s m d) sign =
      multiple s (n + m * sign) (c + d * sign) := by
  rw [combine, multiple, multiple, multiple]
  by_cases hm : m = 0
  · rw [if_pos hm, hm, zero_mul, add_zero, List.foldl_nil]
  · have hne : m * sign ≠ 0 := fun h => hm (by
      rw [← mul_one m, ← hsign, ← mul_assoc, h, zero_mul])
    rw [if_neg hm, List.foldl_cons, List.foldl_nil]
    by_cases hn : n = 0
    · rw [if_pos hn, hn, zero_add, if_neg hne]
      rfl
    · rw [if_neg hn]
      show mk (addTerm (.label s) (m * sign) [(.label s, n)]) _ = _
      rw [addTerm, Expr.cmp_self]

theorem ofConst_eq_multiple (s : String) (c : LinkValue) : ofConst c = multiple s 0 c := by
  simp [ofConst, multiple]

theorem ofTerm_eq_multiple (s : String) : ofTerm (.label s) = multiple s 1 0 := by
  simp [ofTerm, multiple]

theorem toExpr_multiple_one (s : String) (c : LinkValue) :
    (multiple s 1 c).toExpr = if c = 0 then .label s else .label s + .const c := by
  simp [multiple, toExpr, removed, toExprAdded, added]

theorem isSome_constant?_multiple (s : String) (n c : LinkValue) :
    (multiple s n c).constant?.isSome = decide (n = 0) := by
  rw [multiple]
  by_cases hn : n = 0
  · rw [if_pos hn, decide_eq_true hn]
    rfl
  · rw [if_neg hn, decide_eq_false hn]
    rfl

theorem isNone_constant?_multiple (s : String) (n c : LinkValue) :
    (multiple s n c).constant?.isNone = decide (n ≠ 0) := by
  rw [← Option.not_isSome, isSome_constant?_multiple, decide_not]

end Linear

namespace Expr

/-- The place `s` and a constant, in normal form. -/
def place (s : String) (c : LinkValue) : Expr := (Linear.multiple s 1 c).toExpr

theorem place_zero (s : String) : place s 0 = .label s := Linear.toExpr_multiple_one s 0

theorem eval_place (env : String → LinkValue) (s : String) (c : LinkValue) :
    (place s c).eval env = env s + c := by
  rw [place, Linear.eval_toExpr, Linear.multiple, Linear.eval]
  simp [Linear.evalTerm, eval, add_comm]

theorem linear_add (lhs rhs : Expr) :
    (lhs + rhs).linear = lhs.linear.combine rhs.linear 1 := rfl

theorem linear_sub (lhs rhs : Expr) :
    (lhs - rhs).linear = lhs.linear.combine rhs.linear (-1) := rfl

theorem linear_label (s : String) : (label s).linear = Linear.multiple s 1 0 :=
  Linear.ofTerm_eq_multiple s

theorem linear_const (s : String) (c : LinkValue) : (const c).linear = Linear.multiple s 0 c :=
  Linear.ofConst_eq_multiple s c

theorem linear_place (s : String) (c : LinkValue) :
    (place s c).linear = Linear.multiple s 1 c := by
  rw [place, Linear.toExpr_multiple_one]
  split
  · next h => rw [linear_label, h]
  · rw [linear_add, linear_label, linear_const s, Linear.combine_multiple _ _ _ _ _ (by decide)]
    simp

/-- A place and a constant more is a place again. -/
theorem reduce_place_add (s : String) (c d : LinkValue) :
    (place s c + const d).reduce = place s (c + d) := by
  rw [reduce, linear_add, linear_place, linear_const s,
    Linear.combine_multiple _ _ _ _ _ (by decide)]
  simp [place]

/-- **Where every label is put at a distance from one place, an expression that adds and takes away
labels is that place as often as the net count says, and a constant.** -/
theorem linear_of_places (σ : String → Option Expr) {s : String} {e : Expr} {n : Int}
    (hn : e.net? = some n)
    (h : ∀ l ∈ e.labels, ∃ c, ((σ l).getD (label l)).linear = Linear.multiple s 1 c) :
    ∃ c, (e.subst σ).linear = Linear.multiple s n c := by
  simp only [mem_labels] at h
  induction e generalizing n with
  | const v =>
    cases hn
    exact ⟨v, linear_const s v⟩
  | label name =>
    cases hn
    exact h name (List.mem_singleton.2 rfl)
  | binary op lhs rhs ihl ihr =>
    have hl := fun l hl => h l (List.mem_append_left _ hl)
    have hr := fun l hl => h l (List.mem_append_right _ hl)
    cases op with
    | add =>
      obtain ⟨i, j, hi, hj, rfl⟩ := net?_add.1 hn
      obtain ⟨c, hc⟩ := ihl hi hl
      obtain ⟨d, hd⟩ := ihr hj hr
      refine ⟨c + d * 1, ?_⟩
      rw [subst, linear, hc, hd, Linear.combine_multiple _ _ _ _ _ (by decide)]
      rw [Int.cast_add, mul_one]
    | sub =>
      obtain ⟨i, j, hi, hj, rfl⟩ := net?_sub.1 hn
      obtain ⟨c, hc⟩ := ihl hi hl
      obtain ⟨d, hd⟩ := ihr hj hr
      refine ⟨c + d * -1, ?_⟩
      rw [subst, linear, hc, hd, Linear.combine_multiple _ _ _ _ _ (by decide)]
      rw [Int.cast_sub, mul_neg_one, ← sub_eq_add_neg]
    | or => cases hn
    | and => cases hn

end Expr

end PortableImage
