import PortableImage.Proofs.Expr.Constant
import PortableImage.Proofs.Expr.Sum

/-!
# The normal form is canonical

Two expressions that only add and take away constants and labels have the same normal form exactly
when they have the same value whatever the labels stand for.  So such an expression reduces to a
constant exactly when its value depends on no label.

## What is here

* `Expr.IsSum` — the expressions that only add and take away.
* `Linear.total_of_labels` — where the terms are labels, every additive function of the terms is a
  value: the one under the assignment of what the function gives for each label.
* `Expr.linear_eq_of_eval` — sums with the same values are read as the same sum.
* `Expr.reduce_normalForm` — reducing keeps the value, reduces all the way, and tells sums apart
  that differ in a value.

The last part leaves out expressions with bitwise operations: `a | a` and `a` have the same value
under every assignment, but different normal forms.
-/

set_option autoImplicit false

namespace PortableImage

/-- The expression is built from constants and labels by adding and taking away alone. -/
inductive Expr.IsSum : Expr → Prop
  | const (v : LinkValue) : IsSum (const v)
  | label (l : String) : IsSum (label l)
  | add {a b : Expr} : IsSum a → IsSum b → IsSum (a + b)
  | sub {a b : Expr} : IsSum a → IsSum b → IsSum (a - b)

theorem Expr.IsSum.isSome_net? {e : Expr} (h : e.IsSum) : e.net?.isSome := by
  suffices hnet : ∃ n, e.net? = some n from Option.isSome_iff_exists.2 hnet
  induction h with
  | const v => exact ⟨0, rfl⟩
  | label l => exact ⟨1, rfl⟩
  | add _ _ iha ihb =>
    obtain ⟨i, hi⟩ := iha
    obtain ⟨j, hj⟩ := ihb
    exact ⟨i + j, net?_add.2 ⟨i, j, hi, hj, rfl⟩⟩
  | sub _ _ iha ihb =>
    obtain ⟨i, hi⟩ := iha
    obtain ⟨j, hj⟩ := ihb
    exact ⟨i - j, net?_sub.2 ⟨i, j, hi, hj, rfl⟩⟩

/-! ## Values tell sums apart -/

/-- What a function gives for terms that are labels is their value, where each label stands for
what the function gives for it. -/
theorem Linear.total_of_labels {ts : List (Expr × LinkValue)}
    (h : ∀ t ∈ ts, ∃ l, t.1 = .label l) (φ : Expr → LinkValue) :
    total φ ts = total (Expr.eval fun l => φ (.label l)) ts := by
  induction ts with
  | nil => rfl
  | cons t rest ih =>
    obtain ⟨u, c⟩ := t
    obtain ⟨⟨l, hl⟩, hrest⟩ := List.forall_mem_cons.1 h
    obtain rfl : u = .label l := hl
    rw [total_cons, total_cons, ih hrest]
    rfl

namespace Expr

/-- **Sums that have the same value under every assignment are read as the same sum.** -/
theorem linear_eq_of_eval {e f : Expr} (he : e.IsSum) (hf : f.IsSum)
    (h : ∀ env, e.eval env = f.eval env) : e.linear = f.linear := by
  have hsum : ∀ φ, e.linear.constant + Linear.total φ e.linear.terms =
      f.linear.constant + Linear.total φ f.linear.terms := by
    intro φ
    rw [Linear.total_of_labels (Linear.isSum_linear he.isSome_net?).labels,
      Linear.total_of_labels (Linear.isSum_linear hf.isSome_net?).labels]
    show e.linear.eval _ = f.linear.eval _
    rw [eval_linear, eval_linear]
    exact h _
  -- with all labels zero only the constants are left
  have hconstant : e.linear.constant = f.linear.constant := by
    simpa [Linear.total] using hsum 0
  refine Linear.eq_of_weigh (Linear.normal_linear e) (Linear.normal_linear f) fun κ φ => ?_
  have hterms : Linear.total φ e.linear.terms = Linear.total φ f.linear.terms :=
    add_left_cancel (hconstant ▸ hsum φ)
  rw [Linear.weigh, Linear.weigh, hconstant, hterms]

/-- The normal form of a normal form is the normal form. -/
theorem reduce_reduce (e : Expr) : e.reduce.reduce = e.reduce := by
  rw [reduce, linear_reduce, reduce]

theorem reduce_eq_iff {e f : Expr} (he : e.IsSum) (hf : f.IsSum) :
    e.reduce = f.reduce ↔ ∀ env, e.eval env = f.eval env := by
  constructor
  · intro h env
    rw [← eval_reduce env e, h, eval_reduce]
  · intro h
    rw [reduce, linear_eq_of_eval he hf h, ← reduce]

/-- A sum reduces to a constant exactly when its value is the same under all assignments. -/
theorem exists_reduce_eq_const_iff {e : Expr} (he : e.IsSum) :
    (∃ v, e.reduce = const v) ↔ ∀ env env', e.eval env = e.eval env' := by
  constructor
  · rintro ⟨v, hv⟩ env env'
    rw [← eval_reduce env, ← eval_reduce env', hv]
    rfl
  · intro h
    -- the value under one assignment is a constant with the same values
    exact ⟨e.eval 0, (reduce_eq_iff he (.const _)).2 fun env => h env 0⟩

/-- **Reducing gives a normal form.**  It keeps the value under every assignment of words to labels,
and reducing once more changes nothing.  Of two expressions that only add and take away, the normal
forms are the same exactly when the values are the same under every assignment; and the normal form
is a constant exactly when the value is the same under all assignments. -/
theorem reduce_normalForm (e : Expr) :
    (∀ env, e.reduce.eval env = e.eval env) ∧
    e.reduce.reduce = e.reduce ∧
    (e.IsSum →
      (∀ f : Expr, f.IsSum → (e.reduce = f.reduce ↔ ∀ env, e.eval env = f.eval env)) ∧
      ((∃ v, e.reduce = const v) ↔ ∀ env env', e.eval env = e.eval env')) :=
  ⟨fun env => eval_reduce env e, reduce_reduce e,
    fun he => ⟨fun _ hf => reduce_eq_iff he hf, exists_reduce_eq_const_iff he⟩⟩

-- bitwise operations have no such normal form
example : (label "a" ||| label "a").reduce ≠ (label "a").reduce := by decide +kernel

/-- Labels in another order: the same normal form, which is no constant. -/
theorem reduce_normalForm_reordered :
    (∀ env, (label "a" - label "b" + const 3).eval env =
      (const 3 - label "b" + label "a").eval env) ∧
    ¬ ∀ env env', (label "a" - label "b" + const 3).eval env =
      (label "a" - label "b" + const 3).eval env' := by
  have he : (label "a" - label "b" + const 3).IsSum := .add (.sub (.label _) (.label _)) (.const _)
  have hf : (const 3 - label "b" + label "a").IsSum := .add (.sub (.const _) (.label _)) (.label _)
  obtain ⟨hsame, hconst⟩ := (reduce_normalForm (label "a" - label "b" + const 3)).2.2 he
  refine ⟨(hsame _ hf).1 (by decide +kernel), fun h => ?_⟩
  obtain ⟨v, hv⟩ := hconst.2 h
  have hnone : (label "a" - label "b" + const 3).reduce.constant? = none := by decide +kernel
  rw [hv] at hnone
  exact nomatch hnone

end Expr

end PortableImage
