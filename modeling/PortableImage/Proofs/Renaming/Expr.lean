import PortableImage.Proofs.Expr.Constant
import PortableImage.Proofs.Renaming.Basic

/-!
# Values under different names

The names of labels decide how the normal form of an expression is written, for its terms are in the
order of names.  They do not decide which sum it is, and so not whether it is a constant.

* `Expr.SameSum` — two expressions are the same sum, up to names.
* `Expr.SameSum.constant?` — then they are the same constant, or neither is one.
* `Expr.Renamed` — besides, both are single labels, or constants, or neither.
* `Expr.rename`, `Expr.renamed_rename` — an expression with other names for its labels.
-/

set_option autoImplicit false

namespace PortableImage

namespace Expr

/-- Both expressions are the same sum, up to the names of labels and the order of terms. -/
inductive SameSum (W : Renaming) : Expr → Expr → Prop
  | const (v : LinkValue) : SameSum W (const v) (const v)
  | label {l l' : String} (h : W.Maps l l') : SameSum W (label l) (label l')
  | binary (op : Op) {a a' b b' : Expr} (ha : SameSum W a a') (hb : SameSum W b b') :
      SameSum W (binary op a b) (binary op a' b')
  | sum {e e' f f' : Expr} (he : e.linear = f.linear) (he' : e'.linear = f'.linear)
      (h : SameSum W f f') : SameSum W e e'

variable {W V : Renaming} {e e' : Expr}

theorem SameSum.mono (h : e.SameSum W e') (hle : W ≤ V) : e.SameSum V e' := by
  induction h with
  | const v => exact .const v
  | label h => exact .label (h.mono hle)
  | binary op _ _ iha ihb => exact .binary op iha ihb
  | sum he he' _ ih => exact .sum he he' ih

theorem SameSum.swap (h : e.SameSum W e') : e'.SameSum W.swap e := by
  induction h with
  | const v => exact .const v
  | label h => exact .label (Renaming.maps_swap.2 h)
  | binary op _ _ iha ihb => exact .binary op iha ihb
  | sum he he' _ ih => exact .sum he' he ih

/-- Labels may be replaced by the same sums. -/
theorem SameSum.subst {σ σ' : String → Option Expr} (h : e.SameSum W e')
    (hσ : ∀ l l', W.Maps l l' → ((σ l).getD (.label l)).SameSum W ((σ' l').getD (.label l'))) :
    (e.subst σ).SameSum W (e'.subst σ') := by
  induction h with
  | const v => exact .const v
  | label h => exact hσ _ _ h
  | binary op _ _ iha ihb => exact .binary op iha ihb
  | sum he he' _ ih => exact .sum (linear_subst_congr he σ) (linear_subst_congr he' σ') ih

/-- The expression with another name for every label. -/
def rename (ρ : String → String) (e : Expr) : Expr := e.subst fun l => some (.label (ρ l))

/-- The pairs give every label its other name. -/
theorem exists_rename (W : Renaming) : ∃ ρ : String → String, ∀ l l', W.Maps l l' → ρ l = l' := by
  refine ⟨fun l => (W.pairs.lookup l).getD l, fun l l' h => ?_⟩
  show (W.pairs.lookup l).getD l = l'
  cases hlookup : W.pairs.lookup l with
  | none =>
    have hne := List.lookup_eq_none_iff.1 hlookup (l, l') h
    exact absurd hne (by simp)
  | some m' =>
    obtain ⟨front, back, hpairs, -⟩ := List.lookup_eq_some_iff.1 hlookup
    have hm : W.Maps l m' := by
      rw [Renaming.Maps, hpairs]
      exact List.mem_append_right _ List.mem_cons_self
    exact (hm.eq_iff h).1 rfl

theorem SameSum.linear_rename (h : e.SameSum W e') {ρ : String → String}
    (hρ : ∀ l l', W.Maps l l' → ρ l = l') : (e.rename ρ).linear = e'.linear := by
  induction h with
  | const v => rfl
  | label h => rw [← hρ _ _ h]; rfl
  | binary op _ _ iha ihb =>
    rw [rename] at iha ihb ⊢
    rw [Expr.subst]
    cases op <;> rw [linear, linear, iha, ihb]
  | sum he he' _ ih => rw [rename, linear_subst_congr he, ← rename, ih, he']

theorem SameSum.linear_eq_ofConst (h : e.SameSum W e') {v : LinkValue}
    (hv : e.linear = .ofConst v) : e'.linear = .ofConst v := by
  obtain ⟨ρ, hρ⟩ := exists_rename W
  rw [← h.linear_rename hρ, rename, linear_subst_congr (f := Expr.const v) hv]
  rfl

/-- **Two expressions that are the same sum are the same constant, or neither is one.** -/
theorem SameSum.constant?_eq (h : e.SameSum W e') :
    e.linear.constant? = e'.linear.constant? := by
  cases hv : e.linear.constant? with
  | some v =>
    rw [h.linear_eq_ofConst (Linear.constant?_eq_some.1 hv)]
    rfl
  | none =>
    cases hv' : e'.linear.constant? with
    | none => rfl
    | some v =>
      rw [h.swap.linear_eq_ofConst (Linear.constant?_eq_some.1 hv')] at hv
      exact nomatch hv

/-- A sum of a single label is one under other names too. -/
theorem SameSum.linear_eq_label (h : e.SameSum W e') {l : String}
    (hl : e.linear = .ofTerm (Expr.label l)) :
    ∃ l', e'.linear = .ofTerm (Expr.label l') ∧ ∀ m, W.Maps l m → l' = m := by
  obtain ⟨ρ, hρ⟩ := exists_rename W
  refine ⟨ρ l, ?_, hρ l⟩
  rw [← h.linear_rename hρ, rename, linear_subst_congr (f := Expr.label l) hl]
  rfl

/-! ## Single labels and constants -/

/-- The normal form is a single label where the sum is one. -/
theorem label?_reduce_eq_some {l : String} :
    e.reduce.label? = some l ↔ e.linear = .ofTerm (Expr.label l) := by
  constructor
  · intro h
    rw [← linear_reduce]
    cases hreduce : e.reduce with
    | const | binary =>
      rw [hreduce] at h
      exact nomatch h
    | label m =>
      rw [hreduce] at h
      cases h
      rfl
  · intro h
    rw [reduce, h]
    rfl

theorem SameSum.label?_reduce (h : e.SameSum W e') :
    e.reduce.label?.isSome = e'.reduce.label?.isSome := by
  have hone : ∀ {V : Renaming} {f f' : Expr}, f.SameSum V f' → f.reduce.label?.isSome →
      f'.reduce.label?.isSome := fun hf hsome => by
    obtain ⟨l, hl⟩ := Option.isSome_iff_exists.1 hsome
    obtain ⟨l', hl', -⟩ := hf.linear_eq_label (label?_reduce_eq_some.1 hl)
    rw [label?_reduce_eq_some.2 hl']
    rfl
  exact Bool.eq_iff_iff.2 ⟨hone h, hone h.swap⟩

/-- The expressions are the same sum up to names, and both are single labels, or constants, or
neither. -/
structure Renamed (W : Renaming) (e e' : Expr) : Prop where
  sum : e.SameSum W e'
  constant : e.constant?.isSome = e'.constant?.isSome
  label : e.label?.isSome = e'.label?.isSome

theorem Renamed.mono (h : e.Renamed W e') (hle : W ≤ V) : e.Renamed V e' :=
  ⟨h.sum.mono hle, h.constant, h.label⟩

theorem renamed_const (W : Renaming) (v : LinkValue) : (const v).Renamed W (const v) :=
  ⟨.const v, rfl, rfl⟩

theorem renamed_ofSize (W : Renaming) (n : Nat) : (ofSize n).Renamed W (ofSize n) :=
  renamed_const W _

theorem renamed_label {l l' : String} (h : W.Maps l l') :
    (Expr.label l).Renamed W (Expr.label l') := ⟨.label h, rfl, rfl⟩

theorem Renamed.binary {a a' b b' : Expr} (op : Op) (ha : a.Renamed W a') (hb : b.Renamed W b') :
    (binary op a b).Renamed W (binary op a' b') := ⟨.binary op ha.sum hb.sum, rfl, rfl⟩

theorem Renamed.add {a a' b b' : Expr} (ha : a.Renamed W a') (hb : b.Renamed W b') :
    (a + b).Renamed W (a' + b') := ha.binary .add hb

theorem Renamed.sub {a a' b b' : Expr} (ha : a.Renamed W a') (hb : b.Renamed W b') :
    (a - b).Renamed W (a' - b') := ha.binary .sub hb

theorem Renamed.or {a a' b b' : Expr} (ha : a.Renamed W a') (hb : b.Renamed W b') :
    (a ||| b).Renamed W (a' ||| b') := ha.binary .or hb

theorem Renamed.reduce (h : e.Renamed W e') : e.reduce.Renamed W e'.reduce where
  sum := .sum (linear_reduce e) (linear_reduce e') h.sum
  constant := by rw [constant?_reduce, constant?_reduce, h.sum.constant?_eq]
  label := h.sum.label?_reduce

/-- An expression is the same under other names of its labels. -/
theorem renamed_rename {ρ : String → String} (h : ∀ l ∈ e.labelLeaves, W.Maps l (ρ l)) :
    e.Renamed W (e.rename ρ) := by
  induction e with
  | const v => exact renamed_const W v
  | label l => exact renamed_label (h l (List.mem_singleton.2 rfl))
  | binary op lhs rhs ihl ihr =>
    exact (ihl fun l hl => h l (List.mem_append_left _ hl)).binary op
      (ihr fun l hl => h l (List.mem_append_right _ hl))

/-- What does not depend on labels is the same. -/
theorem renamed_self (h : e.labelLeaves = []) : e.Renamed W e := by
  induction e with
  | const v => exact renamed_const W v
  | label l => exact nomatch h
  | binary op lhs rhs ihl ihr =>
    obtain ⟨hl, hr⟩ := List.append_eq_nil_iff.1 h
    exact (ihl hl).binary op (ihr hr)

/-- A single label is the one that stands for it. -/
theorem Renamed.beq_label (h : e.Renamed W e') {l l' : String} (hl : W.Maps l l') :
    (e == .label l) = (e' == .label l') := by
  have hone : ∀ {V : Renaming} {f f' : Expr} {m m' : String}, f.Renamed V f' → V.Maps m m' →
      f = .label m → f' = .label m' := by
    rintro V f f' m m' hf hm rfl
    have hsome := hf.label
    cases f' with
    | const | binary => exact nomatch hsome
    | label n =>
      obtain ⟨n', hn', hmaps⟩ := hf.sum.linear_eq_label rfl
      have hterm : Linear.ofTerm (Expr.label n) = Linear.ofTerm (Expr.label n') := hn'
      rw [← hmaps m' hm]
      injection hterm with hterms
      injection hterms with hpair
      exact (Prod.mk.inj hpair).1
  rw [Bool.eq_iff_iff, beq_iff_eq, beq_iff_eq]
  exact ⟨hone h hl, hone ⟨h.sum.swap, h.constant.symm, h.label.symm⟩ (Renaming.maps_swap.2 hl)⟩

end Expr

end PortableImage
