import PortableImage.Proofs.Expr.Value

/-!
# The normal form respects replacing labels

Labels get their values step by step, and between the steps expressions are reduced.  It makes no
difference when that happens: replacing labels in a normal form gives the same sum as replacing them
in the expression.

* `Linear.Normal` — the terms are in order and no coefficient is zero; every expression is read as
  such a sum.
* `Linear.Normal.ext` — such a sum is known by what the additive functions make of it.
* `Expr.linear_subst_reduce` — reducing before labels are replaced changes nothing.
-/

set_option autoImplicit false

namespace PortableImage

namespace Linear

/-! ## Terms in order -/

/-- The terms are ascending, and no coefficient is zero. -/
structure Normal (ts : List (Expr × LinkValue)) : Prop where
  nonzero : ∀ t ∈ ts, t.2 ≠ 0
  ascending : ts.Pairwise fun t u => t.1.cmp u.1 = .lt

theorem normal_nil : Normal [] := ⟨fun _ h => (nomatch h), .nil⟩

theorem normal_cons {t : Expr × LinkValue} {ts : List (Expr × LinkValue)} :
    Normal (t :: ts) ↔ t.2 ≠ 0 ∧ (∀ u ∈ ts, t.1.cmp u.1 = .lt) ∧ Normal ts := by
  constructor
  · intro h
    obtain ⟨hless, hrest⟩ := List.pairwise_cons.1 h.ascending
    exact ⟨h.nonzero t List.mem_cons_self, hless,
      fun u hu => h.nonzero u (List.mem_cons_of_mem _ hu), hrest⟩
  · rintro ⟨hnonzero, hless, h⟩
    exact ⟨List.forall_mem_cons.2 ⟨hnonzero, h.nonzero⟩, List.pairwise_cons.2 ⟨hless, h.ascending⟩⟩

theorem normal_ofTerm (t : Expr) : Normal (ofTerm t).terms :=
  normal_cons.2 ⟨(by decide : (1 : LinkValue) ≠ 0), fun _ h => (nomatch h), normal_nil⟩

/-- A list of terms with one more has no terms but this one and those before. -/
theorem mem_addTerm {t : Expr} {c : LinkValue} {ts : List (Expr × LinkValue)}
    {u : Expr × LinkValue} (hu : u ∈ addTerm t c ts) : u.1 = t ∨ ∃ v ∈ ts, v.1 = u.1 := by
  induction ts with
  | nil => exact .inl (by rw [List.mem_singleton.1 hu])
  | cons head rest ih =>
    obtain ⟨v, d⟩ := head
    rw [addTerm] at hu
    split at hu
    · rcases List.mem_cons.1 hu with rfl | hu
      · exact .inl rfl
      · exact .inr ⟨u, hu, rfl⟩
    · split at hu
      · exact .inr ⟨u, List.mem_cons_of_mem _ hu, rfl⟩
      · rcases List.mem_cons.1 hu with rfl | hu
        · exact .inr ⟨_, List.mem_cons_self, rfl⟩
        · exact .inr ⟨u, List.mem_cons_of_mem _ hu, rfl⟩
    · rcases List.mem_cons.1 hu with rfl | hu
      · exact .inr ⟨_, List.mem_cons_self, rfl⟩
      · obtain heq | ⟨w, hw, heq⟩ := ih hu
        · exact .inl heq
        · exact .inr ⟨w, List.mem_cons_of_mem _ hw, heq⟩

theorem Normal.addTerm {ts : List (Expr × LinkValue)} (h : Normal ts) (t : Expr) {c : LinkValue}
    (hc : c ≠ 0) : Normal (addTerm t c ts) := by
  induction ts with
  | nil => exact normal_cons.2 ⟨hc, fun _ hu => (nomatch hu), h⟩
  | cons head rest ih =>
    obtain ⟨u, d⟩ := head
    obtain ⟨hd, hless, hrest⟩ := normal_cons.1 h
    rw [Linear.addTerm]
    split
    · next hlt =>
      refine normal_cons.2 ⟨hc, List.forall_mem_cons.2 ⟨hlt, fun v hv => ?_⟩, h⟩
      exact Expr.lt_trans hlt (hless v hv)
    · split
      · exact hrest
      · next hsum => exact normal_cons.2 ⟨hsum, hless, hrest⟩
    · next hgt =>
      refine normal_cons.2 ⟨hd, fun v hv => ?_, ih hrest⟩
      rcases mem_addTerm hv with heq | ⟨w, hw, heq⟩
      · rw [heq]
        exact Std.OrientedCmp.gt_iff_lt.1 hgt
      · rw [← heq]
        exact hless w hw

theorem Normal.combine {a b : Linear} {sign : LinkValue} (hsign : sign * sign = 1)
    (ha : Normal a.terms) (hb : Normal b.terms) : Normal (a.combine b sign).terms := by
  show Normal (b.terms.foldl (fun ts t => Linear.addTerm t.1 (t.2 * sign) ts) a.terms)
  generalize a.terms = ts at ha
  generalize b.terms = us at hb
  induction us generalizing ts with
  | nil => exact ha
  | cons u us ih =>
    obtain ⟨hnonzero, -, hrest⟩ := normal_cons.1 hb
    have hne : u.2 * sign ≠ 0 := fun h => hnonzero (by
      rw [← mul_one u.2, ← hsign, ← mul_assoc, h, zero_mul])
    exact ih _ (ha.addTerm u.1 hne) hrest

/-- The terms of two sums together are terms of one of them. -/
theorem mem_combine {a b : Linear} {sign : LinkValue} {t : Expr × LinkValue}
    (ht : t ∈ (a.combine b sign).terms) :
    (∃ u ∈ a.terms, u.1 = t.1) ∨ ∃ u ∈ b.terms, u.1 = t.1 := by
  change t ∈ b.terms.foldl (fun ts t => Linear.addTerm t.1 (t.2 * sign) ts) a.terms at ht
  generalize a.terms = ts at ht
  generalize b.terms = us at ht
  induction us generalizing ts with
  | nil => exact .inl ⟨t, ht, rfl⟩
  | cons u us ih =>
    rcases ih _ ht with ⟨v, hv, heq⟩ | ⟨v, hv, heq⟩
    · rcases mem_addTerm hv with hvu | ⟨w, hw, hwv⟩
      · exact .inr ⟨u, List.mem_cons_self, hvu.symm.trans heq⟩
      · exact .inl ⟨w, hw, hwv.trans heq⟩
    · exact .inr ⟨v, List.mem_cons_of_mem _ hv, heq⟩

theorem Normal.or {a b : Linear} (ha : Normal a.terms) (hb : Normal b.terms) :
    Normal (a.or b).terms := by
  rw [Linear.or]
  split
  · exact normal_nil
  · split
    · exact hb
    · exact normal_ofTerm _
  · split
    · exact ha
    · exact normal_ofTerm _
  · exact normal_ofTerm _

theorem normal_and (a b : Linear) : Normal (a.and b).terms := by
  rw [Linear.and]
  split
  · exact normal_nil
  · split
    · exact normal_nil
    · exact normal_ofTerm _
  · split
    · exact normal_nil
    · exact normal_ofTerm _
  · exact normal_ofTerm _

/-- **Every expression is read as a sum with its terms in order.** -/
theorem normal_linear (e : Expr) : Normal e.linear.terms := by
  induction e with
  | const v => exact normal_nil
  | label l => exact normal_ofTerm _
  | binary op lhs rhs ihl ihr =>
    cases op with
    | add => exact ihl.combine (by decide) ihr
    | sub => exact ihl.combine (by decide) ihr
    | or => exact ihl.or ihr
    | and => exact normal_and _ _

/-! ## A sum is known by its additive functions -/

/-- The function that picks the coefficient of one term. -/
def pick (t u : Expr) : LinkValue := if u = t then 1 else 0

theorem total_pick_eq_zero {t : Expr} {ts : List (Expr × LinkValue)} (h : ∀ u ∈ ts, u.1 ≠ t) :
    total (pick t) ts = 0 := by
  induction ts with
  | nil => rfl
  | cons u rest ih =>
    obtain ⟨hu, hrest⟩ := List.forall_mem_cons.1 h
    rw [total_cons, ih hrest, pick, if_neg hu, mul_zero, zero_add]

/-- A term is there exactly when its coefficient is picked. -/
theorem Normal.mem_iff {ts : List (Expr × LinkValue)} (h : Normal ts) {t : Expr} {c : LinkValue} :
    (t, c) ∈ ts ↔ c ≠ 0 ∧ total (pick t) ts = c := by
  induction ts with
  | nil => exact ⟨fun h => (nomatch h), fun ⟨hne, heq⟩ => absurd heq.symm hne⟩
  | cons u rest ih =>
    obtain ⟨u, d⟩ := u
    obtain ⟨hd, hless, hrest⟩ := normal_cons.1 h
    by_cases hut : u = t
    · subst hut
      have hother : ∀ v ∈ rest, v.1 ≠ u := fun v hv heq => by
        have hlt := hless v hv
        rw [heq, Expr.cmp_self] at hlt
        exact nomatch hlt
      have hnotin : (u, c) ∉ rest := fun hin => hother _ hin rfl
      rw [total_cons, total_pick_eq_zero hother, pick, if_pos rfl, mul_one, add_zero,
        List.mem_cons, or_iff_left hnotin, Prod.mk.injEq]
      constructor
      · rintro ⟨-, rfl⟩
        exact ⟨hd, rfl⟩
      · rintro ⟨-, rfl⟩
        exact ⟨rfl, rfl⟩
    · have hne : (t, c) ≠ (u, d) := fun heq => hut (Prod.mk.inj heq).1.symm
      rw [List.mem_cons, or_iff_right hne, ih hrest, total_cons, pick, if_neg hut, mul_zero, zero_add]

/-- Terms in order, of which all additive functions make the same, are the same. -/
theorem Normal.ext {ts us : List (Expr × LinkValue)} (ht : Normal ts) (hu : Normal us)
    (h : ∀ φ, total φ ts = total φ us) : ts = us := by
  have hmem : ∀ t : Expr × LinkValue, t ∈ ts ↔ t ∈ us := fun t => by
    rw [ht.mem_iff, hu.mem_iff, h]
  have hnodup : ∀ {vs : List (Expr × LinkValue)}, Normal vs → vs.Nodup := fun hv =>
    hv.ascending.imp fun {a b} hlt heq => by
      rw [heq, Expr.cmp_self] at hlt
      exact nomatch hlt
  have hperm : ts.Perm us := (List.perm_ext_iff_of_nodup (hnodup ht) (hnodup hu)).2 hmem
  refine hperm.eq_of_pairwise (fun a b _ _ hab hba => ?_) ht.ascending hu.ascending
  have hself := Expr.lt_trans hab hba
  rw [Expr.cmp_self] at hself
  exact nomatch hself

/-! ## Additive functions after labels are replaced -/

/-- An additive function of a sum: the constant counts as often as `κ` says. -/
def weigh (κ : LinkValue) (φ : Expr → LinkValue) (a : Linear) : LinkValue :=
  κ * a.constant + total φ a.terms

theorem weigh_combine (κ : LinkValue) (φ : Expr → LinkValue) (a b : Linear) (sign : LinkValue) :
    weigh κ φ (a.combine b sign) = weigh κ φ a + weigh κ φ b * sign := by
  rw [weigh, combine, total_foldl_addTerm, weigh, weigh]
  ring

theorem eq_of_weigh {a b : Linear} (ha : Normal a.terms) (hb : Normal b.terms)
    (h : ∀ κ φ, weigh κ φ a = weigh κ φ b) : a = b := by
  have hterms : a.terms = b.terms := ha.ext hb fun φ => by
    simpa [weigh] using h 0 φ
  have hconstant : a.constant = b.constant := by
    simpa [weigh, total] using h 1 0
  cases a
  cases b
  congr

theorem constant?_eq_some {a : Linear} {v : LinkValue} : a.constant? = some v ↔ a = ofConst v := by
  obtain ⟨terms, c⟩ := a
  cases terms with
  | nil => simp [constant?, ofConst]
  | cons => simp [constant?, ofConst]

theorem or_ofConst_zero (a : Linear) : (ofConst 0).or a = a := by
  rw [or, show (ofConst 0).constant? = some 0 from rfl]
  cases h : a.constant? with
  | none => simp
  | some w =>
    rw [constant?_eq_some.1 h]
    simp [ofConst]

theorem ofConst_zero_or (a : Linear) : a.or (ofConst 0) = a := by
  rw [or, show (ofConst 0).constant? = some 0 from rfl]
  cases h : a.constant? with
  | none => simp
  | some w =>
    rw [constant?_eq_some.1 h]
    simp [ofConst]

theorem and_ofConst_zero (a : Linear) : (ofConst 0).and a = ofConst 0 := by
  rw [and, show (ofConst 0).constant? = some 0 from rfl]
  cases h : a.constant? with
  | none => simp
  | some w => simp

theorem ofConst_zero_and (a : Linear) : a.and (ofConst 0) = ofConst 0 := by
  rw [and, show (ofConst 0).constant? = some 0 from rfl]
  cases h : a.constant? with
  | none => simp
  | some w => simp

end Linear

namespace Expr

open Linear

/-- What an additive function makes of an expression after labels are replaced. -/
theorem additive_subst (κ : LinkValue) (φ : Expr → LinkValue) (σ : String → Option Expr) :
    Additive fun e => weigh κ φ (e.subst σ).linear where
  add a b := by
    show weigh κ φ ((a.subst σ).linear.combine (b.subst σ).linear 1) = _
    rw [weigh_combine, mul_one]
  sub a b := by
    show weigh κ φ ((a.subst σ).linear.combine (b.subst σ).linear (-1)) = _
    rw [weigh_combine, mul_neg_one, sub_eq_add_neg]
  zero := by
    show κ * 0 + 0 = 0
    rw [mul_zero, add_zero]

/-- The additive functions respect that the sums of two expressions are added up. -/
theorem weigh_toExpr_combine (κ : LinkValue) (φ : Expr → LinkValue) (σ : String → Option Expr)
    (a b : Linear) (sign : LinkValue) :
    weigh κ φ ((a.combine b sign).toExpr.subst σ).linear =
      weigh κ φ (a.toExpr.subst σ).linear + weigh κ φ (b.toExpr.subst σ).linear * sign := by
  have hadd := additive_subst κ φ σ
  rw [hadd.toExpr, hadd.toExpr, hadd.toExpr, combine, total_foldl_addTerm]
  show κ * (a.constant + b.constant * sign) + 0 + _ = κ * a.constant + 0 + _ +
    (κ * b.constant + 0 + _) * sign
  ring

variable (σ : String → Option Expr)

/-- An expression may be reduced before labels are replaced in it. -/
def ReducesFirst (e : Expr) : Prop := (e.reduce.subst σ).linear = (e.subst σ).linear

variable {σ} {lhs rhs : Expr} {v : LinkValue}

theorem ReducesFirst.linear_of_constant? (h : lhs.ReducesFirst σ)
    (hv : lhs.linear.constant? = some v) : (lhs.subst σ).linear = ofConst v := by
  rw [← h, reduce, Linear.constant?_eq_some.1 hv]
  rfl

theorem ReducesFirst.combine (hl : lhs.ReducesFirst σ) (hr : rhs.ReducesFirst σ) {sign : LinkValue}
    (hsign : sign * sign = 1) :
    ((lhs.linear.combine rhs.linear sign).toExpr.subst σ).linear =
      (lhs.subst σ).linear.combine (rhs.subst σ).linear sign := by
  refine eq_of_weigh (normal_linear _) (.combine hsign (normal_linear _) (normal_linear _))
    fun κ φ => ?_
  rw [weigh_toExpr_combine, weigh_combine, ← hl, ← hr]
  rfl

theorem ReducesFirst.or (hl : lhs.ReducesFirst σ) (hr : rhs.ReducesFirst σ) :
    ((Linear.or lhs.linear rhs.linear).toExpr.subst σ).linear =
      Linear.or (lhs.subst σ).linear (rhs.subst σ).linear := by
  have hboth : ((binary .or lhs.reduce rhs.reduce).subst σ).linear =
      Linear.or (lhs.subst σ).linear (rhs.subst σ).linear := by
    rw [← hl, ← hr]
    rfl
  rw [Linear.or]
  split
  · next v w hv hw =>
    rw [hl.linear_of_constant? hv, hr.linear_of_constant? hw]
    rfl
  · next v hv hw =>
    split
    · next hz =>
      rw [hl.linear_of_constant? hv, hz, or_ofConst_zero]
      exact hr
    · exact hboth
  · next w hv hw =>
    split
    · next hz =>
      rw [hr.linear_of_constant? hw, hz, ofConst_zero_or]
      exact hl
    · exact hboth
  · exact hboth

theorem ReducesFirst.and (hl : lhs.ReducesFirst σ) (hr : rhs.ReducesFirst σ) :
    ((Linear.and lhs.linear rhs.linear).toExpr.subst σ).linear =
      Linear.and (lhs.subst σ).linear (rhs.subst σ).linear := by
  have hboth : ((binary .and lhs.reduce rhs.reduce).subst σ).linear =
      Linear.and (lhs.subst σ).linear (rhs.subst σ).linear := by
    rw [← hl, ← hr]
    rfl
  rw [Linear.and]
  split
  · next v w hv hw =>
    rw [hl.linear_of_constant? hv, hr.linear_of_constant? hw]
    rfl
  · next v hv hw =>
    split
    · next hz =>
      rw [hl.linear_of_constant? hv, hz, and_ofConst_zero]
      rfl
    · exact hboth
  · next w hv hw =>
    split
    · next hz =>
      rw [hr.linear_of_constant? hw, hz, ofConst_zero_and]
      rfl
    · exact hboth
  · exact hboth

variable (σ)

/-- **Reducing before labels are replaced changes nothing.** -/
theorem linear_subst_reduce (e : Expr) : (e.reduce.subst σ).linear = (e.subst σ).linear := by
  induction e with
  | const v => rfl
  | label l => rfl
  | binary op lhs rhs ihl ihr =>
    cases op with
    | add => exact ReducesFirst.combine ihl ihr (by decide)
    | sub => exact ReducesFirst.combine ihl ihr (by decide)
    | or => exact ReducesFirst.or ihl ihr
    | and => exact ReducesFirst.and ihl ihr

/-- Labels may be replaced in an expression or in its normal form. -/
theorem reduce_subst_reduce (e : Expr) : (e.reduce.subst σ).reduce = (e.subst σ).reduce := by
  rw [reduce, linear_subst_reduce, reduce]

end Expr

end PortableImage
