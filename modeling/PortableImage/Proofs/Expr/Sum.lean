import PortableImage.Proofs.Expr.Net
import PortableImage.Proofs.Expr.Normal

/-!
# Labels in the normal form of a sum

An expression that only adds and takes away labels and constants has a normal form whose terms are
labels, ascending, each with a coefficient that is not zero.  So the value depends on every label
that is left in the normal form, and no such label can be spared.

* `Linear.IsSum` — terms that are labels, in order; `isSum_linear` says that sums have them.
* `Expr.eval_update` — what another value of one label does to the value of a sum.
-/

set_option autoImplicit false

namespace PortableImage

namespace Linear

/-- The terms are labels, ascending, and no coefficient is zero. -/
structure IsSum (ts : List (Expr × LinkValue)) : Prop where
  labels : ∀ t ∈ ts, ∃ l, t.1 = .label l
  nonzero : ∀ t ∈ ts, t.2 ≠ 0
  ascending : ts.Pairwise fun t u => t.1.cmp u.1 = .lt

theorem isSum_cons {t : Expr × LinkValue} {ts : List (Expr × LinkValue)} (h : IsSum (t :: ts)) :
    ((∃ l, t.1 = .label l) ∧ t.2 ≠ 0 ∧ ∀ u ∈ ts, t.1.cmp u.1 = .lt) ∧ IsSum ts := by
  obtain ⟨hless, hrest⟩ := List.pairwise_cons.1 h.ascending
  exact ⟨⟨h.labels t List.mem_cons_self, h.nonzero t List.mem_cons_self, hless⟩,
    fun u hu => h.labels u (List.mem_cons_of_mem _ hu),
    fun u hu => h.nonzero u (List.mem_cons_of_mem _ hu), hrest⟩

/-- The terms of a sum or difference of sums of labels are labels. -/
theorem labels_combine {a b : Linear} {sign : LinkValue}
    (ha : ∀ t ∈ a.terms, ∃ l, t.1 = .label l) (hb : ∀ t ∈ b.terms, ∃ l, t.1 = .label l) :
    ∀ t ∈ (a.combine b sign).terms, ∃ l, t.1 = .label l := by
  intro t ht
  rcases mem_combine ht with ⟨u, hu, heq⟩ | ⟨u, hu, heq⟩
  · exact heq ▸ ha u hu
  · exact heq ▸ hb u hu

/-- **The terms of a sum of labels are labels, in order, with coefficients other than zero.** -/
theorem isSum_linear {e : Expr} (h : e.net?.isSome) : IsSum e.linear.terms := by
  have hnormal := normal_linear e
  refine ⟨?_, hnormal.nonzero, hnormal.ascending⟩
  clear hnormal
  obtain ⟨n, hn⟩ := Option.isSome_iff_exists.1 h
  clear h
  induction e generalizing n with
  | const v => exact fun _ h => nomatch h
  | label l => exact List.forall_mem_singleton.2 ⟨l, rfl⟩
  | binary op lhs rhs ihl ihr =>
    cases op with
    | add =>
      obtain ⟨i, j, hi, hj, -⟩ := Expr.net?_add.1 hn
      exact labels_combine (ihl i hi) (ihr j hj)
    | sub =>
      obtain ⟨i, j, hi, hj, -⟩ := Expr.net?_sub.1 hn
      exact labels_combine (ihl i hi) (ihr j hj)
    | or => exact nomatch hn
    | and => exact nomatch hn

/-! ## One label changes -/

/-- Where a label gets a value that is larger by `d`, the sum becomes larger by that as often as its
coefficient says. -/
theorem sum_update {ts : List (Expr × LinkValue)} (h : IsSum ts) {l : String} {c : LinkValue}
    (hmem : (Expr.label l, c) ∈ ts) (env : String → LinkValue) (d : LinkValue) :
    (ts.map (evalTerm (Function.update env l (env l + d)))).sum =
      (ts.map (evalTerm env)).sum + c * d := by
  -- a term with another label does not change
  have hother : ∀ us : List (Expr × LinkValue), IsSum us →
      (∀ u ∈ us, u.1 ≠ .label l) →
      us.map (evalTerm (Function.update env l (env l + d))) = us.map (evalTerm env) := by
    intro us hus hne
    refine List.map_congr_left fun u hu => ?_
    obtain ⟨m, hm⟩ := hus.labels u hu
    have hml : m ≠ l := fun heq => hne u hu (by rw [hm, heq])
    rw [evalTerm, evalTerm, hm, Expr.eval, Expr.eval, Function.update_of_ne hml]
  induction ts with
  | nil => cases hmem
  | cons t rest ih =>
    obtain ⟨⟨⟨m, hm⟩, -, hless⟩, hrest⟩ := isSum_cons h
    rw [List.map_cons, List.map_cons, List.sum_cons, List.sum_cons]
    by_cases hml : m = l
    · subst hml
      have hdiffers : ∀ u ∈ rest, u.1 ≠ .label m := fun u hu heq => by
        have hlt := hless u hu
        rw [hm, heq, Expr.cmp_self] at hlt
        cases hlt
      have hhead : t = (.label m, c) := by
        rcases List.mem_cons.1 hmem with heq | hin
        · exact heq.symm
        · exact absurd rfl (hdiffers _ hin)
      rw [hother rest hrest hdiffers, hhead, evalTerm, evalTerm, Expr.eval, Expr.eval,
        Function.update_self]
      ring
    · have hin : (Expr.label l, c) ∈ rest := by
        rcases List.mem_cons.1 hmem with heq | hin
        · rw [← heq] at hm
          exact absurd (Expr.label.inj hm).symm hml
        · exact hin
      rw [ih hrest hin, evalTerm, evalTerm, hm, Expr.eval, Expr.eval, Function.update_of_ne hml,
        add_assoc]

end Linear

namespace Expr

theorem mem_labelLeaves_foldl {f : Expr → Expr → Expr}
    (hf : ∀ a b, (f a b).labelLeaves = a.labelLeaves ++ b.labelLeaves) {l : List Expr} {e : Expr}
    {x : String} (h : x ∈ (l.foldl f e).labelLeaves) :
    x ∈ e.labelLeaves ∨ ∃ t ∈ l, x ∈ t.labelLeaves := by
  induction l generalizing e with
  | nil => exact .inl h
  | cons t rest ih =>
    rcases ih h with h | ⟨u, hu, h⟩
    · rw [hf, List.mem_append] at h
      exact h.imp_right fun h => ⟨t, List.mem_cons_self, h⟩
    · exact .inr ⟨u, List.mem_cons_of_mem _ hu, h⟩

/-- The labels of a normal form are labels of its terms. -/
theorem mem_labelLeaves_toExpr {a : Linear} {x : String} (h : x ∈ a.toExpr.labelLeaves) :
    ∃ t ∈ a.terms, x ∈ t.1.labelLeaves := by
  have hterm : ∀ (n : LinkValue → Nat) (u : Expr),
      u ∈ a.terms.flatMap (fun t => List.replicate (n t.2) t.1) → ∃ t ∈ a.terms, u = t.1 := by
    intro n u hu
    obtain ⟨t, ht, hu⟩ := List.mem_flatMap.1 hu
    exact ⟨t, ht, (List.mem_replicate.1 hu).2⟩
  have hadded : ∀ u ∈ a.added, ∃ t ∈ a.terms, u = t.1 := hterm fun c => c.toInt.toNat
  rcases mem_labelLeaves_foldl (fun _ _ => rfl) h with h | ⟨u, hu, h⟩
  · unfold Linear.toExprAdded at h
    split at h
    · exact nomatch h
    · next u us heq =>
      have hsum : x ∈ (us.foldl (· + ·) u).labelLeaves := by
        dsimp only at h
        split at h
        · exact h
        · exact (List.mem_append.1 h).resolve_right fun h => nomatch h
      rcases mem_labelLeaves_foldl (fun _ _ => rfl) hsum with h | ⟨v, hv, h⟩
      · obtain ⟨t, ht, rfl⟩ := hadded u (by rw [heq]; exact List.mem_cons_self)
        exact ⟨t, ht, h⟩
      · obtain ⟨t, ht, rfl⟩ := hadded v (by rw [heq]; exact List.mem_cons_of_mem _ hv)
        exact ⟨t, ht, h⟩
  · obtain ⟨t, ht, rfl⟩ := hterm (fun c => (-c.toInt).toNat) u hu
    exact ⟨t, ht, h⟩

/-- **The value of a sum depends on every label in its normal form.** -/
theorem eval_update {e : Expr} (hnet : e.net?.isSome) {l : String} (hl : l ∈ e.reduce.labels) :
    ∃ c ≠ 0, ∀ env d, e.eval (Function.update env l (env l + d)) = e.eval env + c * d := by
  have hsum := Linear.isSum_linear hnet
  obtain ⟨⟨u, c⟩, ht, hx⟩ := mem_labelLeaves_toExpr (mem_labels.1 hl)
  obtain ⟨m, hm⟩ := hsum.labels _ ht
  obtain rfl : u = .label m := hm
  obtain rfl : l = m := List.mem_singleton.1 hx
  refine ⟨c, hsum.nonzero _ ht, fun env d => ?_⟩
  rw [← eval_linear, ← eval_linear, Linear.eval, Linear.eval, Linear.sum_update hsum ht env d,
    add_assoc]

end Expr

end PortableImage
