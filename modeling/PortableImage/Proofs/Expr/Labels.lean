import PortableImage.Proofs.Expr.Constant
import PortableImage.Proofs.Expr.Sum

/-!
# Labels in the way of a value

An expression that a binding does not make a constant has labels left in its normal form, and these
are what `Expr.resolve` reports.  Each of them is a label of the expression without a value.

* `Linear.LabelsIn` — all labels of a sum have a property; `labelsIn_linear` says that reading an
  expression as a sum brings no labels.
* `Expr.mem_labelLeaves_bind` — the labels of an expression that have no value.
* `Expr.exists_resolve` — what is reported in place of a value.
-/

set_option autoImplicit false

namespace PortableImage

/-- What is listed once each has no duplicates. -/
theorem nodup_eraseDups {α : Type} [BEq α] [LawfulBEq α] : ∀ l : List α, l.eraseDups.Nodup
  | [] => List.nodup_nil
  | x :: rest => by
    rw [List.eraseDups_cons, List.nodup_cons, List.mem_eraseDups]
    exact ⟨by simp, nodup_eraseDups _⟩
termination_by l => l.length
decreasing_by exact Nat.lt_succ_of_le (List.length_filter_le _ _)

namespace Linear

/-- All labels of the terms have the property. -/
def LabelsIn (P : String → Prop) (a : Linear) : Prop := ∀ t ∈ a.terms, ∀ l ∈ t.1.labelLeaves, P l

variable {P Q : String → Prop} {a b : Linear}

theorem LabelsIn.mono (h : a.LabelsIn P) (hPQ : ∀ l, P l → Q l) : a.LabelsIn Q :=
  fun t ht l hl => hPQ l (h t ht l hl)

theorem LabelsIn.toExpr (h : a.LabelsIn P) : ∀ l ∈ a.toExpr.labelLeaves, P l := by
  intro l hl
  obtain ⟨t, ht, hl⟩ := Expr.mem_labelLeaves_toExpr hl
  exact h t ht l hl

theorem labelsIn_ofConst (v : LinkValue) : (ofConst v).LabelsIn P := fun _ h => nomatch h

theorem labelsIn_ofTerm {t : Expr} (h : ∀ l ∈ t.labelLeaves, P l) : (ofTerm t).LabelsIn P := by
  intro u hu
  rw [List.mem_singleton.1 hu]
  exact h

theorem LabelsIn.combine (ha : a.LabelsIn P) (hb : b.LabelsIn P) (sign : LinkValue) :
    (a.combine b sign).LabelsIn P := by
  intro t ht l hl
  rcases mem_combine ht with ⟨u, hu, heq⟩ | ⟨u, hu, heq⟩
  · exact ha u hu l (heq ▸ hl)
  · exact hb u hu l (heq ▸ hl)

/-- The labels of a bitwise operation are those of its operands. -/
theorem LabelsIn.binary (ha : a.LabelsIn P) (hb : b.LabelsIn P) (op : Op) :
    (ofTerm (.binary op a.toExpr b.toExpr)).LabelsIn P :=
  labelsIn_ofTerm fun l hl => (List.mem_append.1 hl).elim (ha.toExpr l) (hb.toExpr l)

theorem LabelsIn.or (ha : a.LabelsIn P) (hb : b.LabelsIn P) : (a.or b).LabelsIn P := by
  rw [Linear.or]
  split
  · exact labelsIn_ofConst _
  · split
    · exact hb
    · exact ha.binary hb .or
  · split
    · exact ha
    · exact ha.binary hb .or
  · exact ha.binary hb .or

theorem LabelsIn.and (ha : a.LabelsIn P) (hb : b.LabelsIn P) : (a.and b).LabelsIn P := by
  rw [Linear.and]
  split
  · exact labelsIn_ofConst _
  · split
    · exact labelsIn_ofConst _
    · exact ha.binary hb .and
  · split
    · exact labelsIn_ofConst _
    · exact ha.binary hb .and
  · exact ha.binary hb .and

/-- Reading an expression as a sum brings no labels. -/
theorem labelsIn_linear (e : Expr) : e.linear.LabelsIn (· ∈ e.labelLeaves) := by
  induction e with
  | const v => exact labelsIn_ofConst v
  | label name => exact labelsIn_ofTerm fun _ hl => hl
  | binary op lhs rhs ihl ihr =>
    have hl := ihl.mono fun _ => List.mem_append_left rhs.labelLeaves
    have hr := ihr.mono fun _ => List.mem_append_right lhs.labelLeaves
    cases op with
    | add => exact hl.combine hr 1
    | sub => exact hl.combine hr (-1)
    | or => exact hl.or hr
    | and => exact hl.and hr

end Linear

namespace Expr

/-- The labels of a normal form are labels of the expression. -/
theorem mem_labelLeaves_reduce {e : Expr} {l : String} (h : l ∈ e.reduce.labelLeaves) :
    l ∈ e.labelLeaves :=
  (Linear.labelsIn_linear e).toExpr l h

/-- What has no labels reduces to a constant. -/
theorem labels_reduce_ne_nil {e : Expr} (h : e.reduce.constant? = none) : e.reduce.labels ≠ [] := by
  intro hnil
  have hclosed : ∀ l, l ∉ e.reduce.labelLeaves := fun l hl => by
    rw [← mem_labels, hnil] at hl
    exact nomatch hl
  have hvalue := constantUnder_of_known Binding.constant_empty fun l hl => absurd hl (hclosed l)
  rw [constantUnder_of_unknown (b := .empty) fun l hl => absurd hl (hclosed l), constant?_reduce,
    linear_reduce, ← constant?_reduce, h] at hvalue
  exact nomatch hvalue

/-- Putting expressions in place of labels leaves the labels of these. -/
theorem mem_labelLeaves_subst {σ : String → Option Expr} {e : Expr} {l : String} :
    l ∈ (e.subst σ).labelLeaves ↔
      ∃ m ∈ e.labelLeaves, l ∈ ((σ m).getD (label m)).labelLeaves := by
  induction e with
  | const v => exact ⟨fun h => (nomatch h), fun ⟨_, h, _⟩ => nomatch h⟩
  | label name => simp [subst, labelLeaves]
  | binary op lhs rhs ihl ihr =>
    simp only [subst, labelLeaves, List.mem_append, ihl, ihr]
    constructor
    · rintro (⟨m, hm, hl⟩ | ⟨m, hm, hl⟩)
      · exact ⟨m, .inl hm, hl⟩
      · exact ⟨m, .inr hm, hl⟩
    · rintro ⟨m, hm | hm, hl⟩
      · exact .inl ⟨m, hm, hl⟩
      · exact .inr ⟨m, hm, hl⟩

/-- Constants in place of bound labels leave the labels without a value. -/
theorem mem_labelLeaves_bind {b : Binding} (hb : b.Constant) {e : Expr} {l : String} :
    l ∈ (e.bind b).labelLeaves ↔ l ∈ e.labelLeaves ∧ b.get? l = none := by
  rw [bind, mem_labelLeaves_subst]
  constructor
  · rintro ⟨m, hm, hl⟩
    cases hvalue : b.get? m with
    | none =>
      rw [hvalue] at hl
      obtain rfl := List.mem_singleton.1 hl
      exact ⟨hm, hvalue⟩
    | some value =>
      obtain ⟨v, rfl⟩ := hb m value hvalue
      rw [hvalue] at hl
      cases hl
  · rintro ⟨hl, hnone⟩
    refine ⟨l, hl, ?_⟩
    rw [hnone]
    exact List.mem_singleton.2 rfl

theorem nodup_labels (e : Expr) : e.labels.Nodup := nodup_eraseDups _

/-- **What is reported in place of a value**: labels of the expression that have no value, each once,
and at least one. -/
theorem exists_resolve {b : Binding} (hb : b.Constant) {e : Expr} (h : e.constantUnder b = none) :
    ∃ rest, e.resolve b = .error (.unresolvedSymbol rest) ∧ rest ≠ [] ∧ rest.Nodup ∧
      ∀ l ∈ rest, l ∈ e.labels ∧ b.get? l = none := by
  refine ⟨(e.bind b).reduce.labels, ?_, labels_reduce_ne_nil h, nodup_labels _, fun l hl => ?_⟩
  · rw [constantUnder] at h
    rw [resolve, h]
  · obtain ⟨hl, hnone⟩ := (mem_labelLeaves_bind hb).1 (mem_labelLeaves_reduce (mem_labels.1 hl))
    exact ⟨mem_labels.2 hl, hnone⟩

end Expr

end PortableImage
