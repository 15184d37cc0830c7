import Mathlib.Data.List.Forall2
import PortableImage.Directory.BaseReloc
import PortableImage.Proofs.Renaming.Expr

/-!
# Bindings under different names

* `Binding.Renamed` — labels that stand for each other have the same values, up to names.
* `Binding.Renamed.bindAll` — binding labels fails in both runs or in neither.
* `Expr.Renamed.constantUnder` — a value is the same constant in both runs, or in neither.
-/

set_option autoImplicit false

namespace PortableImage

/-- Labels that stand for each other have the same values, in the same order. -/
def Binding.Renamed (W : Renaming) (b b' : Binding) : Prop :=
  List.Forall₂ (fun e e' => W.Maps e.1 e'.1 ∧ e.2.Renamed W e'.2) b.entries b'.entries

namespace Binding

variable {W V : Renaming} {b b' c c' : Binding}

theorem Renamed.mono (h : b.Renamed W b') (hle : W ≤ V) : b.Renamed V b' :=
  h.imp fun _ _ he => ⟨he.1.mono hle, he.2.mono hle⟩

theorem renamed_empty (W : Renaming) : empty.Renamed W empty := .nil

theorem rel_lookup {l l' : String} (hl : W.Maps l l') {pairs pairs' : List (String × Expr)}
    (h : List.Forall₂ (fun e e' => W.Maps e.1 e'.1 ∧ e.2.Renamed W e'.2) pairs pairs') :
    Option.Rel (Expr.Renamed W) (pairs.lookup l) (pairs'.lookup l') := by
  induction h with
  | nil => exact .none
  | @cons e e' rest rest' he _ ih =>
    obtain ⟨name, value⟩ := e
    obtain ⟨name', value'⟩ := e'
    rw [List.lookup_cons, List.lookup_cons, hl.beq_eq he.1]
    cases l' == name' with
    | true => exact .some he.2
    | false => exact ih

/-- Labels that stand for each other both have a value, or neither has. -/
theorem Renamed.get? (h : b.Renamed W b') {l l' : String} (hl : W.Maps l l') :
    Option.Rel (Expr.Renamed W) (b.get? l) (b'.get? l') := rel_lookup hl h

theorem Renamed.bind (h : b.Renamed W b') {l l' : String} (hl : W.Maps l l') {e e' : Expr}
    (he : e.Renamed W e') :
    Runs (Binding.Renamed W) (b.bind l e) (b'.bind l' e') := by
  have hrel := h.get? hl
  rw [Binding.bind, Binding.bind]
  generalize b.get? l = value at hrel ⊢
  generalize b'.get? l' = value' at hrel ⊢
  cases hrel with
  | none => exact List.rel_append h (.cons ⟨hl, he⟩ .nil)
  | some => exact trivial

/-- **Binding labels fails in both runs or in neither.** -/
theorem Renamed.bindAll (h : b.Renamed W b') {pairs pairs' : List (String × Expr)}
    (hpairs : List.Forall₂ (fun e e' => W.Maps e.1 e'.1 ∧ e.2.Renamed W e'.2) pairs pairs') :
    Runs (Binding.Renamed W) (b.bindAll pairs) (b'.bindAll pairs') := by
  induction hpairs generalizing b b' with
  | nil => exact h
  | cons he _ ih =>
    rw [bindAll_cons, bindAll_cons]
    exact (h.bind he.1 he.2).bind fun _ _ hc => ih hc

theorem Renamed.merge (h : b.Renamed W b') (hc : c.Renamed W c') :
    Runs (Binding.Renamed W) (b.merge c) (b'.merge c') := h.bindAll hc

end Binding

/-! ## Values -/

namespace Expr

variable {W : Renaming} {e e' : Expr} {b b' : Binding}

theorem Renamed.bind (h : e.Renamed W e') (hb : b.Renamed W b') :
    (e.bind b).SameSum W (e'.bind b') := by
  refine h.sum.subst fun l l' hl => ?_
  have hrel := hb.get? hl
  generalize b.get? l = value at hrel ⊢
  generalize b'.get? l' = value' at hrel ⊢
  cases hrel with
  | none => exact .label hl
  | some hrel => exact hrel.sum

/-- **A value is the same constant in both runs, or in neither.** -/
theorem Renamed.constantUnder (h : e.Renamed W e') (hb : b.Renamed W b') :
    e.constantUnder b = e'.constantUnder b' := by
  rw [constantUnder_eq, constantUnder_eq, (h.bind hb).constant?_eq]

end Expr

/-- A value is an address in the image in both runs, or in neither. -/
theorem isImageAddress_renamed {W : Renaming} {start start' e e' : Expr} {b b' : Binding}
    (hstart : start.Renamed W start') (hb : b.Renamed W b') (he : e.Renamed W e') :
    isImageAddress start b e = isImageAddress start' b' e' := by
  rw [isImageAddress, isImageAddress, he.constantUnder hb, (he.sub hstart).constantUnder hb]

end PortableImage
