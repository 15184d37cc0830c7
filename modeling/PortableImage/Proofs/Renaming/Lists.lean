import Mathlib.Data.List.Forall2
import PortableImage.Image.Update
import PortableImage.Sorting

/-!
# Related lists

Two lists whose elements are related one by one stay so when the same is done to both.

* `rel_updateFirst`, `rel_set`, `rel_modify`, `rel_zip`, `rel_sortBy` — what changes a list.
* `rel_getElem?`, `any_renamed` — what reads elements.
-/

set_option autoImplicit false

namespace PortableImage

variable {α β γ δ : Type} {R : α → β → Prop} {l : List α} {l' : List β}

/-- The first match is changed in both lists. -/
theorem rel_updateFirst {S : γ → δ → Prop} {p : α → Bool} {q : β → Bool}
    (hpq : ∀ a b, R a b → p a = q b) {new : α} {new' : β} (hnew : R new new')
    {change : α → α × γ} {change' : β → β × δ}
    (hchange : ∀ a b, R a b → R (change a).1 (change' b).1 ∧ S (change a).2 (change' b).2)
    (h : List.Forall₂ R l l') :
    List.Forall₂ R (updateFirst p new change l).1 (updateFirst q new' change' l').1 ∧
      S (updateFirst p new change l).2 (updateFirst q new' change' l').2 := by
  induction h with
  | nil =>
    obtain ⟨hfirst, hresult⟩ := hchange new new' hnew
    exact ⟨.cons hfirst .nil, hresult⟩
  | @cons a b rest rest' hab hrest ih =>
    rw [updateFirst, updateFirst, hpq a b hab]
    split
    · obtain ⟨hfirst, hresult⟩ := hchange a b hab
      exact ⟨.cons hfirst hrest, hresult⟩
    · exact ⟨.cons hab ih.1, ih.2⟩

theorem rel_getElem? (h : List.Forall₂ R l l') (i : Nat) : Option.Rel R l[i]? l'[i]? := by
  induction h generalizing i with
  | nil => exact .none
  | cons hab _ ih =>
    cases i with
    | zero => exact .some hab
    | succ i => exact ih i

theorem any_renamed {p : α → Bool} {q : β → Bool} (hpq : ∀ a b, R a b → p a = q b)
    (h : List.Forall₂ R l l') : l.any p = l'.any q := by
  induction h with
  | nil => rfl
  | cons hab _ ih => rw [List.any_cons, List.any_cons, hpq _ _ hab, ih]

theorem rel_modify (h : List.Forall₂ R l l') (i : Nat) {f : α → α} {g : β → β}
    (hfg : ∀ a b, R a b → R (f a) (g b)) :
    List.Forall₂ R (l.modify i f) (l'.modify i g) := by
  induction h generalizing i with
  | nil =>
    rw [List.modify_nil, List.modify_nil]
    exact .nil
  | cons hab hrest ih =>
    cases i with
    | zero => exact .cons (hfg _ _ hab) hrest
    | succ i => exact .cons hab (ih i)

theorem rel_set (h : List.Forall₂ R l l') (i : Nat) {a : α} {b : β} (hab : R a b) :
    List.Forall₂ R (l.set i a) (l'.set i b) := by
  rw [List.set_eq_modify, List.set_eq_modify]
  exact rel_modify h i fun _ _ _ => hab

theorem rel_zip {S : γ → δ → Prop} {m : List γ} {m' : List δ} (h : List.Forall₂ R l l')
    (hm : List.Forall₂ S m m') :
    List.Forall₂ (fun x y => R x.1 y.1 ∧ S x.2 y.2) (l.zip m) (l'.zip m') := by
  induction h generalizing m m' with
  | nil =>
    rw [List.zip_nil_left, List.zip_nil_left]
    exact .nil
  | cons hab _ ih =>
    cases hm with
    | nil => exact .nil
    | cons hcd hrest => exact .cons ⟨hab, hcd⟩ (ih hrest)

theorem rel_sortBy {le : α → α → Bool} {le' : β → β → Bool}
    (hle : ∀ a b c d, R a b → R c d → le a c = le' b d) (h : List.Forall₂ R l l') :
    List.Forall₂ R (sortBy le l) (sortBy le' l') := by
  have hinsert : ∀ {m : List α} {m' : List β} {a : α} {b : β}, R a b → List.Forall₂ R m m' →
      List.Forall₂ R (insertSorted le a m) (insertSorted le' b m') := by
    intro m m' a b hab hm
    induction hm with
    | nil => exact .cons hab .nil
    | @cons c d rest rest' hcd hrest ih =>
      rw [insertSorted, insertSorted, hle a b c d hab hcd]
      split
      · exact .cons hab (.cons hcd hrest)
      · exact .cons hcd ih
  induction h with
  | nil => exact .nil
  | cons hab _ ih => exact hinsert hab ih

end PortableImage
