import Mathlib.Data.List.Nodup
import Mathlib.Data.List.Perm.Subperm
import PortableImage.Context

/-!
# Labels in use

A pool never hands out a label twice, and never one that it knows.  What is written with its labels
can use each of them once.  This is counted: a step that uses a label once more than before has
noted it once more than before.

* `LabelPool.fresh_notMem` — a fresh label was not in use.
* `LabelPool.Notes` — what a step does to a pool: labels are noted, each of them once.
* `LabelPool.Pays` — what a step does to the labels that are used: they are noted first.
-/

set_option autoImplicit false

namespace PortableImage

/-! ## Fresh labels -/

namespace LabelPool

theorem numbered_injective (hint : String) : Function.Injective (numbered hint) := by
  intro m n h
  have hlists := congrArg String.toList h
  simp only [numbered, String.toList_append] at hlists
  have hdigits := congrArg (Nat.ofDigitChars 10 · 0) (List.append_cancel_left hlists)
  simpa [Nat.toString_eq_ofList_toDigits] using hdigits

/-- Where the search ends at a label in use, all the labels it tried are in use. -/
theorem mem_of_search_mem {known : List String} {hint : String} {tries counter : Nat}
    (h : numbered hint (search known hint tries counter) ∈ known) :
    ∀ i ≤ tries, numbered hint (counter + 1 + i) ∈ known := by
  induction tries generalizing counter with
  | zero =>
    intro i hi
    rw [Nat.le_zero.1 hi]
    exact h
  | succ tries ih =>
    rw [search] at h
    split at h
    · next hmem =>
      intro i hi
      cases i with
      | zero => exact hmem
      | succ i =>
        have hnext := ih h i (Nat.le_of_succ_le_succ hi)
        rwa [Nat.add_right_comm] at hnext
    · next hmem => exact absurd h hmem

/-- The search finds a free number: it tries one more than there are labels in use. -/
theorem numbered_search_notMem (known : List String) (hint : String) (counter : Nat) :
    numbered hint (search known hint known.length counter) ∉ known := by
  intro h
  have hall := mem_of_search_mem h
  have hnodup : ((List.range (known.length + 1)).map
      fun i => numbered hint (counter + 1 + i)).Nodup :=
    List.nodup_range.map fun i j hij => Nat.add_left_cancel (numbered_injective hint hij)
  have hle := (List.subperm_of_subset hnodup fun name hname => by
    obtain ⟨i, hi, rfl⟩ := List.mem_map.1 hname
    exact hall i (Nat.le_of_lt_succ (List.mem_range.1 hi))).length_le
  rw [List.length_map, List.length_range] at hle
  omega

/-- **A fresh label was not in use.** -/
theorem fresh_notMem (p : LabelPool) (hint : String) : (p.fresh hint).1 ∉ p.known := by
  rw [fresh]
  dsimp only
  split
  · exact numbered_search_notMem _ _ _
  · next h => exact h

/-- A fresh label is in use from now on. -/
theorem known_fresh (p : LabelPool) (hint : String) :
    (p.fresh hint).2.known = (p.fresh hint).1 :: p.known := by
  rw [fresh]
  dsimp only
  split <;> rfl

/-- The hint, as far as its characters may stand in a label, is in use once a label is made from it. -/
theorem sanitize_mem_fresh (p : LabelPool) (hint : String) :
    sanitize hint ∈ (p.fresh hint).2.known := by
  rw [fresh]
  dsimp only
  split
  · next h => exact List.mem_cons_of_mem _ h
  · exact List.mem_cons_self

/-! ## What a step notes -/

/-- The second pool knows more labels than the first: new ones, made from hints of the kind. -/
structure Notes (hints : String → Prop) (p p' : LabelPool) : Prop where
  nodup : p.known.Nodup → p'.known.Nodup
  known : p.known <:+ p'.known
  named : ∀ l ∈ p'.known, l ∈ p.known ∨ ∃ hint, hints hint ∧ NamedAfter hint l

variable {hints : String → Prop} {p q r : LabelPool}

theorem Notes.refl (p : LabelPool) : Notes hints p p :=
  ⟨id, List.suffix_rfl, fun _ h => .inl h⟩

theorem Notes.trans (hpq : Notes hints p q) (hqr : Notes hints q r) : Notes hints p r where
  nodup h := hqr.nodup (hpq.nodup h)
  known := hpq.known.trans hqr.known
  named l hl := (hqr.named l hl).elim (hpq.named l) .inr

theorem notes_fresh (p : LabelPool) {hint : String} (h : hints hint) :
    Notes hints p (p.fresh hint).2 where
  nodup hp := by
    rw [known_fresh]
    exact List.nodup_cons.2 ⟨p.fresh_notMem hint, hp⟩
  known := by
    rw [known_fresh]
    exact List.suffix_cons _ _
  named l hl := by
    rw [known_fresh] at hl
    rcases List.mem_cons.1 hl with rfl | hl
    · exact .inr ⟨hint, h, p.namedAfter_fresh hint⟩
    · exact .inl hl

theorem mem_known_reserve (p : LabelPool) (name : String) : name ∈ (p.reserve name).2.known := by
  rw [reserve]
  split
  · next h => exact h
  · exact List.mem_cons_self

theorem notes_reserve (p : LabelPool) {hint name : String} (h : hints hint)
    (hname : NamedAfter hint name) : Notes hints p (p.reserve name).2 := by
  rw [reserve]
  split
  · exact .refl p
  · next hnot =>
    refine ⟨fun hp => List.nodup_cons.2 ⟨hnot, hp⟩, List.suffix_cons _ _, fun l hl => ?_⟩
    rcases List.mem_cons.1 hl with rfl | hl
    · exact .inr ⟨hint, h, hname⟩
    · exact .inl hl

/-- The labels of the caller, each of them noted once. -/
theorem mem_known_reserveAll {p : LabelPool} {names : List String} {l : String} :
    l ∈ (p.reserveAll names).known ↔ l ∈ p.known ∨ l ∈ names := by
  unfold reserveAll
  induction names generalizing p with
  | nil => simp
  | cons name rest ih =>
    have hmem : l ∈ (p.reserve name).2.known ↔ l ∈ p.known ∨ l = name := by
      rw [reserve]
      split
      · next h => exact ⟨.inl, fun hl => hl.elim id fun heq => heq ▸ h⟩
      · rw [List.mem_cons, or_comm]
    rw [List.foldl_cons, ih, hmem, List.mem_cons, or_assoc]

theorem nodup_reserveAll {p : LabelPool} (h : p.known.Nodup) (names : List String) :
    (p.reserveAll names).known.Nodup := by
  unfold reserveAll
  induction names generalizing p with
  | nil => exact h
  | cons name rest ih =>
    have hreserve : (p.reserve name).2.known.Nodup := by
      rw [reserve]
      split
      · exact h
      · next hnot => exact List.nodup_cons.2 ⟨hnot, h⟩
    exact ih hreserve

/-! ## What a step uses -/

/-- Between the two states, no label is used more often unless it is noted as much more often. -/
def Pays (p p' : LabelPool) (used used' : List String) (l : String) : Prop :=
  used'.count l + p.known.count l ≤ used.count l + p'.known.count l

theorem Pays.refl (p : LabelPool) (used : List String) (l : String) : p.Pays p used used l :=
  Nat.le_refl _

theorem Pays.trans {used₁ used₂ used₃ : List String} {l : String} (hpq : p.Pays q used₁ used₂ l)
    (hqr : q.Pays r used₂ used₃ l) : p.Pays r used₁ used₃ l := by
  unfold Pays at *
  omega

/-- Noting labels is no use of one. -/
theorem Notes.pays (h : Notes hints p q) (used : List String) (l : String) :
    p.Pays q used used l :=
  Nat.add_le_add_left (h.known.sublist.count_le l) _

/-- A fresh label may be used. -/
theorem pays_fresh (p : LabelPool) (hint : String) (used : List String) (l : String) :
    p.Pays (p.fresh hint).2 used (used ++ [(p.fresh hint).1]) l := by
  have hknown : (p.fresh hint).2.known = [(p.fresh hint).1] ++ p.known := p.known_fresh hint
  rw [Pays, hknown, List.count_append, List.count_append]
  omega

end LabelPool

end PortableImage
