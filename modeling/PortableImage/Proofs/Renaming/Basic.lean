import Mathlib.Order.Basic
import PortableImage.Proofs.Labels.Pool

/-!
# Two runs under different names

A label has no meaning of its own.  Two runs whose labels are paired off one to one do the same, even
though the labels that they invent on the way depend on the names that are taken: whenever both invent
one, the two make a new pair.

* `Renaming` — labels of one run with those of the other; the order is that of the pairs.
* `Runs` — two computations both fail, or both succeed with related results; `Grown` allows for pairs
  that are made on the way.
* `LabelPool.Renamed`, `Context.Renamed` — the labels in use are paired off, and stay so when a label
  is invented.
-/

set_option autoImplicit false

namespace PortableImage

/-- Labels of one run with those of another: different ones with different ones. -/
structure Renaming where
  pairs : List (String × String)
  matching : ∀ p ∈ pairs, ∀ q ∈ pairs, p.1 = q.1 ↔ p.2 = q.2

namespace Renaming

/-- The second label stands for the first. -/
def Maps (W : Renaming) (l l' : String) : Prop := (l, l') ∈ W.pairs

instance : Preorder Renaming where
  le W V := ∀ l l', W.Maps l l' → V.Maps l l'
  le_refl _ _ _ h := h
  le_trans _ _ _ hWV hVU l l' h := hVU l l' (hWV l l' h)

variable {W V : Renaming}

theorem Maps.mono {l l' : String} (h : W.Maps l l') (hle : W ≤ V) : V.Maps l l' := hle l l' h

/-- Labels are equal where those that stand for them are. -/
theorem Maps.eq_iff {l l' m m' : String} (hl : W.Maps l l') (hm : W.Maps m m') :
    l = m ↔ l' = m' :=
  W.matching _ hl _ hm

theorem Maps.beq_eq {l l' m m' : String} (hl : W.Maps l l') (hm : W.Maps m m') :
    (l == m) = (l' == m') := by
  rw [Bool.eq_iff_iff, beq_iff_eq, beq_iff_eq]
  exact hl.eq_iff hm

/-- The pairs the other way round. -/
def swap (W : Renaming) : Renaming where
  pairs := W.pairs.map Prod.swap
  matching p hp q hq := by
    obtain ⟨a, ha, rfl⟩ := List.mem_map.1 hp
    obtain ⟨b, hb, rfl⟩ := List.mem_map.1 hq
    exact (W.matching a ha b hb).symm

theorem maps_swap {l l' : String} : W.swap.Maps l' l ↔ W.Maps l l' := by
  refine ⟨fun h => ?_, fun h => List.mem_map.2 ⟨(l, l'), h, rfl⟩⟩
  obtain ⟨⟨m, m'⟩, hmem, heq⟩ := List.mem_map.1 h
  cases heq
  exact hmem

/-- One pair more, of labels that are new. -/
def cons (W : Renaming) (l l' : String) (hl : l ∉ W.pairs.map (·.1))
    (hl' : l' ∉ W.pairs.map (·.2)) : Renaming where
  pairs := (l, l') :: W.pairs
  matching := by
    have hnew : ∀ q ∈ W.pairs, l ≠ q.1 ∧ l' ≠ q.2 := fun q hq =>
      ⟨fun heq => hl (heq ▸ List.mem_map_of_mem hq), fun heq => hl' (heq ▸ List.mem_map_of_mem hq)⟩
    intro p hp q hq
    rcases List.mem_cons.1 hp with rfl | hp
    · rcases List.mem_cons.1 hq with rfl | hq
      · exact iff_of_true rfl rfl
      · exact iff_of_false (hnew q hq).1 (hnew q hq).2
    · rcases List.mem_cons.1 hq with rfl | hq
      · exact iff_of_false (Ne.symm (hnew p hp).1) (Ne.symm (hnew p hp).2)
      · exact W.matching p hp q hq

theorem le_cons (W : Renaming) {l l' : String} (hl : l ∉ W.pairs.map (·.1))
    (hl' : l' ∉ W.pairs.map (·.2)) : W ≤ W.cons l l' hl hl' :=
  fun _ _ h => List.mem_cons_of_mem _ h

/-- Labels that both have or both lack, and that are paired off. -/
abbrev MapsOption (W : Renaming) : Option String → Option String → Prop := Option.Rel W.Maps

theorem mapsOption_mono {l l' : Option String} (h : W.MapsOption l l') (hle : W ≤ V) :
    V.MapsOption l l' := by
  obtain ⟨hl⟩ | _ := h
  · exact .some (hl.mono hle)
  · exact .none

end Renaming

/-! ## Two computations -/

section Runs

variable {ε α β γ δ : Type}

/-- Both computations fail, or both succeed with related results. -/
def Runs (R : α → β → Prop) : Except ε α → Except ε β → Prop
  | .ok a, .ok b => R a b
  | .error _, .error _ => True
  | _, _ => False

/-- Two results are related under the renaming or one with more pairs. -/
def Grown (W : Renaming) (R : Renaming → α → β → Prop) (a : α) (b : β) : Prop :=
  ∃ V, W ≤ V ∧ R V a b

variable {W V : Renaming} {R S : α → β → Prop} {T : γ → δ → Prop} {x : Except ε α} {y : Except ε β}

/-- What does not see labels is the same in both runs. -/
theorem Runs.self (x : Except ε α) : Runs Eq x x := by
  cases x with
  | error e => trivial
  | ok a => rfl

theorem Runs.mono (h : Runs R x y) (hRS : ∀ a b, R a b → S a b) : Runs S x y := by
  cases x with
  | error e => cases y <;> exact h
  | ok a =>
    cases y with
    | error e => exact h
    | ok b => exact hRS a b h

/-- **Steps that run alike, one after the other, run alike.** -/
theorem Runs.bind {f : α → Except ε γ} {g : β → Except ε δ} (h : Runs R x y)
    (hfg : ∀ a b, R a b → Runs T (f a) (g b)) : Runs T (x >>= f) (y >>= g) := by
  cases x with
  | error e =>
    cases y with
    | error e => trivial
    | ok b => exact h.elim
  | ok a =>
    cases y with
    | error e => exact h.elim
    | ok b => exact hfg a b h

theorem Grown.mono {P : Renaming → α → β → Prop} {a : α} {b : β} (h : Grown V P a b)
    (hle : W ≤ V) : Grown W P a b := by
  obtain ⟨U, hVU, hab⟩ := h
  exact ⟨U, le_trans hle hVU, hab⟩

theorem Grown.refl {P : Renaming → α → β → Prop} {a : α} {b : β} (h : P W a b) : Grown W P a b :=
  ⟨W, le_refl W, h⟩

/-- The parts of two results that are related. -/
theorem Grown.pair {P : Renaming → α × γ → β × δ → Prop} {a : α × γ} {b : β × δ}
    (h : Grown W P a b) :
    ∃ V x y x' y', W ≤ V ∧ a = (x, y) ∧ b = (x', y') ∧ P V (x, y) (x', y') := by
  obtain ⟨V, hle, hab⟩ := h
  exact ⟨V, a.1, a.2, b.1, b.2, hle, rfl, rfl, hab⟩

theorem Runs.grown {P : Renaming → α → β → Prop} (h : Runs (Grown V P) x y) (hle : W ≤ V) :
    Runs (Grown W P) x y := h.mono fun _ _ hab => hab.mono hle

/-- A step under which there are more pairs. -/
theorem Runs.bindGrown {P : Renaming → α → β → Prop} {Q : Renaming → γ → δ → Prop}
    {f : α → Except ε γ} {g : β → Except ε δ} (h : Runs (Grown W P) x y)
    (hfg : ∀ V a b, W ≤ V → P V a b → Runs (Grown V Q) (f a) (g b)) :
    Runs (Grown W Q) (x >>= f) (y >>= g) :=
  h.bind fun a b ⟨V, hle, hab⟩ => (hfg V a b hle hab).grown hle

/-- The results are what the two runs give. -/
theorem Runs.known {P : Renaming → α → β → Prop} (h : Runs (Grown W P) x y) :
    Runs (Grown W fun V a b => P V a b ∧ x = .ok a ∧ y = .ok b) x y := by
  cases x with
  | error e => cases y <;> exact h
  | ok a =>
    cases y with
    | error e => exact h
    | ok b =>
      obtain ⟨V, hle, hab⟩ := h
      exact ⟨V, hle, hab, rfl, rfl⟩

end Runs

/-! ## Labels in use -/

/-- The labels in use are paired off. -/
structure LabelPool.Renamed (W : Renaming) (p p' : LabelPool) : Prop where
  known : p.known = W.pairs.map (·.1)
  known' : p'.known = W.pairs.map (·.2)

/-- The labels in use are paired off, and everything else is the same. -/
structure Context.Renamed (W : Renaming) (c c' : Context) : Prop where
  pool : c.pool.Renamed W c'.pool
  encoder : c'.encoder = c.encoder
  start : W.Maps c.start c'.start

/-- **A label that both runs invent is one pair more.** -/
theorem LabelPool.Renamed.fresh {W : Renaming} {p p' : LabelPool} (h : p.Renamed W p')
    (hint hint' : String) :
    Grown W (fun V x x' => V.Maps x.1 x'.1 ∧ x.2.Renamed V x'.2) (p.fresh hint)
      (p'.fresh hint') := by
  have hl := p.fresh_notMem hint
  have hl' := p'.fresh_notMem hint'
  rw [h.known] at hl
  rw [h.known'] at hl'
  refine ⟨W.cons _ _ hl hl', W.le_cons hl hl', List.mem_cons_self, ?_, ?_⟩
  · rw [known_fresh, h.known]
    rfl
  · rw [known_fresh, h.known']
    rfl

theorem Context.Renamed.fresh {W : Renaming} {c c' : Context} (h : c.Renamed W c')
    (hint hint' : String) :
    Grown W (fun V x x' => V.Maps x.1 x'.1 ∧ x.2.Renamed V x'.2) (c.fresh hint)
      (c'.fresh hint') := by
  obtain ⟨V, hle, hmaps, hpool⟩ := h.pool.fresh hint hint'
  exact ⟨V, hle, hmaps, hpool, h.encoder, h.start.mono hle⟩

end PortableImage
