/-!
# Lists that keep their elements

While something is assembled, lists get more elements, and the elements become more.  What was there
stays at its place, as something that goes on from it.

* `KeepsEach` — every element of the first list is at its place in the second, up to a relation.
* `KeepsEach.find?` — what is looked for is still found.
* `getElem?_put`, `keepsEach_put` — one element that is put in the place of another, or behind all.
-/

set_option autoImplicit false

namespace PortableImage

variable {α : Type} {R S : α → α → Prop} {l m k : List α}

/-- Every element of the first list is at its place in the second, or what is there is related to
it. -/
def KeepsEach (R : α → α → Prop) (l m : List α) : Prop :=
  ∀ (n : Nat) a, l[n]? = some a → ∃ b, m[n]? = some b ∧ R a b

theorem KeepsEach.refl (hR : ∀ a, R a a) (l : List α) : KeepsEach R l l :=
  fun _ a h => ⟨a, h, hR a⟩

theorem KeepsEach.trans (hR : ∀ a b c, R a b → R b c → R a c) (hlm : KeepsEach R l m)
    (hmk : KeepsEach R m k) : KeepsEach R l k := by
  intro n a ha
  obtain ⟨b, hb, hab⟩ := hlm n a ha
  obtain ⟨c, hc, hbc⟩ := hmk n b hb
  exact ⟨c, hc, hR a b c hab hbc⟩

theorem KeepsEach.mono (hRS : ∀ a b, R a b → S a b) (h : KeepsEach R l m) : KeepsEach S l m := by
  intro n a ha
  obtain ⟨b, hb, hab⟩ := h n a ha
  exact ⟨b, hb, hRS a b hab⟩

theorem KeepsEach.mem (h : KeepsEach R l m) {a : α} (ha : a ∈ l) : ∃ b ∈ m, R a b := by
  obtain ⟨n, hn⟩ := List.mem_iff_getElem?.1 ha
  obtain ⟨b, hb, hab⟩ := h n a hn
  exact ⟨b, List.mem_of_getElem? hb, hab⟩

theorem KeepsEach.length_le (h : KeepsEach R l m) : l.length ≤ m.length := by
  refine Nat.le_of_not_lt fun hlt => ?_
  obtain ⟨b, hb, -⟩ := h m.length _ (List.getElem?_eq_getElem hlt)
  exact absurd (List.getElem?_eq_some_iff.1 hb).1 (Nat.lt_irrefl _)

theorem keepsEach_cons {a b : α} :
    KeepsEach R (a :: l) (b :: m) ↔ R a b ∧ KeepsEach R l m := by
  constructor
  · intro h
    refine ⟨?_, fun n => h (n + 1)⟩
    obtain ⟨b', hb', hab⟩ := h 0 a rfl
    cases hb'
    exact hab
  · rintro ⟨hab, h⟩ n x hx
    cases n with
    | zero =>
      cases hx
      exact ⟨b, rfl, hab⟩
    | succ n => exact h n x hx

/-- What is looked for is still found, if the relation does not change what it is looked for by. -/
theorem KeepsEach.find? {p : α → Bool} (hp : ∀ a b, R a b → p b = p a) (h : KeepsEach R l m) {a : α}
    (ha : l.find? p = some a) : ∃ b, m.find? p = some b ∧ R a b := by
  induction l generalizing m with
  | nil => cases ha
  | cons x rest ih =>
    cases m with
    | nil => exact absurd h.length_le (Nat.not_succ_le_zero _)
    | cons y m =>
      obtain ⟨hxy, hrest⟩ := keepsEach_cons.1 h
      rw [List.find?_cons] at ha ⊢
      rw [hp x y hxy]
      cases hx : p x with
      | true =>
        rw [hx] at ha
        cases ha
        exact ⟨y, rfl, hxy⟩
      | false =>
        rw [hx] at ha
        exact ih hrest ha

/-! ## One element -/

variable {before behind : List α} {x : α}

theorem getElem?_length (before behind : List α) (x : α) :
    (before ++ x :: behind)[before.length]? = some x := by
  rw [List.getElem?_append_right (Nat.le_refl _), Nat.sub_self, List.getElem?_cons_zero]

/-- An element that is put in the place of another one, or behind all. -/
theorem getElem?_put (h : (∃ a, l = before ++ a :: behind) ∨ (l = before ∧ behind = [])) (n : Nat) :
    (before ++ x :: behind)[n]? = if n = before.length then some x else l[n]? := by
  split
  · next hn => rw [hn, getElem?_length]
  · next hn =>
    rcases Nat.lt_or_gt_of_ne hn with hlt | hgt
    · rw [List.getElem?_append_left hlt]
      obtain ⟨a, rfl⟩ | ⟨rfl, -⟩ := h
      · rw [List.getElem?_append_left hlt]
      · rfl
    · obtain ⟨i, hi⟩ := Nat.exists_eq_add_of_lt hgt
      have hsub : n - before.length = i + 1 := by omega
      rw [List.getElem?_append_right (Nat.le_of_lt hgt), hsub, List.getElem?_cons_succ]
      obtain ⟨a, rfl⟩ | ⟨rfl, rfl⟩ := h
      · rw [List.getElem?_append_right (Nat.le_of_lt hgt), hsub, List.getElem?_cons_succ]
      · rw [List.getElem?_nil, List.getElem?_eq_none (Nat.le_of_lt hgt)]

theorem keepsEach_put (hR : ∀ a, R a a)
    (h : (∃ a, l = before ++ a :: behind ∧ R a x) ∨ (l = before ∧ behind = [])) :
    KeepsEach R l (before ++ x :: behind) := by
  intro n a ha
  have hplace : (∃ a, l = before ++ a :: behind) ∨ (l = before ∧ behind = []) := by
    obtain ⟨a, hl, -⟩ | hl := h
    · exact .inl ⟨a, hl⟩
    · exact .inr hl
  rw [getElem?_put hplace]
  split
  · next hn =>
    obtain ⟨b, rfl, hb⟩ | ⟨rfl, -⟩ := h
    · rw [hn, getElem?_length] at ha
      cases ha
      exact ⟨x, rfl, hb⟩
    · exact absurd (List.getElem?_eq_some_iff.1 ha).1 (hn ▸ Nat.lt_irrefl _)
  · exact ⟨a, ha, hR a⟩

end PortableImage
