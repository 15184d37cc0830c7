import PortableImage.OffsetMap

/-!
# What the operations on offset maps hold

A map is known by what it holds at each offset, and each operation by what `get?` gives after it.
-/

set_option autoImplicit false

namespace PortableImage.OffsetMap

variable {α : Type}

theorem lookup_eq_some_of_ascending {l : List (Nat × α)} (h : l.Pairwise fun a b => a.1 < b.1)
    {k : Nat} {v : α} : l.lookup k = some v ↔ (k, v) ∈ l := by
  induction l with
  | nil => simp
  | cons a rest ih =>
    obtain ⟨j, w⟩ := a
    rw [List.pairwise_cons] at h
    rw [List.lookup_cons, List.mem_cons, Prod.mk.injEq]
    by_cases hk : k = j
    · subst hk
      -- no later entry can have the same offset, for the offsets ascend
      have hrest : (k, v) ∉ rest := fun hm => Nat.lt_irrefl k (h.1 _ hm)
      simp [hrest, eq_comm]
    · have hb : (k == j) = false := by simpa using hk
      simp [hk, hb, ih h.2]

/-- The entries are what the map holds. -/
theorem get?_eq_some {m : OffsetMap α} {k : Nat} {v : α} :
    m.get? k = some v ↔ (k, v) ∈ m.entries :=
  lookup_eq_some_of_ascending m.ascending

/-- Maps that hold the same are equal. -/
theorem ext_get? {m n : OffsetMap α} (h : ∀ k, m.get? k = n.get? k) : m = n := by
  have hmem : ∀ e, e ∈ m.entries ↔ e ∈ n.entries := fun e => by
    rw [← get?_eq_some, ← get?_eq_some, h]
  have hnodup : ∀ l : List (Nat × α), l.Pairwise (fun a b => a.1 < b.1) → l.Nodup := by
    intro l hl
    refine hl.imp fun {a b} hab he => ?_
    subst he
    exact Nat.lt_irrefl _ hab
  have hperm : m.entries.Perm n.entries :=
    (List.perm_ext_iff_of_nodup (hnodup _ m.ascending) (hnodup _ n.ascending)).2 hmem
  have hasymm : ∀ a b : Nat × α, a ∈ m.entries → b ∈ n.entries → a.1 < b.1 → b.1 < a.1 → a = b :=
    fun a b _ _ hab hba => absurd hab (Nat.lt_asymm hba)
  exact ext (hperm.eq_of_pairwise hasymm m.ascending n.ascending)

@[simp]
theorem get?_empty (k : Nat) : (empty : OffsetMap α).get? k = none := rfl

theorem get?_singleton (j k : Nat) (v : α) :
    (singleton j v).get? k = if k = j then some v else none := by
  rw [singleton, get?_insert, get?_empty]

/-- Where both maps hold something, the second counts. -/
theorem get?_insertAll (m n : OffsetMap α) (k : Nat) :
    (m.insertAll n).get? k = (n.get? k).or (m.get? k) := by
  have fold : ∀ (l : List (Nat × α)) (m : OffsetMap α), l.Pairwise (fun a b => a.1 < b.1) →
      (l.foldl (fun acc e => acc.insert e.1 e.2) m).get? k = (l.lookup k).or (m.get? k) := by
    intro l
    induction l with
    | nil => intro m _; rfl
    | cons a rest ih =>
      intro m h
      obtain ⟨j, w⟩ := a
      rw [List.pairwise_cons] at h
      rw [List.foldl_cons, ih _ h.2, get?_insert, List.lookup_cons]
      by_cases hk : k = j
      · subst hk
        have hrest : rest.lookup k = none := by
          cases hl : rest.lookup k with
          | none => rfl
          | some v =>
            exact absurd (h.1 _ ((lookup_eq_some_of_ascending h.2).1 hl)) (Nat.lt_irrefl k)
        simp [hrest]
      · have hb : (k == j) = false := by simpa using hk
        simp [hk, hb]
  exact fold n.entries m n.ascending

theorem get?_shift (m : OffsetMap α) (d k : Nat) :
    (m.shift d).get? k = if d ≤ k then m.get? (k - d) else none := by
  ext v
  rw [get?_eq_some, shift, List.mem_map]
  constructor
  · rintro ⟨e, he, heq⟩
    obtain ⟨rfl, rfl⟩ := Prod.mk.inj heq
    rw [if_pos (Nat.le_add_left d e.1), Nat.add_sub_cancel]
    exact get?_eq_some.2 he
  · intro h
    split at h
    · next hk => exact ⟨(k - d, v), get?_eq_some.1 h, by rw [Nat.sub_add_cancel hk]⟩
    · exact absurd h (by simp)

theorem get?_filter (m : OffsetMap α) (p : Nat → α → Bool) (k : Nat) :
    (m.filter p).get? k = (m.get? k).filter (p k) := by
  ext v
  rw [get?_eq_some, filter, List.mem_filter, Option.filter_eq_some_iff, get?_eq_some]

theorem get?_dropBelow (m : OffsetMap α) (d k : Nat) : (m.dropBelow d).get? k = m.get? (k + d) := by
  ext v
  rw [get?_eq_some, get?_eq_some, dropBelow, List.mem_map]
  constructor
  · rintro ⟨e, he, heq⟩
    obtain ⟨rfl, rfl⟩ := Prod.mk.inj heq
    rw [List.mem_filter, decide_eq_true_eq] at he
    rw [Nat.sub_add_cancel he.2]
    exact he.1
  · intro h
    exact ⟨(k + d, v), List.mem_filter.2 ⟨h, by simp⟩, by rw [Nat.add_sub_cancel]⟩

/-- A map has no entries exactly when it holds nothing. -/
theorem isEmpty_iff {m : OffsetMap α} : m.isEmpty = true ↔ ∀ k, m.get? k = none := by
  rw [isEmpty, List.isEmpty_iff]
  constructor
  · intro h k
    rw [get?, h]
    rfl
  · intro h
    refine List.eq_nil_iff_forall_not_mem.2 fun e he => ?_
    exact absurd (get?_eq_some.2 he) (by simp [h e.1])

end PortableImage.OffsetMap
