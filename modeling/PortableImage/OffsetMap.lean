/-!
# Maps from offsets

A finite map from offsets, listed in ascending order; the order is part of the type.  Two maps with
the same entries are equal, so laws about buffers can be equations.

* `OffsetMap` — the maps; `get?` is the view.
* `insert`, `insertAll` — an entry replaces the one at its offset.
* `shift` — every entry moved up by the same distance.
* `filter` — the entries that pass a test.
-/

set_option autoImplicit false

namespace PortableImage

/-- A finite map from offsets to `α`. -/
structure OffsetMap (α : Type) where
  entries : List (Nat × α)
  ascending : entries.Pairwise fun a b => a.1 < b.1

namespace OffsetMap

variable {α : Type}

@[ext]
theorem ext {m n : OffsetMap α} (h : m.entries = n.entries) : m = n := by
  cases m; cases n; cases h; rfl

instance [DecidableEq α] : DecidableEq (OffsetMap α) := fun m n =>
  if h : m.entries = n.entries then .isTrue (ext h) else .isFalse fun e => h (e ▸ rfl)

/-- The map without entries. -/
def empty : OffsetMap α := ⟨[], .nil⟩

instance : Inhabited (OffsetMap α) := ⟨empty⟩

/-- What the map holds at an offset. -/
def get? (m : OffsetMap α) (k : Nat) : Option α := m.entries.lookup k

/-- Puts an entry into its place in an ascending list, instead of one at its offset. -/
def insertEntry (k : Nat) (v : α) : List (Nat × α) → List (Nat × α)
  | [] => [(k, v)]
  | (j, w) :: rest =>
    if k < j then (k, v) :: (j, w) :: rest
    else if k = j then (k, v) :: rest
    else (j, w) :: insertEntry k v rest

theorem mem_insertEntry {k : Nat} {v : α} {l : List (Nat × α)} {e : Nat × α}
    (h : e ∈ insertEntry k v l) : e = (k, v) ∨ e ∈ l := by
  induction l with
  | nil => exact .inl (by simpa [insertEntry] using h)
  | cons a rest ih =>
    obtain ⟨j, w⟩ := a
    simp only [insertEntry] at h
    split at h
    · simpa using h
    · split at h
      · rcases List.mem_cons.1 h with rfl | h
        · exact .inl rfl
        · exact .inr (List.mem_cons_of_mem _ h)
      · rcases List.mem_cons.1 h with rfl | h
        · exact .inr List.mem_cons_self
        · exact (ih h).imp_right (List.mem_cons_of_mem _)

theorem ascending_insertEntry (k : Nat) (v : α) {l : List (Nat × α)}
    (h : l.Pairwise fun a b => a.1 < b.1) :
    (insertEntry k v l).Pairwise fun a b => a.1 < b.1 := by
  induction l with
  | nil => simp [insertEntry]
  | cons a rest ih =>
    obtain ⟨j, w⟩ := a
    rw [List.pairwise_cons] at h
    simp only [insertEntry]
    split
    · next hk =>
      refine List.pairwise_cons.2 ⟨fun e he => ?_, List.pairwise_cons.2 h⟩
      rcases List.mem_cons.1 he with rfl | he
      · exact hk
      · exact Nat.lt_trans hk (h.1 e he)
    · split
      · next hk => exact List.pairwise_cons.2 ⟨fun e he => hk ▸ h.1 e he, h.2⟩
      · next h1 h2 =>
        refine List.pairwise_cons.2 ⟨fun e he => ?_, ih h.2⟩
        rcases mem_insertEntry he with rfl | he
        · show j < k
          omega
        · exact h.1 e he

/-- Puts `v` at `k`, instead of what was there. -/
def insert (m : OffsetMap α) (k : Nat) (v : α) : OffsetMap α :=
  ⟨insertEntry k v m.entries, ascending_insertEntry k v m.ascending⟩

/-- The map with one entry. -/
def singleton (k : Nat) (v : α) : OffsetMap α := empty.insert k v

/-- All entries of both maps; where both have one, that of the second. -/
def insertAll (m n : OffsetMap α) : OffsetMap α :=
  n.entries.foldl (fun acc e => acc.insert e.1 e.2) m

/-- Every entry moved up by `d`. -/
def shift (d : Nat) (m : OffsetMap α) : OffsetMap α where
  entries := m.entries.map fun e => (e.1 + d, e.2)
  ascending := List.pairwise_map.2 (m.ascending.imp fun h => Nat.add_lt_add_right h d)

/-- The entries that pass the test. -/
def filter (p : Nat → α → Bool) (m : OffsetMap α) : OffsetMap α where
  entries := m.entries.filter fun e => p e.1 e.2
  ascending := m.ascending.sublist List.filter_sublist

/-- The entries from `d` on, moved down by `d`. -/
def dropBelow (d : Nat) (m : OffsetMap α) : OffsetMap α where
  entries := (m.entries.filter fun e => d ≤ e.1).map fun e => (e.1 - d, e.2)
  ascending := by
    refine List.pairwise_map.2 ?_
    refine (m.ascending.sublist List.filter_sublist).imp_of_mem fun {a b} ha _ h => ?_
    have ha : d ≤ a.1 := by simpa using (List.mem_filter.1 ha).2
    show a.1 - d < b.1 - d
    omega

/-- Whether the map has no entries. -/
def isEmpty (m : OffsetMap α) : Bool := m.entries.isEmpty

theorem lookup_insertEntry (k : Nat) (v : α) (l : List (Nat × α)) (j : Nat)
    (h : l.Pairwise fun a b => a.1 < b.1) :
    (insertEntry k v l).lookup j = if j = k then some v else l.lookup j := by
  induction l with
  | nil =>
    by_cases hj : j = k
    · simp [insertEntry, hj]
    · have hb : (j == k) = false := by simpa using hj
      simp [insertEntry, List.lookup_cons, hj, hb]
  | cons a rest ih =>
    obtain ⟨i, w⟩ := a
    rw [List.pairwise_cons] at h
    simp only [insertEntry]
    split
    · by_cases hj : j = k
      · simp [hj]
      · have hb : (j == k) = false := by simpa using hj
        simp [List.lookup_cons, hj, hb]
    · split
      · next hk =>
        subst hk
        by_cases hj : j = k
        · simp [hj]
        · have hb : (j == k) = false := by simpa using hj
          simp [List.lookup_cons, hj, hb]
      · next h1 h2 =>
        rw [List.lookup_cons, List.lookup_cons, ih h.2]
        by_cases hj : j = k
        · subst hj
          have hb : (j == i) = false := by simpa using h2
          simp [hb]
        · simp [hj]

/-- An inserted entry is found, and all others are as before. -/
theorem get?_insert (m : OffsetMap α) (k : Nat) (v : α) (j : Nat) :
    (m.insert k v).get? j = if j = k then some v else m.get? j :=
  lookup_insertEntry k v m.entries j m.ascending

end OffsetMap

end PortableImage
