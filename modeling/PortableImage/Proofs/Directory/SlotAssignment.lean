import Mathlib.Data.Nat.Count
import PortableImage.Proofs.Directory.Slots

/-!
# Which place every export gets

The places of a table are given out in two passes.  The exports with an ordinal come first, and may come
in any order; they fail exactly if an ordinal is below the base or comes twice.  The others fill what
is left, from the lowest place on, in the order of their names.

## What is here

* `pinExports_eq_ok` — when the first pass succeeds; `pinExports_induction` is what it keeps, and
  `join_pinExports`, `length_pinExports` say what the table is then.
* `join_fillSlots`, `length_fillSlots` — what the second pass puts where nothing was.
* `Slots.Ends` — the last place is not empty, throughout.
* `assignSlots_places` — the table of a directory.
-/

set_option autoImplicit false

namespace PortableImage

/-- The ordinals that are given. -/
def ordinals (exports : List Export) : List UInt32 := exports.filterMap (·.ordinal)

/-- The places that the ordinals take. -/
def takenPlaces (base : Nat) (exports : List Export) : List Nat :=
  (ordinals exports).map (·.toNat - base)

theorem mem_takenPlaces {base : Nat} {exports : List Export} {i : Nat} :
    i ∈ takenPlaces base exports ↔ ∃ e ∈ exports, ∃ n, e.ordinal = some n ∧ n.toNat - base = i := by
  simp only [takenPlaces, ordinals, List.mem_map, List.mem_filterMap]
  constructor
  · rintro ⟨n, ⟨e, he, hn⟩, hi⟩
    exact ⟨e, he, n, hn, hi⟩
  · rintro ⟨e, he, n, hn, hi⟩
    exact ⟨n, ⟨e, he, hn⟩, hi⟩

/-! ## Exports with an ordinal -/

section Pin

variable {base : Nat} {exports : List Export} {slots pinned : Slots} {e : Export}

theorem length_pinExport {ordinal : Nat} (h : pinExport base slots e ordinal = .ok pinned) :
    pinned.length = max slots.length (ordinal - base + 1) := by
  obtain ⟨-, -, rfl⟩ := pinExport_eq_ok.1 h
  rw [List.length_set, List.length_append, List.length_replicate]
  omega

/-- **The first pass succeeds** exactly if no ordinal is below the base, none comes twice, and their
places are free. -/
theorem pinExports_eq_ok : (∃ pinned, pinExports base exports slots = .ok pinned) ↔
    (∀ n ∈ ordinals exports, base ≤ n.toNat) ∧ (ordinals exports).Nodup ∧
      ∀ n ∈ ordinals exports, slots[n.toNat - base]?.join = none := by
  induction exports generalizing slots with
  | nil => simp [pinExports, ordinals]
  | cons e rest ih =>
    rw [pinExports]
    cases hordinal : e.ordinal with
    | none =>
      rw [ih, ordinals, ordinals, List.filterMap_cons_none hordinal]
    | some n =>
      have hordinals : ordinals (e :: rest) = n :: ordinals rest :=
        List.filterMap_cons_some hordinal
      rw [hordinals, List.forall_mem_cons, List.forall_mem_cons, List.nodup_cons]
      constructor
      · rintro ⟨pinned, hpinned⟩
        obtain ⟨next, hnext, hrest⟩ := bind_eq_ok.1 hpinned
        obtain ⟨hbase, hfree, -⟩ := pinExport_eq_ok.1 hnext
        obtain ⟨hbases, hnodup, hplaces⟩ := ih.1 ⟨pinned, hrest⟩
        have hothers : ∀ m ∈ ordinals rest, m.toNat - base ≠ n.toNat - base ∧
            slots[m.toNat - base]?.join = none := fun m hm => by
          have hplace := hplaces m hm
          rw [join_pinExport hnext] at hplace
          split at hplace
          · cases hplace
          · next hne => exact ⟨hne, hplace⟩
        exact ⟨⟨hbase, hbases⟩, ⟨fun hn => (hothers n hn).1 rfl, hnodup⟩, hfree,
          fun m hm => (hothers m hm).2⟩
      · rintro ⟨⟨hbase, hbases⟩, ⟨hn, hnodup⟩, hfree, hplaces⟩
        have hnext := (pinExport_eq_ok (e := e)).2 ⟨hbase, hfree, rfl⟩
        obtain ⟨pinned, hpinned⟩ := ih.2 ⟨hbases, hnodup, fun m hm => by
          rw [join_pinExport hnext, if_neg]
          · exact hplaces m hm
          · intro heq
            have hm' := hbases m hm
            have hsame : m = n := UInt32.toNat_inj.1 (by omega)
            exact hn (hsame ▸ hm)⟩
        exact ⟨pinned, bind_eq_ok.2 ⟨_, hnext, hpinned⟩⟩

/-- What every step of the first pass keeps is kept. -/
theorem pinExports_induction {P : Slots → Prop}
    (hstep : ∀ e ∈ exports, ∀ n : UInt32, e.ordinal = some n →
      ∀ s s', pinExport base s e n.toNat = .ok s' → P s → P s')
    (hslots : P slots) (h : pinExports base exports slots = .ok pinned) : P pinned := by
  induction exports generalizing slots with
  | nil =>
    cases h
    exact hslots
  | cons e rest ih =>
    have hlater := fun e' he' => hstep e' (List.mem_cons_of_mem e he')
    rw [pinExports] at h
    cases hordinal : e.ordinal with
    | none =>
      rw [hordinal] at h
      exact ih hlater hslots h
    | some n =>
      rw [hordinal] at h
      obtain ⟨next, hnext, hthen⟩ := bind_eq_ok.1 h
      exact ih hlater (hstep e List.mem_cons_self n hordinal slots next hnext hslots) hthen

/-- The places that no ordinal takes stay as they were. -/
theorem join_pinExports (h : pinExports base exports slots = .ok pinned) {i : Nat}
    (hi : i ∉ takenPlaces base exports) : pinned[i]?.join = slots[i]?.join := by
  refine pinExports_induction (P := fun s => s[i]?.join = slots[i]?.join)
    (fun e he n hn s s' hs hsame => ?_) rfl h
  rw [join_pinExport hs, if_neg, hsame]
  exact fun heq => hi (mem_takenPlaces.2 ⟨e, he, n, hn, heq.symm⟩)

/-- The table grows as far as the ordinals say. -/
theorem length_pinExports (h : pinExports base exports slots = .ok pinned) :
    pinned.length = ((takenPlaces base exports).map (· + 1)).foldl max slots.length := by
  induction exports generalizing slots with
  | nil =>
    cases h
    rfl
  | cons e rest ih =>
    rw [pinExports] at h
    cases hordinal : e.ordinal with
    | none =>
      rw [hordinal] at h
      rw [ih h, takenPlaces, takenPlaces, ordinals, ordinals, List.filterMap_cons_none hordinal]
    | some n =>
      rw [hordinal] at h
      obtain ⟨next, hnext, hthen⟩ := bind_eq_ok.1 h
      rw [ih hthen, length_pinExport hnext, takenPlaces, takenPlaces, ordinals, ordinals,
        List.filterMap_cons_some hordinal]
      rfl

end Pin

/-! ## The others -/

/-- **The places where nothing was are filled from the lowest on.**  Such a place holds the export
with the number of such places below it. -/
theorem join_fillSlots {slots : Slots} (exports : List Export) {i : Nat}
    (hi : slots[i]?.join = none) : (fillSlots slots exports)[i]?.join =
      exports[Nat.count (fun j => slots[j]?.join = none) i]? := by
  induction slots generalizing exports i with
  | nil =>
    have hcount : Nat.count (fun j => ([] : Slots)[j]?.join = none) i = i :=
      Nat.count_of_forall fun _ _ => rfl
    rw [hcount]
    cases exports with
    | nil => rfl
    | cons e rest =>
      rw [fillSlots, List.getElem?_map]
      cases (e :: rest)[i]? <;> rfl
  | cons head slots ih =>
    cases exports with
    | nil =>
      rw [fillSlots, hi]
      rfl
    | cons e rest =>
      cases i with
      | zero =>
        obtain rfl : head = none := hi
        rfl
      | succ i =>
        rw [Nat.count_succ']
        cases head with
        | some pinned => exact ih (e :: rest) hi
        | none => exact ih rest hi

theorem length_fillSlots (slots : Slots) (exports : List Export) :
    (fillSlots slots exports).length = max slots.length (slots.placed.length + exports.length) := by
  induction slots generalizing exports with
  | nil =>
    cases exports with
    | nil => rfl
    | cons e rest => simp [fillSlots, Slots.placed]
  | cons head slots ih =>
    cases exports with
    | nil =>
      have hle : (Slots.placed (head :: slots)).length ≤ (head :: slots).length :=
        List.length_filterMap_le _ _
      rw [fillSlots, List.length_nil]
      omega
    | cons e rest =>
      cases head with
      | some pinned =>
        have hplaced : Slots.placed (some pinned :: slots) = pinned :: Slots.placed slots := rfl
        rw [fillSlots, hplaced, List.length_cons, List.length_cons, List.length_cons, ih]
        rw [List.length_cons]
        omega
      | none =>
        have hplaced : Slots.placed (none :: slots) = Slots.placed slots := rfl
        rw [fillSlots, hplaced, List.length_cons, List.length_cons, List.length_cons, ih]
        omega

/-! ## The last place -/

/-- The last place, if there are any, is not empty. -/
def Slots.Ends (slots : Slots) : Prop := ∀ i, i + 1 = slots.length → slots[i]?.join ≠ none

theorem Slots.Ends.tail {slots : Slots} {head : Option Export} (h : Slots.Ends (head :: slots)) :
    slots.Ends :=
  fun i hi => h (i + 1) (congrArg (· + 1) hi)

theorem Slots.Ends.getLast? {slots : Slots} (h : slots.Ends) : slots.getLast? ≠ some none := by
  intro hlast
  rw [List.getLast?_eq_getElem?] at hlast
  have hlt := (List.getElem?_eq_some_iff.1 hlast).1
  exact h (slots.length - 1) (by omega) (congrArg Option.join hlast)

theorem ends_pinExports {base : Nat} {exports : List Export} {slots pinned : Slots}
    (hends : slots.Ends) (h : pinExports base exports slots = .ok pinned) : pinned.Ends := by
  refine pinExports_induction (fun e _ n _ s s' hs hends i hi => ?_) hends h
  rw [length_pinExport hs] at hi
  rw [join_pinExport hs]
  split
  · exact Option.some_ne_none _
  · exact hends i (by omega)

theorem ends_fillSlots {slots : Slots} (hends : slots.Ends) (exports : List Export) :
    (fillSlots slots exports).Ends := by
  induction slots generalizing exports with
  | nil =>
    cases exports with
    | nil => exact hends
    | cons e rest =>
      intro i hi
      have hlt : i < (e :: rest).length := by
        rw [fillSlots, List.length_map] at hi
        omega
      rw [fillSlots, List.getElem?_map, List.getElem?_eq_getElem hlt]
      exact Option.some_ne_none _
  | cons head slots ih =>
    cases exports with
    | nil =>
      rw [fillSlots]
      exact hends
    | cons e rest =>
      cases head with
      | some pinned =>
        intro i hi
        cases i with
        | zero => exact Option.some_ne_none _
        | succ i => exact ih hends.tail (e :: rest) i (Nat.succ.inj hi)
      | none =>
        intro i hi
        cases i with
        | zero => exact Option.some_ne_none _
        | succ i => exact ih hends.tail rest i (Nat.succ.inj hi)

/-! ## The table of a directory -/

/-- Whether the name of `a` may stand before that of `b`, by the bytes of the names; no name is an
empty one. -/
def byNameBytes (a b : Export) : Bool :=
  decide (Text.utf8 (a.name.getD "") ≤ Text.utf8 (b.name.getD ""))

theorem nameLe_eq : nameLe = byNameBytes := by
  funext a b
  rw [nameLe, byNameBytes, Bool.eq_iff_iff, bne_gt_iff_isLE, decide_eq_true_eq, Text.utf8_le_iff]

theorem stableOrder_byNameBytes (exports : List Export) :
    StableOrder byNameBytes exports (sortBy nameLe exports) := by
  rw [← nameLe_eq]
  exact stableOrder_sortBy (fun a b => bne_gt_total compare (a.name.getD "") (b.name.getD ""))
    (fun a b c => bne_gt_trans compare (a.name.getD "") (b.name.getD "") (c.name.getD "")) exports

/-- What is asked of the table of a directory. -/
structure Assigned (base : Nat) (exports : List Export) (slots : Slots) : Prop where
  /-- Every export has one place, and there is nothing else. -/
  placed : slots.placed.Perm exports
  /-- An ordinal is a place. -/
  pinned : ∀ e ∈ exports, ∀ n, e.ordinal = some n → slots[n.toNat - base]? = some (some e)
  /-- The exports without an ordinal are in the lowest places that no ordinal takes, in order. -/
  filled : ∃ rest, StableOrder byNameBytes (exports.filter (·.ordinal.isNone)) rest ∧
    ∀ i, i ∉ takenPlaces base exports →
      slots[i]?.join = rest[Nat.count (· ∉ takenPlaces base exports) i]?
  /-- There are no more places than that takes. -/
  length : slots.length = ((takenPlaces base exports).map (· + 1)).foldl max exports.length
  last : slots.getLast? ≠ some none

theorem assigned_of_eq_ok {base : Nat} {exports : List Export} {slots : Slots}
    (h : assignSlots exports base = .ok slots) : Assigned base exports slots := by
  have hpinned : ∀ e ∈ exports, ∀ n, e.ordinal = some n → slots[n.toNat - base]? = some (some e) :=
    fun e he n hn => (getElem?_assignSlots h he hn).2
  have hplaced := perm_assignSlots h
  obtain ⟨pinned, hpins, hfill⟩ := bind_eq_ok.1 h
  cases hfill
  have hfree : ∀ i, pinned[i]?.join = none ↔ i ∉ takenPlaces base exports := by
    refine fun i => ⟨fun hnone hmem => ?_, fun hi => join_pinExports hpins hi⟩
    obtain ⟨e, he, n, hn, rfl⟩ := mem_takenPlaces.1 hmem
    rw [((getElem?_pinExports hpins).2 e he n hn).2] at hnone
    cases hnone
  refine ⟨hplaced, hpinned, ⟨_, stableOrder_byNameBytes _, fun i hi => ?_⟩, ?_, ?_⟩
  · rw [join_fillSlots _ ((hfree i).2 hi)]
    simp only [hfree]
  · -- both passes together place all exports
    have htotal := hplaced.length_eq
    rw [(perm_fillSlots _ _).length_eq, List.length_append] at htotal
    calc (fillSlots pinned _).length
        = max pinned.length exports.length := by rw [length_fillSlots, htotal]
      _ = max exports.length (((takenPlaces base exports).map (· + 1)).foldl max 0) := by
          rw [length_pinExports hpins, List.length_nil, max_comm]
      _ = ((takenPlaces base exports).map (· + 1)).foldl max (max exports.length 0) :=
          List.foldl_assoc.symm
      _ = _ := by rw [Nat.max_zero]
  · have hnil : Slots.Ends [] := fun i hi => absurd hi (Nat.succ_ne_zero i)
    exact (ends_fillSlots (ends_pinExports hnil hpins) _).getLast?

/-- **The table of a directory.**  There is none exactly if an ordinal is below the base or comes
twice.  Otherwise every export has one place: its ordinal, if it has one; and the others fill the
lowest places that are left, in the order of the bytes of their names. -/
theorem assignSlots_places (exports : List Export) (base : Nat) :
    ((∃ err, assignSlots exports base = .error err) ↔
      (∃ n ∈ ordinals exports, n.toNat < base) ∨ ¬(ordinals exports).Nodup) ∧
    ((∀ n ∈ ordinals exports, base ≤ n.toNat) → (ordinals exports).Nodup →
      ∃ slots, assignSlots exports base = .ok slots ∧ Assigned base exports slots) := by
  have hok : (∃ slots, assignSlots exports base = .ok slots) ↔
      (∀ n ∈ ordinals exports, base ≤ n.toNat) ∧ (ordinals exports).Nodup := by
    have hpins : (∃ pinned, pinExports base exports [] = .ok pinned) ↔
        (∀ n ∈ ordinals exports, base ≤ n.toNat) ∧ (ordinals exports).Nodup := by
      rw [pinExports_eq_ok]
      exact ⟨fun h => ⟨h.1, h.2.1⟩, fun h => ⟨h.1, h.2, fun _ _ => rfl⟩⟩
    rw [← hpins]
    constructor
    · rintro ⟨slots, hslots⟩
      obtain ⟨pinned, hpinned, -⟩ := bind_eq_ok.1 hslots
      exact ⟨pinned, hpinned⟩
    · rintro ⟨pinned, hpinned⟩
      exact ⟨_, bind_eq_ok.2 ⟨pinned, hpinned, rfl⟩⟩
  constructor
  · have herror : (∃ err, assignSlots exports base = .error err) ↔
        ¬∃ slots, assignSlots exports base = .ok slots := by
      cases assignSlots exports base <;> simp
    rw [herror, hok, not_and_or]
    simp only [not_forall, Nat.not_le, exists_prop]
  · intro hbase hnodup
    obtain ⟨slots, hslots⟩ := hok.2 ⟨hbase, hnodup⟩
    exact ⟨slots, hslots, assigned_of_eq_ok hslots⟩

/-- Two exports with ordinals, which leave a gap and come in the other order, and three without. -/
def scattered : List Export :=
  [⟨some "b", .address (.const 1), none⟩, ⟨some "late", .address (.const 2), some 8⟩,
    ⟨some "a", .address (.const 3), none⟩, ⟨some "early", .address (.const 4), some 6⟩,
    ⟨some "b", .address (.const 5), none⟩]

theorem assignSlots_places_scattered :
    (∀ n ∈ ordinals scattered, 5 ≤ n.toNat) ∧ (ordinals scattered).Nodup ∧
    ∃ slots, assignSlots scattered 5 = .ok slots ∧ Assigned 5 scattered slots ∧
      slots.length = 5 ∧ slots[3]? = some (some ⟨some "late", .address (.const 2), some 8⟩) := by
  have hordinals : ordinals scattered = [8, 6] := rfl
  have hbase : ∀ n ∈ ordinals scattered, 5 ≤ n.toNat := by simp [hordinals]
  have hnodup : (ordinals scattered).Nodup := by simp [hordinals]
  obtain ⟨slots, hslots, hassigned⟩ := (assignSlots_places scattered 5).2 hbase hnodup
  have hlength : ((takenPlaces 5 scattered).map (· + 1)).foldl max scattered.length = 5 := by
    decide +kernel
  refine ⟨hbase, hnodup, slots, hslots, hassigned, hassigned.length.trans hlength, ?_⟩
  exact hassigned.pinned ⟨some "late", .address (.const 2), some 8⟩ (by decide +kernel) 8 rfl

-- the exports named `b` stay in the order they had
example : assignSlots scattered 5 =
    .ok [some ⟨some "a", .address (.const 3), none⟩, some ⟨some "early", .address (.const 4), some 6⟩,
      some ⟨some "b", .address (.const 1), none⟩, some ⟨some "late", .address (.const 2), some 8⟩,
      some ⟨some "b", .address (.const 5), none⟩] := by
  rfl

end PortableImage
