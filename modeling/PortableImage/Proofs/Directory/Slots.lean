import Mathlib.Data.List.Perm.Basic
import PortableImage.Directory.Export
import PortableImage.Proofs.Outcome
import PortableImage.Proofs.Sorting
import PortableImage.Proofs.Text.Utf8

/-!
# Places in the address table

Every export gets one place.  Whatever mixture of fixed places and free ones there is, no export is
lost and none stands twice.

* `perm_assignSlots` — the places hold the exports, each once.
* `getElem?_assignSlots` — an export with an ordinal has the place that its ordinal says.
* `mem_namedSlots` — the names with their places.
* `sorted_namedSlots` — the names in the order in which they are written.
-/

set_option autoImplicit false

namespace PortableImage

/-- The exports that have places, in the order of the places. -/
def Slots.placed (slots : Slots) : List Export := slots.filterMap id

theorem Slots.placed_replicate (n : Nat) : Slots.placed (List.replicate n none) = [] := by
  rw [placed, List.filterMap_eq_nil_iff]
  exact fun e he => (List.mem_replicate.1 he).2

theorem Slots.placed_append (slots others : Slots) :
    Slots.placed (slots ++ others) = slots.placed ++ others.placed :=
  List.filterMap_append

/-- Empty places behind the table hold nothing, as all places there. -/
theorem Slots.join_grown (slots : Slots) (n i : Nat) :
    (slots ++ List.replicate n none)[i]?.join = slots[i]?.join := by
  rw [List.getElem?_append]
  split
  · rfl
  · next hi =>
    rw [List.getElem?_eq_none (Nat.le_of_not_lt hi), List.getElem?_replicate]
    split <;> rfl

/-- A free place that an export is put into. -/
theorem Slots.perm_set {slots : Slots} {i : Nat} (hi : i < slots.length)
    (hfree : slots[i]?.join = none) (e : Export) :
    (Slots.placed (slots.set i (some e))).Perm (e :: slots.placed) := by
  induction slots generalizing i with
  | nil => exact nomatch hi
  | cons head rest ih =>
    cases i with
    | zero =>
      obtain rfl : head = none := hfree
      exact .refl _
    | succ i =>
      have hrest := ih (Nat.lt_of_succ_lt_succ hi) hfree
      cases head with
      | none => exact hrest
      | some other => exact (hrest.cons other).trans (.swap e other _)

/-- An export gets its place exactly if its ordinal is not below the base and the place is free; the
table grows as far as that. -/
theorem pinExport_eq_ok {base ordinal : Nat} {slots pinned : Slots} {e : Export} :
    pinExport base slots e ordinal = .ok pinned ↔
      base ≤ ordinal ∧ slots[ordinal - base]?.join = none ∧
      pinned = (slots ++ List.replicate (ordinal - base + 1 - slots.length) none).set
        (ordinal - base) (some e) := by
  rw [pinExport]
  split
  · next hlt =>
    constructor
    · intro h
      cases h
    · exact fun h => absurd h.1 (Nat.not_le_of_lt hlt)
  · next hge =>
    dsimp only
    rw [Slots.join_grown]
    split
    · next htaken =>
      constructor
      · intro h
        cases h
      · rintro ⟨-, hfree, -⟩
        rw [hfree] at htaken
        cases htaken
    · next hfree =>
      rw [Except.ok.injEq, eq_comm]
      exact ⟨fun h => ⟨Nat.le_of_not_lt hge, by simpa using hfree, h⟩, fun h => h.2.2⟩

theorem perm_pinExport {base ordinal : Nat} {slots pinned : Slots} {e : Export}
    (h : pinExport base slots e ordinal = .ok pinned) : pinned.placed.Perm (e :: slots.placed) := by
  obtain ⟨-, hfree, rfl⟩ := pinExport_eq_ok.1 h
  refine (Slots.perm_set ?_ ((Slots.join_grown ..).trans hfree) e).trans ?_
  · rw [List.length_append, List.length_replicate]
    omega
  · rw [Slots.placed_append, Slots.placed_replicate, List.append_nil]

theorem perm_pinExports {base : Nat} {exports : List Export} {slots pinned : Slots}
    (h : pinExports base exports slots = .ok pinned) :
    pinned.placed.Perm (slots.placed ++ exports.filter (·.ordinal.isSome)) := by
  induction exports generalizing slots with
  | nil =>
    cases h
    rw [List.filter_nil, List.append_nil]
  | cons e rest ih =>
    rw [pinExports] at h
    cases hordinal : e.ordinal with
    | none =>
      rw [hordinal] at h
      rw [List.filter_cons_of_neg (by simp [hordinal])]
      exact ih h
    | some ordinal =>
      rw [hordinal] at h
      obtain ⟨next, hnext, hrest⟩ := bind_eq_ok.1 h
      rw [List.filter_cons_of_pos (by simp [hordinal])]
      refine (ih hrest).trans (((perm_pinExport hnext).append_right _).trans ?_)
      exact List.perm_middle.symm

theorem perm_fillSlots (slots : Slots) (exports : List Export) :
    (fillSlots slots exports).placed.Perm (slots.placed ++ exports) := by
  induction slots generalizing exports with
  | nil =>
    cases exports with
    | nil => exact .refl _
    | cons e rest =>
      show (Slots.placed ((e :: rest).map some)).Perm (e :: rest)
      rw [Slots.placed, List.filterMap_map]
      exact .of_eq (List.filterMap_some)
  | cons head slots ih =>
    cases exports with
    | nil =>
      rw [fillSlots, List.append_nil]
    | cons e rest =>
      cases head with
      | some pinned => exact (ih (e :: rest)).cons pinned
      | none => exact ((ih rest).cons e).trans List.perm_middle.symm

/-- **Every export has one place.** -/
theorem perm_assignSlots {exports : List Export} {base : Nat} {slots : Slots}
    (h : assignSlots exports base = .ok slots) : slots.placed.Perm exports := by
  obtain ⟨pinned, hpinned, hfill⟩ := bind_eq_ok.1 h
  cases hfill
  refine (perm_fillSlots _ _).trans ?_
  refine ((perm_pinExports hpinned).append (perm_sortBy nameLe _)).trans ?_
  show ((exports.filter (·.ordinal.isSome)) ++ exports.filter (·.ordinal.isNone)).Perm exports
  have hnone : ∀ e : Export, e.ordinal.isNone = !e.ordinal.isSome := fun e => by
    cases e.ordinal <;> rfl
  simp only [hnone]
  exact List.filter_append_perm _ _

/-- What is in the places once an export is in its own. -/
theorem join_pinExport {base ordinal : Nat} {slots pinned : Slots} {e : Export}
    (h : pinExport base slots e ordinal = .ok pinned) (i : Nat) :
    pinned[i]?.join = if i = ordinal - base then some e else slots[i]?.join := by
  obtain ⟨-, -, rfl⟩ := pinExport_eq_ok.1 h
  rw [List.getElem?_set, List.length_append, List.length_replicate]
  by_cases hi : ordinal - base = i
  · rw [if_pos hi, if_pos (by omega), if_pos hi.symm]
    rfl
  · rw [if_neg hi, Slots.join_grown, if_neg fun heq => hi heq.symm]

/-- What is in a place stays there while others are put into theirs. -/
theorem getElem?_pinExport {base ordinal : Nat} {slots pinned : Slots} {e : Export}
    (h : pinExport base slots e ordinal = .ok pinned) :
    base ≤ ordinal ∧ pinned[ordinal - base]? = some (some e) ∧
      ∀ (i : Nat) x, slots[i]? = some (some x) → pinned[i]? = some (some x) := by
  obtain ⟨hbase, hfree, -⟩ := pinExport_eq_ok.1 h
  refine ⟨hbase, ?_, fun i x hi => ?_⟩
  · rw [← Option.join_eq_some_iff, join_pinExport h, if_pos rfl]
  · rw [← Option.join_eq_some_iff] at hi ⊢
    rw [join_pinExport h, if_neg, hi]
    rintro rfl
    rw [hfree] at hi
    cases hi

theorem getElem?_pinExports {base : Nat} {exports : List Export} {slots pinned : Slots}
    (h : pinExports base exports slots = .ok pinned) :
    (∀ (i : Nat) x, slots[i]? = some (some x) → pinned[i]? = some (some x)) ∧
      ∀ e ∈ exports, ∀ ordinal, e.ordinal = some ordinal →
        base ≤ ordinal.toNat ∧ pinned[ordinal.toNat - base]? = some (some e) := by
  induction exports generalizing slots with
  | nil =>
    cases h
    exact ⟨fun _ _ hi => hi, fun _ he => nomatch he⟩
  | cons e rest ih =>
    rw [pinExports] at h
    cases hordinal : e.ordinal with
    | none =>
      rw [hordinal] at h
      obtain ⟨hkeeps, hrest⟩ := ih h
      exact ⟨hkeeps, List.forall_mem_cons.2 ⟨fun o ho => (nomatch hordinal.symm.trans ho), hrest⟩⟩
    | some ordinal =>
      rw [hordinal] at h
      obtain ⟨next, hnext, hthen⟩ := bind_eq_ok.1 h
      obtain ⟨hbase, hplace, hfirst⟩ := getElem?_pinExport hnext
      obtain ⟨hkeeps, hrest⟩ := ih hthen
      refine ⟨fun i x hi => hkeeps i x (hfirst i x hi), List.forall_mem_cons.2 ⟨fun o ho => ?_, hrest⟩⟩
      cases Option.some.inj (hordinal.symm.trans ho)
      exact ⟨hbase, hkeeps _ _ hplace⟩

theorem getElem?_fillSlots {slots : Slots} {i : Nat} {x : Export} (exports : List Export)
    (h : slots[i]? = some (some x)) : (fillSlots slots exports)[i]? = some (some x) := by
  induction slots generalizing exports i with
  | nil => exact nomatch h
  | cons head slots ih =>
    cases exports with
    | nil =>
      rw [fillSlots]
      exact h
    | cons e rest =>
      cases head with
      | some pinned =>
        cases i with
        | zero => exact h
        | succ i => exact ih (e :: rest) h
      | none =>
        cases i with
        | zero => exact nomatch h
        | succ i => exact ih rest h

/-- **An export with an ordinal has the place that its ordinal says.** -/
theorem getElem?_assignSlots {exports : List Export} {base : Nat} {slots : Slots}
    (h : assignSlots exports base = .ok slots) {e : Export} (he : e ∈ exports) {ordinal : UInt32}
    (hordinal : e.ordinal = some ordinal) :
    base ≤ ordinal.toNat ∧ slots[ordinal.toNat - base]? = some (some e) := by
  obtain ⟨pinned, hpinned, hfill⟩ := bind_eq_ok.1 h
  cases hfill
  obtain ⟨hbase, hplace⟩ := (getElem?_pinExports hpinned).2 e he ordinal hordinal
  exact ⟨hbase, getElem?_fillSlots _ hplace⟩

/-! ## Names with their places -/

theorem namedSlots_eq (slot : Nat) (slots : Slots) :
    namedSlots slot slots = (slots.zipIdx slot).filterMap fun s =>
      (s.1.bind (·.name)).map fun name => (name, s.2) := by
  induction slots generalizing slot with
  | nil => rfl
  | cons e rest ih =>
    rw [namedSlots, List.zipIdx_cons, List.filterMap_cons, ih]
    cases e.bind (·.name) <;> rfl

/-- The names are those of the exports, each with the place of its export. -/
theorem mem_namedSlots {slots : Slots} {name : String} {i : Nat} :
    (name, i) ∈ namedSlots 0 slots ↔ ∃ e, slots[i]? = some (some e) ∧ e.name = some name := by
  rw [namedSlots_eq, List.mem_filterMap]
  constructor
  · rintro ⟨⟨slot, j⟩, hmem, hname⟩
    obtain ⟨found, hfound, heq⟩ := Option.map_eq_some_iff.1 hname
    obtain ⟨e, rfl, he⟩ := Option.bind_eq_some_iff.1 hfound
    cases heq
    exact ⟨e, List.mem_zipIdx_iff_getElem?.1 hmem, he⟩
  · rintro ⟨e, he, hname⟩
    refine ⟨(some e, i), List.mem_zipIdx_iff_getElem?.2 he, ?_⟩
    rw [Option.bind_some, hname]
    rfl

/-- As many names are written as there are exports with a name. -/
theorem length_namedSlots (slot : Nat) (slots : Slots) :
    (namedSlots slot slots).length = slots.placed.countP (·.name.isSome) := by
  induction slots generalizing slot with
  | nil => rfl
  | cons e rest ih =>
    rw [namedSlots]
    cases e with
    | none => exact ih _
    | some e =>
      change _ = List.countP _ (e :: Slots.placed rest)
      rw [List.countP_cons, Option.bind_some]
      cases hname : e.name with
      | none => exact ih _
      | some name => exact congrArg (· + 1) (ih _)

/-- The names are written in the order of their bytes. -/
theorem sorted_namedSlots (slots : Slots) :
    (sortBy namedSlotLe (namedSlots 0 slots)).Pairwise fun a b =>
      Text.utf8 a.1 ≤ Text.utf8 b.1 := by
  let cmp : String × Nat → String × Nat → Ordering :=
    compareLex (compareOn Prod.fst) (compareOn Prod.snd)
  have hsorted := pairwise_sortBy (bne_gt_total cmp) (bne_gt_trans cmp) (namedSlots 0 slots)
  refine hsorted.imp fun {a b} hle => ?_
  change ((compare a.1 b.1).then (compare a.2 b.2) != .gt) = true at hle
  rw [bne_gt_iff_isLE, Ordering.isLE_then_iff_or] at hle
  rw [Text.utf8_le_iff]
  rcases hle with hlt | ⟨heq, -⟩
  · rw [hlt]
    rfl
  · rw [heq]
    rfl

end PortableImage
