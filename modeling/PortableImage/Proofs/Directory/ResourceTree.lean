import Mathlib.Algebra.Group.Nat.Defs
import PortableImage.Directory.Resource
import PortableImage.Proofs.Sorting

/-!
# Resource trees in order

The order of the entries of a level is a linear preorder: names that differ in case only are alike.
Putting a tree in order moves the entries of its levels, and changes nothing else.

* `stableOrder_sortEntries` — the entries of a level are put in a stable order.
* `ResourceDirectory.OrderedAs` — a tree is another one with the entries of every level in a stable
  order; `ResourceDirectory.orderedAs_sorted` says that putting a tree in order gives such a tree.
* `ResourceDirectory.depth`, `ResourceDirectory.SmallIds` — how many levels a tree has; its numbers
  leave the bit free that marks a name.  Both stay when the tree is put in order.
-/

set_option autoImplicit false

namespace PortableImage

/-! ## The order of entries -/

namespace ResourceId

theorem le_total (a b : ResourceId) : a.le b = true ∨ b.le a = true := by
  cases a with
  | name a =>
    cases b with
    | name b => exact bne_gt_total compare (nameKey a) (nameKey b)
    | number b => exact .inl rfl
  | number a =>
    cases b with
    | name b => exact .inr rfl
    | number b =>
      simp only [le, decide_eq_true_eq]
      exact UInt32.le_total a b

theorem le_trans (a b c : ResourceId) (hab : a.le b = true) (hbc : b.le c = true) :
    a.le c = true := by
  cases a with
  | name a =>
    cases c with
    | number c => rfl
    | name c =>
      cases b with
      | name b => exact bne_gt_trans compare (nameKey a) (nameKey b) (nameKey c) hab hbc
      | number b => exact absurd hbc Bool.false_ne_true
  | number a =>
    cases b with
    | name b => exact absurd hab Bool.false_ne_true
    | number b =>
      cases c with
      | name c => exact absurd hbc Bool.false_ne_true
      | number c =>
        simp only [le, decide_eq_true_eq] at *
        exact UInt32.le_trans hab hbc

end ResourceId

/-- **The entries of a level are put in a stable order.** -/
theorem stableOrder_sortEntries (entries : List (ResourceId × ResourceContent)) :
    StableOrder (fun a b => a.1.le b.1) entries (sortEntries entries) :=
  stableOrder_sortBy (fun a b => a.1.le_total b.1) (fun a b c => a.1.le_trans b.1 c.1) entries

/-! ## Every level in order -/

mutual

/-- The second content is the first with the entries of every level below it in a stable order. -/
def ResourceContent.OrderedAs : ResourceContent → ResourceContent → Prop
  | .data bytes codepage reserved, content => content = .data bytes codepage reserved
  | .directory info entries, content => ∃ below ordered, EntriesOrderedAs entries below ∧
      StableOrder (fun a b => a.1.le b.1) below ordered ∧ content = .directory info ordered

/-- The second entries are the first, one by one, with everything below them in order. -/
def EntriesOrderedAs : List (ResourceId × ResourceContent) →
    List (ResourceId × ResourceContent) → Prop
  | [], below => below = []
  | (id, content) :: rest, below => ∃ content' rest', content.OrderedAs content' ∧
      EntriesOrderedAs rest rest' ∧ below = (id, content') :: rest'

end

/-- **The second tree is the first with the entries of every level in a stable order**: names first,
by their lower-case 16-bit units, then numbers. -/
def ResourceDirectory.OrderedAs (d ordered : ResourceDirectory) : Prop :=
  ordered.info = d.info ∧ ∃ below, EntriesOrderedAs d.entries below ∧
    StableOrder (fun a b => a.1.le b.1) below ordered.entries

mutual

theorem ResourceContent.orderedAs_sorted (content : ResourceContent) :
    content.OrderedAs content.sorted := by
  match content with
  | .data _ _ _ => rw [ResourceContent.sorted, ResourceContent.OrderedAs]
  | .directory _ entries =>
    rw [ResourceContent.sorted, ResourceContent.OrderedAs]
    exact ⟨_, _, entriesOrderedAs_sortedEntries entries, stableOrder_sortEntries _, rfl⟩

theorem entriesOrderedAs_sortedEntries (entries : List (ResourceId × ResourceContent)) :
    EntriesOrderedAs entries (sortedEntries entries) := by
  match entries with
  | [] => rw [sortedEntries, EntriesOrderedAs]
  | (_, content) :: rest =>
    rw [sortedEntries, EntriesOrderedAs]
    exact ⟨_, _, content.orderedAs_sorted, entriesOrderedAs_sortedEntries rest, rfl⟩

end

/-- **Putting a tree in order puts every level of it in order.** -/
theorem ResourceDirectory.orderedAs_sorted (d : ResourceDirectory) : d.OrderedAs d.sorted :=
  ⟨rfl, _, entriesOrderedAs_sortedEntries d.entries, stableOrder_sortEntries _⟩

/-! ## Levels and numbers -/

mutual

/-- The levels of what an entry leads to; a resource is one. -/
def ResourceContent.depth : ResourceContent → Nat
  | .directory _ entries => entriesDepth entries + 1
  | .data _ _ _ => 1

/-- The levels below the entries of a level. -/
def entriesDepth : List (ResourceId × ResourceContent) → Nat
  | [] => 0
  | (_, content) :: rest => max content.depth (entriesDepth rest)

end

/-- The levels below the root of a tree. -/
def ResourceDirectory.depth (d : ResourceDirectory) : Nat := entriesDepth d.entries

/-- A number leaves the bit free that marks a name. -/
def ResourceId.Small : ResourceId → Prop
  | name _ => True
  | number id => id.toNat < 2 ^ 31

instance : DecidablePred ResourceId.Small
  | .name _ => .isTrue trivial
  | .number id => inferInstanceAs (Decidable (id.toNat < 2 ^ 31))

mutual

/-- The numbers in what an entry leads to leave the bit free that marks a name. -/
def ResourceContent.SmallIds : ResourceContent → Prop
  | .directory _ entries => SmallEntries entries
  | .data _ _ _ => True

/-- The numbers in the entries of a level leave the bit free that marks a name. -/
def SmallEntries : List (ResourceId × ResourceContent) → Prop
  | [] => True
  | (id, content) :: rest => id.Small ∧ content.SmallIds ∧ SmallEntries rest

end

/-- The numbers in a tree leave the bit free that marks a name. -/
def ResourceDirectory.SmallIds (d : ResourceDirectory) : Prop := SmallEntries d.entries

theorem entriesDepth_le {entries : List (ResourceId × ResourceContent)} {n : Nat} :
    entriesDepth entries ≤ n ↔ ∀ e ∈ entries, e.2.depth ≤ n := by
  induction entries with
  | nil => exact iff_of_true (Nat.zero_le n) fun _ he => nomatch he
  | cons e rest ih => rw [entriesDepth, Nat.max_le, List.forall_mem_cons, ih]

theorem smallEntries_iff {entries : List (ResourceId × ResourceContent)} :
    SmallEntries entries ↔ ∀ e ∈ entries, e.1.Small ∧ e.2.SmallIds := by
  induction entries with
  | nil => exact iff_of_true (by rw [SmallEntries]; trivial) fun _ he => nomatch he
  | cons e rest ih => rw [SmallEntries, List.forall_mem_cons, ih, and_assoc]

/-! ## A tree put in order -/

theorem mem_sortEntries {entries : List (ResourceId × ResourceContent)}
    {e : ResourceId × ResourceContent} : e ∈ sortEntries entries ↔ e ∈ entries :=
  (perm_sortBy _ _).mem_iff

theorem entriesDepth_sortEntries (entries : List (ResourceId × ResourceContent)) :
    entriesDepth (sortEntries entries) = entriesDepth entries := by
  refine Nat.le_antisymm (entriesDepth_le.2 fun e he => ?_) (entriesDepth_le.2 fun e he => ?_)
  · exact entriesDepth_le.1 (Nat.le_refl _) e (mem_sortEntries.1 he)
  · exact entriesDepth_le.1 (Nat.le_refl _) e (mem_sortEntries.2 he)

theorem smallEntries_sortEntries {entries : List (ResourceId × ResourceContent)} :
    SmallEntries (sortEntries entries) ↔ SmallEntries entries := by
  rw [smallEntries_iff, smallEntries_iff]
  exact forall_congr' fun e => imp_congr_left mem_sortEntries

mutual

theorem ResourceContent.depth_sorted (content : ResourceContent) :
    content.sorted.depth = content.depth := by
  match content with
  | .data _ _ _ => rw [ResourceContent.sorted]
  | .directory _ entries =>
    rw [ResourceContent.sorted, ResourceContent.depth, ResourceContent.depth,
      entriesDepth_sortEntries, entriesDepth_sortedEntries]

theorem entriesDepth_sortedEntries (entries : List (ResourceId × ResourceContent)) :
    entriesDepth (sortedEntries entries) = entriesDepth entries := by
  match entries with
  | [] => rw [sortedEntries]
  | (_, content) :: rest =>
    rw [sortedEntries, entriesDepth, entriesDepth, content.depth_sorted,
      entriesDepth_sortedEntries rest]

end

theorem ResourceDirectory.depth_sorted (d : ResourceDirectory) : d.sorted.depth = d.depth :=
  (entriesDepth_sortEntries _).trans (entriesDepth_sortedEntries _)

mutual

theorem ResourceContent.smallIds_sorted {content : ResourceContent} :
    content.sorted.SmallIds ↔ content.SmallIds := by
  match content with
  | .data _ _ _ => rw [ResourceContent.sorted]
  | .directory _ entries =>
    rw [ResourceContent.sorted, ResourceContent.SmallIds, ResourceContent.SmallIds,
      smallEntries_sortEntries, smallEntries_sortedEntries]

theorem smallEntries_sortedEntries {entries : List (ResourceId × ResourceContent)} :
    SmallEntries (sortedEntries entries) ↔ SmallEntries entries := by
  match entries with
  | [] => rw [sortedEntries]
  | (_, content) :: rest =>
    rw [sortedEntries, SmallEntries, SmallEntries, ResourceContent.smallIds_sorted,
      smallEntries_sortedEntries]

end

theorem ResourceDirectory.smallIds_sorted {d : ResourceDirectory} :
    d.sorted.SmallIds ↔ d.SmallIds :=
  smallEntries_sortEntries.trans smallEntries_sortedEntries

end PortableImage
