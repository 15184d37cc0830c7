import PortableImage.Proofs.Growth

/-!
# Merging keeps the layout

A generated section that becomes part of a section makes that one larger, and whatever stands behind
it moves.  So it never becomes part of a section in front of one with a fixed address: as far as that
one, everything stays where it was, and nothing comes too low.

## What is here

* `AddressCursor.placeAll` — the addresses of a list of sections, one after the other.
* `appendSections` — adds generated sections, one after the other.
* `KeepsLayout` — what adding generated sections does to a list of sections: those in front of a
  fixed address are the same, the others have grown, and no new one has a fixed address.
  `keepsLayout_appendSection` is one step of it, `keepsLayout_appendSections` the whole run.
* `KeepsLayout.exists_placeAll` — a list that keeps the layout is placed wherever the first is.
* `placeAll_appendSections` — merging never disturbs the layout.
-/

set_option autoImplicit false

namespace PortableImage

/-! ## Placing a list of sections -/

namespace AddressCursor

/-- The addresses of sections in order, each with its size in memory. -/
def placeAll (c : AddressCursor) : List Section → Except EncodeError (List Nat)
  | [] => .ok []
  | s :: rest => do
    let (address, c) := c.place s.name (s.address.map (·.toNat)) s.sizeInMemory
    let address ← address
    let others ← c.placeAll rest
    return address :: others

/-- The first section has an address, and those behind it have theirs. -/
theorem placeAll_cons {c : AddressCursor} {s : Section} {rest : List Section}
    {addresses : List Nat} :
    c.placeAll (s :: rest) = .ok addresses ↔
      ∃ address others, (c.place s.name (s.address.map (·.toNat)) s.sizeInMemory).1 = .ok address ∧
        (c.place s.name (s.address.map (·.toNat)) s.sizeInMemory).2.placeAll rest = .ok others ∧
        addresses = address :: others := by
  rw [placeAll]
  simp only [bind_eq_ok, pure_eq_ok]
  constructor
  · rintro ⟨address, haddress, others, hothers, rfl⟩
    exact ⟨address, others, haddress, hothers, rfl⟩
  · rintro ⟨address, others, haddress, hothers, rfl⟩
    exact ⟨address, haddress, others, hothers, rfl⟩

/-- The size of a section does not matter for its own address. -/
theorem place_fst_eq (c : AddressCursor) (name : String) (fixed : Option Nat) (size size' : Nat) :
    (c.place name fixed size).1 = (c.place name fixed size').1 := by
  rw [place.eq_def, place.eq_def]
  cases fixed with
  | none => rfl
  | some rva =>
    dsimp only
    split
    · rfl
    · rfl

/-- Sections without fixed addresses can always be placed. -/
theorem exists_placeAll_of_floating {l : List Section} (h : ∀ s ∈ l, s.address = none)
    (c : AddressCursor) : ∃ addresses, c.placeAll l = .ok addresses := by
  induction l generalizing c with
  | nil => exact ⟨[], rfl⟩
  | cons s rest ih =>
    obtain ⟨hs, hrest⟩ := List.forall_mem_cons.1 h
    obtain ⟨others, hothers⟩ := ih hrest (c.place s.name none s.sizeInMemory).2
    refine ⟨c.aligned :: others, placeAll_cons.2 ⟨_, others, ?_, ?_, rfl⟩⟩
    · rw [hs]
      rfl
    · rw [hs]
      exact hothers

end AddressCursor

/-! ## What adding generated sections keeps -/

/-- Adds generated sections in order. -/
def appendSections (l generated : List Section) : List Section :=
  generated.foldl (fun l s => (appendSection l s).1) l

/-- The sections of the first list are those of the second, at the same places, up to content that
stands behind theirs.  In front of a section with a fixed address they are the same.  What else is in
the second list has no fixed address. -/
structure KeepsLayout (l l' : List Section) : Prop where
  kept : ∀ (i : Nat) s, l[i]? = some s →
    ∃ content, s.content.Grows content ∧ l'[i]? = some { s with content }
  before_fixed : ∀ (i j : Nat) s, i < j → l[j]? = some s → s.address.isSome → l'[i]? = l[i]?
  floating : ∀ (i : Nat) s, l.length ≤ i → l'[i]? = some s → s.address = none

namespace KeepsLayout

theorem refl (l : List Section) : KeepsLayout l l where
  kept _ s hs := ⟨s.content, .refl _, hs⟩
  before_fixed _ _ _ _ _ _ := rfl
  floating i s hi hs := by
    rw [List.getElem?_eq_none hi] at hs
    cases hs

theorem trans {l m n : List Section} (hlm : KeepsLayout l m) (hmn : KeepsLayout m n) :
    KeepsLayout l n where
  kept i s hs := by
    obtain ⟨content, hgrows, hm⟩ := hlm.kept i s hs
    obtain ⟨content', hgrows', hn⟩ := hmn.kept i _ hm
    exact ⟨content', hgrows.trans hgrows', hn⟩
  before_fixed i j s hij hs hfixed := by
    obtain ⟨content, -, hm⟩ := hlm.kept j s hs
    rw [hmn.before_fixed i j _ hij hm hfixed, hlm.before_fixed i j s hij hs hfixed]
  floating i s hi hs := by
    -- a section that was added earlier may have grown since
    cases hm : m[i]? with
    | none => exact hmn.floating i s (List.getElem?_eq_none_iff.1 hm) hs
    | some t =>
      obtain ⟨content, -, hn⟩ := hmn.kept i t hm
      rw [hs, Option.some.injEq] at hn
      rw [hn]
      exact hlm.floating i t hi hm

theorem tail {s s' : Section} {rest rest' : List Section}
    (h : KeepsLayout (s :: rest) (s' :: rest')) : KeepsLayout rest rest' where
  kept i := h.kept (i + 1)
  before_fixed i j t hij := h.before_fixed (i + 1) (j + 1) t (Nat.succ_lt_succ hij)
  floating i t hi := h.floating (i + 1) t (Nat.succ_le_succ hi)

/-- Where nothing has a fixed address, nothing gets one. -/
theorem all_floating {l l' : List Section} (h : KeepsLayout l l')
    (hl : ∀ s ∈ l, s.address = none) : ∀ s ∈ l', s.address = none := by
  intro s hs
  obtain ⟨i, hi⟩ := List.mem_iff_getElem?.1 hs
  cases ht : l[i]? with
  | none => exact h.floating i s (List.getElem?_eq_none_iff.1 ht) hi
  | some t =>
    obtain ⟨content, -, hkept⟩ := h.kept i t ht
    rw [hi, Option.some.injEq] at hkept
    rw [hkept]
    exact hl t (List.mem_of_getElem? ht)

end KeepsLayout

/-- Behind a section that is merged into, no section has a fixed address. -/
theorem floating_of_mergeIndex {flags : SectionFlags} {l : List Section} {i j : Nat} {s : Section}
    (h : mergeIndex flags l = some i) (hij : i < j) (hs : l[j]? = some s) : s.address = none := by
  induction l generalizing i j with
  | nil => cases hs
  | cons t rest ih =>
    rw [mergeIndex] at h
    obtain ⟨k, rfl⟩ := Nat.exists_eq_add_one.2 (Nat.zero_lt_of_lt hij)
    rw [List.getElem?_cons_succ] at hs
    split at h
    · next haccepts =>
      rw [Bool.and_eq_true, List.all_eq_true] at haccepts
      exact Option.isNone_iff_eq_none.1 (haccepts.2 s (List.mem_of_getElem? hs))
    · obtain ⟨m, hm, rfl⟩ := Option.map_eq_some_iff.1 h
      exact ih hm (Nat.lt_of_succ_lt_succ hij) hs

/-- Content that becomes part of a section changes nothing in front of a fixed address. -/
theorem keepsLayout_modify {flags : SectionFlags} {l : List Section} {i : Nat}
    (h : mergeIndex flags l = some i) (content : Buffer) :
    KeepsLayout l (l.modify i (·.merge content)) where
  kept j s hs := by
    by_cases hij : i = j
    · subst hij
      refine ⟨s.content.align 8 ++ content,
        (s.content.grows_align 8).trans (Buffer.grows_append _ content), ?_⟩
      rw [List.getElem?_modify_eq, hs]
      rfl
    · exact ⟨s.content, .refl _, by rw [List.getElem?_modify_ne _ _ hij, hs]⟩
  before_fixed j k s hjk hs hfixed := by
    have hle : k ≤ i := Nat.le_of_not_lt fun hik => by
      rw [floating_of_mergeIndex h hik hs] at hfixed
      cases hfixed
    exact List.getElem?_modify_ne _ _ (by omega)
  floating j s hj hs := by
    rw [List.getElem?_eq_none (by rwa [List.length_modify])] at hs
    cases hs

/-- A section behind the others changes none of them. -/
theorem keepsLayout_append (l : List Section) {g : Section} (hg : g.address = none) :
    KeepsLayout l (l ++ [g]) where
  kept i s hs := by
    obtain ⟨hlt, -⟩ := List.getElem?_eq_some_iff.1 hs
    exact ⟨s.content, .refl _, by rw [List.getElem?_append_left hlt, hs]⟩
  before_fixed i j s hij hs _ := by
    obtain ⟨hlt, -⟩ := List.getElem?_eq_some_iff.1 hs
    exact List.getElem?_append_left (Nat.lt_trans hij hlt)
  floating i s hi hs := by
    rw [List.getElem?_append_right hi] at hs
    rw [List.mem_singleton.1 (List.mem_of_getElem? hs), hg]

/-- **Adding a generated section keeps the layout.** -/
theorem keepsLayout_appendSection (l : List Section) {g : Section} (hg : g.address = none) :
    KeepsLayout l (appendSection l g).1 := by
  rw [appendSection]
  cases h : mergeTarget l g with
  | none => exact keepsLayout_append l hg
  | some i =>
    rw [mergeTarget] at h
    split at h
    · exact keepsLayout_modify h g.content
    · cases h

theorem keepsLayout_appendSections (l : List Section) {generated : List Section}
    (h : ∀ g ∈ generated, g.address = none) : KeepsLayout l (appendSections l generated) := by
  induction generated generalizing l with
  | nil => exact .refl l
  | cons g rest ih =>
    obtain ⟨hg, hrest⟩ := List.forall_mem_cons.1 h
    exact (keepsLayout_appendSection l hg).trans (ih (appendSection l g).1 hrest)

/-! ## The addresses -/

/-- **A list that keeps the layout is placed wherever the first one is**, with the same addresses up
to the last one that is fixed. -/
theorem KeepsLayout.exists_placeAll {l l' : List Section} (h : KeepsLayout l l')
    {c : AddressCursor} {addresses : List Nat} (hplaced : c.placeAll l = .ok addresses) :
    ∃ addresses', c.placeAll l' = .ok addresses' ∧
      ∀ (i j : Nat) s, i ≤ j → l[j]? = some s → s.address.isSome →
        addresses'[i]? = addresses[i]? := by
  induction l generalizing l' c addresses with
  | nil =>
    obtain ⟨addresses', hplaced'⟩ :=
      AddressCursor.exists_placeAll_of_floating (h.all_floating fun _ hs => by cases hs) c
    exact ⟨addresses', hplaced', fun i j s _ hs => by cases hs⟩
  | cons s rest ih =>
    obtain ⟨address, others, haddress, hothers, rfl⟩ := AddressCursor.placeAll_cons.1 hplaced
    obtain ⟨content, -, hhead⟩ := h.kept 0 s rfl
    cases l' with
    | nil => cases hhead
    | cons s' rest' =>
      by_cases hfloating : ∀ t ∈ rest, t.address = none
      · -- behind the last fixed address everything may move
        obtain rfl : s' = { s with content } := Option.some.inj hhead
        obtain ⟨others', hothers'⟩ := AddressCursor.exists_placeAll_of_floating
          (h.tail.all_floating hfloating)
          (c.place s.name (s.address.map (·.toNat)) { s with content }.sizeInMemory).2
        rw [c.place_fst_eq _ _ _ { s with content }.sizeInMemory] at haddress
        refine ⟨address :: others',
          AddressCursor.placeAll_cons.2 ⟨address, others', haddress, hothers', rfl⟩,
          fun i j t hij ht hfixed => ?_⟩
        cases j with
        | zero => rw [Nat.le_zero.1 hij, List.getElem?_cons_zero, List.getElem?_cons_zero]
        | succ j =>
          rw [hfloating t (List.mem_of_getElem? ht)] at hfixed
          cases hfixed
      · -- in front of a fixed address the section is as it was
        simp only [not_forall] at hfloating
        obtain ⟨t, ht, hfixed⟩ := hfloating
        obtain ⟨j, hj⟩ := List.mem_iff_getElem?.1 ht
        obtain rfl : s' = s := Option.some.inj
          (h.before_fixed 0 (j + 1) t (Nat.succ_pos j) hj (Option.isSome_iff_ne_none.2 hfixed))
        obtain ⟨others', hothers', hsame⟩ := ih h.tail hothers
        refine ⟨address :: others',
          AddressCursor.placeAll_cons.2 ⟨address, others', haddress, hothers', rfl⟩,
          fun i k u hik hu hfixed => ?_⟩
        cases i with
        | zero => rfl
        | succ i =>
          cases k with
          | zero => omega
          | succ k => exact hsame i k u (Nat.le_of_succ_le_succ hik) hu hfixed

/-- **Merging never disturbs the layout.**  Where sections can be placed, they still can when
generated sections without fixed addresses have been added to them.  Every section up to the last one
with a fixed address keeps its address, and every one in front of that its content; all keep their
places, and what they hold is still at the start of their content. -/
theorem placeAll_appendSections {c : AddressCursor} {l generated : List Section}
    {addresses : List Nat} (hplaced : c.placeAll l = .ok addresses)
    (hgenerated : ∀ g ∈ generated, g.address = none) :
    ∃ addresses', c.placeAll (appendSections l generated) = .ok addresses' ∧
      (∀ (i j : Nat) s, l[j]? = some s → s.address.isSome →
        (i ≤ j → addresses'[i]? = addresses[i]?) ∧
        (i < j → (appendSections l generated)[i]? = l[i]?)) ∧
      ∀ (i : Nat) s, l[i]? = some s → ∃ content, s.content.Grows content ∧
        (appendSections l generated)[i]? = some { s with content } := by
  have hkeeps := keepsLayout_appendSections l hgenerated
  obtain ⟨addresses', hplaced', hsame⟩ := hkeeps.exists_placeAll hplaced
  exact ⟨addresses', hplaced', fun i j s hs hfixed =>
    ⟨fun hij => hsame i j s hij hs hfixed, fun hij => hkeeps.before_fixed i j s hij hs hfixed⟩,
    hkeeps.kept⟩

/-- A section at a fixed address behind another one. -/
def fixedBehind : List Section := [
  .new ".data" (.read ||| .write) (.ofBytes [1, 2, 3, 4]),
  { Section.new ".fixed" .read (.ofBytes [5, 6, 7, 8]) with address := some 0x4000 }]

/-- Content that may be read, and content that may be executed. -/
def readAndExecute : List Section := [
  .new ".edata" .read (.ofBytes [9]),
  .new ".plt" (.read ||| .execute) (.ofBytes [0xc3])]

theorem placeAll_appendSections_fixedBehind :
    ∃ addresses, (AddressCursor.new 0x400000 0x400 0x1000).placeAll
        (appendSections fixedBehind readAndExecute) = .ok addresses ∧
      addresses[0]? = some 0x401000 ∧ addresses[1]? = some 0x404000 ∧
      (appendSections fixedBehind readAndExecute)[0]? = fixedBehind[0]? := by
  have hplaced : (AddressCursor.new 0x400000 0x400 0x1000).placeAll fixedBehind =
      .ok [0x401000, 0x404000] := rfl
  obtain ⟨addresses, hplaced', hfixed, -⟩ :=
    @placeAll_appendSections _ _ readAndExecute _ hplaced (by decide)
  obtain ⟨haddress, hsame⟩ := hfixed 0 1 _ rfl rfl
  obtain ⟨haddress', -⟩ := hfixed 1 1 _ rfl rfl
  exact ⟨addresses, hplaced', haddress (by decide), haddress' (by decide), hsame (by decide)⟩

-- the content that may be read is behind the four bytes of the fixed section, at a multiple of eight
example : (appendSections fixedBehind readAndExecute).map (·.content.data) =
    [[1, 2, 3, 4], [5, 6, 7, 8, 0, 0, 0, 0, 9], [0xc3]] := by decide +kernel

end PortableImage
