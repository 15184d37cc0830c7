import PortableImage.Proofs.Directory.ResourceTree
import PortableImage.Proofs.Directory.SlotAssignment

/-!
# Directories do not depend on the order of their descriptions

A description lists exports, and the entries of every level of a resource tree, in some order; what is
written is sorted.  So two descriptions that differ only in the order are written alike, as long as the
order that is written is never that of the description: no two exports without an ordinal have the same
name, and no two entries of a level are sorted alike.

## What is here

* `Assigned.eq_of_perm` — what is asked of the table of the exports leaves no choice.
* `encodeExports_of_perm` — an export directory is written if the reordered one is, and is the same.
* `ResourceContent.Reordered` — trees whose levels are permutations of each other, from the root down;
  `sorted_eq` puts both into the same order.
* `encodeDirectories_reordered` — **both directories**, with the context that they leave behind.
-/

set_option autoImplicit false

namespace PortableImage

/-! ## Exports -/

/-- The names of the exports without an ordinal; no name is an empty one. -/
def floatingNames (exports : List Export) : List String :=
  (exports.filter (·.ordinal.isNone)).map (·.name.getD "")

section Exports

variable {base : Nat} {exports exports' : List Export} {slots slots' : Slots}

theorem perm_ordinals (h : exports.Perm exports') : (ordinals exports).Perm (ordinals exports') :=
  h.filterMap _

theorem perm_takenPlaces (base : Nat) (h : exports.Perm exports') :
    (takenPlaces base exports).Perm (takenPlaces base exports') :=
  (perm_ordinals h).map _

theorem byNameBytes_antisymm {a b : Export} (hab : byNameBytes a b = true)
    (hba : byNameBytes b a = true) : a.name.getD "" = b.name.getD "" :=
  Text.utf8_injective (List.le_antisymm (of_decide_eq_true hab) (of_decide_eq_true hba))

/-- The exports without an ordinal have only one stable order. -/
theorem stableOrder_unique (hnames : (floatingNames exports).Nodup) (h : exports.Perm exports')
    {rest rest' : List Export}
    (hrest : StableOrder byNameBytes (exports.filter (·.ordinal.isNone)) rest)
    (hrest' : StableOrder byNameBytes (exports'.filter (·.ordinal.isNone)) rest') : rest = rest' := by
  have hperm : rest.Perm rest' := hrest.perm.trans ((h.filter _).trans hrest'.perm.symm)
  refine eq_of_perm_of_pairwise (fun e : Export => e.name.getD "")
    (fun _ _ => byNameBytes_antisymm) ?_ hperm hrest.inOrder hrest'.inOrder
  exact (hrest.perm.map _).nodup_iff.2 hnames

/-- Tables of the same size with the same in every place are equal. -/
theorem Slots.ext_join (hlength : slots.length = slots'.length)
    (h : ∀ i : Nat, slots[i]?.join = slots'[i]?.join) : slots = slots' := by
  refine List.ext_getElem hlength fun i hi hi' => ?_
  have hjoin := h i
  rwa [List.getElem?_eq_getElem hi, List.getElem?_eq_getElem hi'] at hjoin

/-- **What is asked of the table leaves no choice**, in whatever order the exports are. -/
theorem Assigned.eq_of_perm (hslots : Assigned base exports slots)
    (hslots' : Assigned base exports' slots') (h : exports.Perm exports')
    (hnames : (floatingNames exports).Nodup) : slots = slots' := by
  have htaken := perm_takenPlaces base h
  obtain ⟨rest, hrest, hfilled⟩ := hslots.filled
  obtain ⟨rest', hrest', hfilled'⟩ := hslots'.filled
  obtain rfl := stableOrder_unique hnames h hrest hrest'
  refine Slots.ext_join ?_ fun i => ?_
  · rw [hslots.length, hslots'.length, h.length_eq]
    exact (htaken.map _).foldl_eq _
  · by_cases hi : i ∈ takenPlaces base exports
    · obtain ⟨e, he, n, hn, rfl⟩ := mem_takenPlaces.1 hi
      rw [hslots.pinned e he n hn, hslots'.pinned e (h.mem_iff.1 he) n hn]
    · rw [hfilled i hi, hfilled' i fun hmem => hi (htaken.mem_iff.2 hmem)]
      simp only [htaken.mem_iff]

/-- Whether every export gets a place does not depend on the order. -/
theorem exists_assignSlots_of_perm (h : exports.Perm exports')
    (hslots : assignSlots exports base = .ok slots) :
    ∃ slots', assignSlots exports' base = .ok slots' := by
  obtain ⟨pinned, hpinned, -⟩ := bind_eq_ok.1 hslots
  obtain ⟨hbase, hnodup, -⟩ := pinExports_eq_ok.1 ⟨pinned, hpinned⟩
  have hordinals := perm_ordinals h
  obtain ⟨pinned', hpinned'⟩ : ∃ pinned', pinExports base exports' [] = .ok pinned' :=
    pinExports_eq_ok.2
      ⟨fun n hn => hbase n (hordinals.mem_iff.2 hn), hordinals.nodup_iff.1 hnodup, fun _ _ => rfl⟩
  exact ⟨_, bind_eq_ok.2 ⟨pinned', hpinned', rfl⟩⟩

theorem assignSlots_of_perm (h : exports.Perm exports') (hnames : (floatingNames exports).Nodup)
    (hslots : assignSlots exports base = .ok slots) : assignSlots exports' base = .ok slots := by
  obtain ⟨slots', hslots'⟩ := exists_assignSlots_of_perm h hslots
  rw [hslots', (assigned_of_eq_ok hslots).eq_of_perm (assigned_of_eq_ok hslots') h hnames]

/-- **An export directory is written as the reordered one is.** -/
theorem encodeExports_of_perm {context : Context} {dir : ExportDirectory} {now : UInt32}
    {r : Buffer × Context} (h : dir.exports.Perm exports') (hnames : (floatingNames dir.exports).Nodup)
    (hr : encodeExports context dir now = .ok r) :
    encodeExports context { dir with exports := exports' } now = .ok r := by
  obtain ⟨slots, hslots, hrest⟩ := bind_eq_ok.1 hr
  refine bind_eq_ok.2 ⟨slots, assignSlots_of_perm h hnames hslots, ?_⟩
  rw [h.countP_eq] at hrest
  exact hrest

end Exports

/-! ## Resources -/

/-- What an entry is sorted by: its name or its number. -/
def ResourceId.key : ResourceId → List Nat ⊕ UInt32
  | name a => .inl (nameKey a)
  | number a => .inr a

theorem ResourceId.key_eq_of_le {a b : ResourceId} (hab : a.le b = true) (hba : b.le a = true) :
    a.key = b.key := by
  cases a with
  | name a =>
    cases b with
    | name b =>
      have heq : compare (nameKey a) (nameKey b) = .eq :=
        Std.OrientedCmp.isLE_antisymm ((bne_gt_iff_isLE _).1 hab) ((bne_gt_iff_isLE _).1 hba)
      exact congrArg Sum.inl (Std.LawfulEqCmp.eq_of_compare heq)
    | number b => exact absurd hba Bool.false_ne_true
  | number a =>
    cases b with
    | name b => exact absurd hab Bool.false_ne_true
    | number b =>
      refine congrArg Sum.inr (UInt32.le_antisymm ?_ ?_)
      · simpa [le] using hab
      · simpa [le] using hba

/-- What the entries of a level are sorted by. -/
def entryKeys (entries : List (ResourceId × ResourceContent)) : List (List Nat ⊕ UInt32) :=
  entries.map (·.1.key)

theorem sortEntries_of_perm {entries entries' : List (ResourceId × ResourceContent)}
    (hkeys : (entryKeys entries).Nodup) (h : entries.Perm entries') :
    sortEntries entries' = sortEntries entries := by
  have horder := stableOrder_sortEntries entries
  have horder' := stableOrder_sortEntries entries'
  refine (eq_of_perm_of_pairwise (fun e => e.1.key) (fun a b => ResourceId.key_eq_of_le) ?_
    (horder.perm.trans (h.trans horder'.perm.symm)) horder.inOrder horder'.inOrder).symm
  exact (horder.perm.map _).nodup_iff.2 hkeys

mutual

/-- No two entries of a level are sorted alike. -/
def ResourceContent.KeysDiffer : ResourceContent → Prop
  | .directory _ entries => (entryKeys entries).Nodup ∧ KeysDifferBelow entries
  | .data _ _ _ => True

/-- No two entries of a level below the entries are sorted alike. -/
def KeysDifferBelow : List (ResourceId × ResourceContent) → Prop
  | [] => True
  | (_, content) :: rest => content.KeysDiffer ∧ KeysDifferBelow rest

end

mutual

/-- The levels of the second tree are permutations of those of the first. -/
inductive ResourceContent.Reordered : ResourceContent → ResourceContent → Prop
  | data (bytes : List UInt8) (codepage reserved : UInt32) :
    ResourceContent.Reordered (.data bytes codepage reserved) (.data bytes codepage reserved)
  | directory (info : ResourceInfo) {entries below entries' : List (ResourceId × ResourceContent)} :
    ReorderedBelow entries below → below.Perm entries' →
    ResourceContent.Reordered (.directory info entries) (.directory info entries')

/-- The entries are the same one by one, but for the order of the levels below them. -/
inductive ReorderedBelow : List (ResourceId × ResourceContent) →
    List (ResourceId × ResourceContent) → Prop
  | nil : ReorderedBelow [] []
  | cons (id : ResourceId) {content content' : ResourceContent}
      {rest rest' : List (ResourceId × ResourceContent)} :
    ResourceContent.Reordered content content' → ReorderedBelow rest rest' →
    ReorderedBelow ((id, content) :: rest) ((id, content') :: rest')

end

theorem sortedEntries_eq_map (entries : List (ResourceId × ResourceContent)) :
    sortedEntries entries = entries.map fun e => (e.1, e.2.sorted) := by
  induction entries with
  | nil => rw [sortedEntries, List.map_nil]
  | cons e rest ih => rw [sortedEntries, ih, List.map_cons]

theorem entryKeys_sortedEntries (entries : List (ResourceId × ResourceContent)) :
    entryKeys (sortedEntries entries) = entryKeys entries := by
  rw [sortedEntries_eq_map, entryKeys, List.map_map]
  rfl

mutual

/-- **Reordered trees are put into the same order.** -/
theorem ResourceContent.Reordered.sorted_eq {content content' : ResourceContent}
    (h : content.Reordered content') (hkeys : content.KeysDiffer) :
    content'.sorted = content.sorted := by
  match h with
  | .data _ _ _ => rfl
  | .directory info hbelow hperm =>
    rw [ResourceContent.KeysDiffer] at hkeys
    have hsorted := hbelow.sortedEntries_eq hkeys.2
    rw [ResourceContent.sorted, ResourceContent.sorted, ← hsorted]
    congr 1
    refine sortEntries_of_perm ?_ ?_
    · rw [hsorted, entryKeys_sortedEntries]
      exact hkeys.1
    · rw [sortedEntries_eq_map, sortedEntries_eq_map]
      exact hperm.map _

theorem ReorderedBelow.sortedEntries_eq {entries below : List (ResourceId × ResourceContent)}
    (h : ReorderedBelow entries below) (hkeys : KeysDifferBelow entries) :
    sortedEntries below = sortedEntries entries := by
  match h with
  | .nil => rfl
  | .cons id hcontent hrest =>
    rw [KeysDifferBelow] at hkeys
    rw [sortedEntries, sortedEntries, hcontent.sorted_eq hkeys.1, hrest.sortedEntries_eq hkeys.2]

end

/-- A tree as what an entry leads to. -/
def ResourceDirectory.content (d : ResourceDirectory) : ResourceContent := .directory d.info d.entries

theorem ResourceDirectory.content_sorted (d : ResourceDirectory) :
    d.sorted.content = d.content.sorted := by
  rw [content, content, ResourceContent.sorted]
  rfl

/-- **A resource directory is written as the reordered one is.** -/
theorem encodeResources_of_reordered (context : Context) {root root' : ResourceDirectory}
    (hkeys : root.content.KeysDiffer) (h : root.content.Reordered root'.content) :
    encodeResources context root' = encodeResources context root := by
  have hcontent : root'.sorted.content = root.sorted.content := by
    rw [root'.content_sorted, root.content_sorted, h.sorted_eq hkeys]
  have hsorted : root'.sorted = root.sorted := by
    injection hcontent with hinfo hentries
    rw [ResourceDirectory.mk.injEq]
    exact ⟨hinfo, hentries⟩
  rw [encodeResources, encodeResources, hsorted]

/-! ## Both directories -/

/-- **Directories do not depend on the order of their descriptions.**  If no two exports without an
ordinal have the same name, then whatever is written of an export directory is written of a
permutation of its exports.  If no two entries of a level of a resource tree are sorted alike, then the
same is written of every tree whose levels are permutations of its levels.  In both cases the context is
the same afterwards, too. -/
theorem encodeDirectories_reordered (context : Context) :
    (∀ (dir : ExportDirectory) (exports' : List Export) (now : UInt32),
      (floatingNames dir.exports).Nodup → dir.exports.Perm exports' →
      ∀ r, encodeExports context { dir with exports := exports' } now = .ok r ↔
        encodeExports context dir now = .ok r) ∧
    (∀ root root' : ResourceDirectory, root.content.KeysDiffer →
      root.content.Reordered root'.content →
      encodeResources context root' = encodeResources context root) := by
  refine ⟨fun dir exports' now hnames h r => ⟨fun hr => ?_, encodeExports_of_perm h hnames⟩,
    fun root root' => encodeResources_of_reordered context⟩
  have hnames' : (floatingNames exports').Nodup := ((h.filter _).map _).nodup_iff.1 hnames
  have hback : encodeExports context
      { { dir with exports := exports' } with exports := dir.exports } now = .ok r :=
    encodeExports_of_perm h.symm hnames' hr
  exact hback

/-- Exports with and without ordinals, one of them without a name, one a forwarder. -/
def mixedDirectory : ExportDirectory where
  reserved := 0
  timestamp := none
  major := 0
  minor := 0
  libraryName := none
  ordinalBase := some 5
  exports :=
    [⟨some "b", .address (.label "b_impl"), none⟩,
      ⟨some "late", .forwarder "k32" (.name "Beep"), some 8⟩,
      ⟨none, .address (.const 3), none⟩, ⟨some "early", .address (.const 4), some 6⟩]

/-- A resource next to a level with two more, with numbers in front of names. -/
def numbersFirst : ResourceDirectory :=
  ⟨⟨0, 0, 0, 0⟩, [(.number 3, .data [1] 0 0),
    (.name "b", .directory ⟨0, 0, 0, 0⟩ [(.number 9, .data [2] 0 0), (.name "A", .data [3] 0 0)])]⟩

/-- The same tree with the names in front. -/
def namesFirst : ResourceDirectory :=
  ⟨⟨0, 0, 0, 0⟩, [
    (.name "b", .directory ⟨0, 0, 0, 0⟩ [(.name "A", .data [3] 0 0), (.number 9, .data [2] 0 0)]),
    (.number 3, .data [1] 0 0)]⟩

theorem reordered_namesFirst : numbersFirst.content.Reordered namesFirst.content := by
  refine .directory _ (.cons _ (.data _ _ _) (.cons _ ?_ .nil)) (.swap _ _ _)
  exact .directory _ (.cons _ (.data _ _ _) (.cons _ (.data _ _ _) .nil)) (.swap _ _ _)

theorem encodeDirectories_reordered_mixed :
    let context := Context.new .empty ⟨.little, false⟩
    let reversed := { mixedDirectory with exports := mixedDirectory.exports.reverse }
    (floatingNames mixedDirectory.exports).Nodup ∧ mixedDirectory.exports.Perm reversed.exports ∧
    numbersFirst.content.KeysDiffer ∧ numbersFirst.content.Reordered namesFirst.content ∧
    (∃ r, encodeExports context mixedDirectory 0 = .ok r ∧ encodeExports context reversed 0 = .ok r) ∧
    encodeResources context namesFirst = encodeResources context numbersFirst := by
  intro context reversed
  have hnames : (floatingNames mixedDirectory.exports).Nodup := by decide +kernel
  have hperm : mixedDirectory.exports.Perm reversed.exports := (List.reverse_perm _).symm
  have hkeys : numbersFirst.content.KeysDiffer := by
    simp only [ResourceDirectory.content, numbersFirst, ResourceContent.KeysDiffer, KeysDifferBelow,
      and_true, true_and]
    decide +kernel
  obtain ⟨hexports, hresources⟩ := encodeDirectories_reordered context
  have hok : (encodeExports context mixedDirectory 0).toOption.isSome = true := by decide +kernel
  obtain ⟨r, hr⟩ := Option.isSome_iff_exists.1 hok
  rw [toOption_eq_some] at hr
  exact ⟨hnames, hperm, hkeys, reordered_namesFirst,
    ⟨r, hr, (hexports mixedDirectory _ 0 hnames hperm r).2 hr⟩,
    hresources _ _ hkeys reordered_namesFirst⟩

end PortableImage
