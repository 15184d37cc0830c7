import PortableImage.Proofs.Encode.Assembly
import PortableImage.Proofs.Relocation.Listing
import PortableImage.Proofs.Relocation.Provisional

/-!
# The tables of base relocations

Every section lists the pending fields that hold addresses in the image, page by page, from a label
at its start on.

* `collectTables_eval` — what all tables say once the labels have values, section by section.
* `listing_collectTables` — what the tables stand for: the addresses of these fields.
* `Assembly.Relocates` — an assembly with the blocks of these tables in a section;
  `Assembly.relocates_addRelocations` says that adding base relocations gives one.
-/

set_option autoImplicit false

namespace PortableImage

/-! ## What the tables of a section stand for -/

/-- The number of the kind of base relocation that changes an address. -/
def addressKind (f : FieldEncoder) : Nat := (addressRelocKind f).raw.toNat

theorem addressKind_ne_zero (f : FieldEncoder) : addressKind f ≠ 0 := by
  unfold addressKind addressRelocKind
  cases f.pe64 <;> decide

/-- Entries that fill up a block are not listed. -/
theorem filter_entries (t : RelocationTable) (page : Nat) :
    (t.entries page).filter (·.kind ≠ 0) =
      (t.relocs.map fun r =>
        (⟨r.kind.raw.toNat, page + r.offset.toNat % pageSize⟩ : FileRelocation)).filter
          (·.kind ≠ 0) := by
  rw [RelocationTable.entries, padRelocs]
  split
  · rfl
  · rw [List.map_append, List.filter_append]
    exact List.append_nil _

/-- What the tables stand for is settled by the addresses of their pages and by their relocations. -/
theorem listing_eq_flatMap (env : String → LinkValue) (tables : List RelocationTable) :
    listing env tables =
      (tables.map fun t => ((t.base.eval env).toNat, t.relocs)).flatMap fun x =>
        (x.2.map fun r =>
          (⟨r.kind.raw.toNat, x.1 + r.offset.toNat % pageSize⟩ : FileRelocation)).filter
            (·.kind ≠ 0) := by
  rw [listing, List.filter_flatMap, List.flatMap_map]
  exact List.flatMap_congr fun t _ => filter_entries t _

/-- The relocations of a table for a page. -/
def pageRelocs (f : FieldEncoder) (page : Nat × List Nat) : List BaseRelocation :=
  page.2.map fun offset => ⟨addressRelocKind f, UInt16.ofNat (offset % pageSize)⟩

/-- A page lists its fields. -/
theorem filter_pageRelocs (f : FieldEncoder) (page : Nat × List Nat) (base : Nat) :
    ((pageRelocs f page).map fun r =>
      (⟨r.kind.raw.toNat, base + r.offset.toNat % pageSize⟩ : FileRelocation)).filter (·.kind ≠ 0) =
      page.2.map fun o => ⟨addressKind f, base + o % pageSize⟩ := by
  rw [pageRelocs, List.map_map, List.filter_eq_self.2]
  · refine List.map_congr_left fun o _ => ?_
    have hoffset : (UInt16.ofNat (o % pageSize)).toNat % pageSize = o % pageSize := by
      have hlt : o % pageSize < pageSize := Nat.mod_lt _ (by decide)
      rw [UInt16.toNat_ofNat', Nat.mod_eq_of_lt (Nat.lt_trans hlt (by decide)), Nat.mod_mod]
    show FileRelocation.mk _ (_ + _) = _
    rw [hoffset]
    rfl
  · intro r hr
    obtain ⟨o, -, rfl⟩ := List.mem_map.1 hr
    exact decide_eq_true (addressKind_ne_zero f)

/-- The page of every offset is among the groups. -/
theorem exists_page {offsets : List Nat} {o : Nat} (ho : o ∈ offsets) :
    ∃ page ∈ groupPages offsets, page.1 = o - o % pageSize := by
  have hmem : (o - o % pageSize, o) ∈ offsets.map fun o => (o - o % pageSize, o) :=
    List.mem_map_of_mem ho
  rw [← flatMap_groupPages Prod.mk] at hmem
  obtain ⟨page, hpage, hin⟩ := List.mem_flatMap.1 hmem
  obtain ⟨x, -, hx⟩ := List.mem_map.1 hin
  exact ⟨page, hpage, (Prod.mk.inj hx).1⟩

/-- An address is that of its page and the offset in the page. -/
theorem toNat_ofSize_page {rva o : Nat}
    (h : (LinkValue.ofSize (rva + (o - o % pageSize))).toNat < 2 ^ 32) :
    (LinkValue.ofSize (rva + (o - o % pageSize))).toNat + o % pageSize =
      (LinkValue.ofSize (rva + o)).toNat := by
  have hlt : o % pageSize < pageSize := Nat.mod_lt _ (by decide)
  have hle : o % pageSize ≤ o := Nat.mod_le _ _
  rw [pageSize] at *
  rw [LinkValue.ofSize, LinkValue.ofSize, BitVec.toNat_ofNat, BitVec.toNat_ofNat] at *
  omega

/-- A section without fields to list stays as it is; any other gets a label at its start. -/
theorem sectionTables_cases (b : Binding) (s : Section) (c : Context) :
    (relocatedOffsets c b s = [] ∧ sectionTables b s c = ((s, []), c)) ∨
    ∃ label c' content, (label, 0) ∈ content.exports ∧ c.Keeps c' ∧
      sectionTables b s c = (({ s with content },
        (groupPages (relocatedOffsets c b s)).map (pageTable c' label)), c') := by
  rw [sectionTables]
  dsimp only
  split
  · next hempty => exact .inl ⟨groupPages_eq_nil (List.isEmpty_iff.1 hempty), rfl⟩
  · exact .inr ⟨_, _, _, Buffer.mem_exports_labelAt c s.content 0 "sect_start",
      c.keeps_labelAt s.content 0 "sect_start", rfl⟩

section Sections

variable {env : String → LinkValue} {b : Binding} {c : Context}

theorem relocatedOffsets_congr {c' : Context} (h : c.Keeps c') (s : Section) :
    relocatedOffsets c' b s = relocatedOffsets c b s := by
  have hneeds : ∀ f, needsRelocation c' b f = needsRelocation c b f := fun f => by
    rw [needsRelocation, needsRelocation, h.1, h.2]
  simp only [relocatedOffsets, hneeds]

/-- **The tables of all sections**, where `rows` are the places of the sections: each page of a
section has its address and its relocations, in order. -/
theorem collectTables_eval {sections : List Section} {rows : List FileSection}
    (hlength : sections.length ≤ rows.length)
    (hstart : ∀ x ∈ (collectTables b sections c).sections.zip rows, ∀ l,
      (l, 0) ∈ x.1.content.exports → env l - env c.start = LinkValue.ofSize x.2.rva) :
    (collectTables b sections c).tables.map (fun t => ((t.base.eval env).toNat, t.relocs)) =
      (sections.zip rows).flatMap fun x => (groupPages (relocatedOffsets c b x.1)).map fun page =>
        ((LinkValue.ofSize (x.2.rva + page.1)).toNat, pageRelocs c.encoder page) := by
  induction sections generalizing c rows with
  | nil => rfl
  | cons s rest ih =>
    cases rows with
    | nil => exact absurd hlength (by simp)
    | cons r rows =>
      rw [collectTables] at hstart ⊢
      dsimp only at hstart ⊢
      have hkeeps := keeps_sectionTables b s c
      rw [List.zip_cons_cons, List.forall_mem_cons] at hstart
      obtain ⟨hfirst, hrest⟩ := hstart
      rw [← hkeeps.2] at hrest
      rw [List.map_append, ih (Nat.le_of_succ_le_succ hlength) hrest, List.zip_cons_cons,
        List.flatMap_cons, hkeeps.1]
      simp only [relocatedOffsets_congr hkeeps]
      refine congrArg (· ++ _) ?_
      obtain ⟨hnone, htables⟩ | ⟨label, c', content, hlabel, hkeeps', htables⟩ :=
        sectionTables_cases b s c
      · rw [htables, hnone]
        rfl
      · rw [htables] at hfirst ⊢
        rw [List.map_map]
        refine List.map_congr_left fun page _ => Prod.ext ?_ ?_
        · show (env label - env c'.start + LinkValue.ofSize page.1).toNat = _
          rw [hkeeps'.2, hfirst label hlabel, LinkValue.ofSize, LinkValue.ofSize, LinkValue.ofSize,
            BitVec.ofNat_add]
        · show page.2.map _ = page.2.map _
          rw [hkeeps'.1]

/-- **The tables of all sections list the addresses of all fields**, where `rows` are the places of
the sections. -/
theorem listing_collectTables {sections : List Section} {rows : List FileSection}
    (hlength : sections.length ≤ rows.length)
    (hstart : ∀ x ∈ (collectTables b sections c).sections.zip rows, ∀ l,
      (l, 0) ∈ x.1.content.exports → env l - env c.start = LinkValue.ofSize x.2.rva)
    (hsmall : ∀ t ∈ (collectTables b sections c).tables, (t.base.eval env).toNat < 2 ^ 32) :
    listing env (collectTables b sections c).tables =
      (sections.zip rows).flatMap fun x => (relocatedOffsets c b x.1).map fun o =>
        ⟨addressKind c.encoder, (LinkValue.ofSize (x.2.rva + o)).toNat⟩ := by
  have heval := collectTables_eval hlength hstart
  have hpages : ∀ x ∈ sections.zip rows, ∀ page ∈ groupPages (relocatedOffsets c b x.1),
      (LinkValue.ofSize (x.2.rva + page.1)).toNat < 2 ^ 32 := by
    intro x hx page hpage
    have hmem : ((LinkValue.ofSize (x.2.rva + page.1)).toNat, pageRelocs c.encoder page) ∈
        (collectTables b sections c).tables.map fun t => ((t.base.eval env).toNat, t.relocs) := by
      rw [heval]
      exact List.mem_flatMap.2 ⟨x, hx, List.mem_map.2 ⟨page, hpage, rfl⟩⟩
    obtain ⟨t, ht, heq⟩ := List.mem_map.1 hmem
    rw [← (Prod.mk.inj heq).1]
    exact hsmall t ht
  rw [listing_eq_flatMap, heval, List.flatMap_assoc]
  refine List.flatMap_congr fun x hx => ?_
  rw [List.flatMap_map]
  simp only [filter_pageRelocs]
  rw [flatMap_groupPages fun page o => FileRelocation.mk (addressKind c.encoder)
    ((LinkValue.ofSize (x.2.rva + page)).toNat + o % pageSize)]
  refine List.map_congr_left fun o ho => ?_
  obtain ⟨page, hpage, hfirst⟩ := exists_page ho
  rw [toNat_ofSize_page (hfirst ▸ hpages x hx page hpage)]

/-- The page of every table is counted from the start of a section. -/
theorem base_of_mem_collectTables {sections : List Section} {t : RelocationTable}
    (ht : t ∈ (collectTables b sections c).tables) :
    ∃ label page, t.base = .label label - .label c.start + .ofSize page ∧
      ∃ s ∈ (collectTables b sections c).sections, (label, 0) ∈ s.content.exports := by
  induction sections generalizing c with
  | nil => exact nomatch ht
  | cons s rest ih =>
    have hkeeps := keeps_sectionTables b s c
    rw [collectTables] at ht ⊢
    dsimp only at ht ⊢
    rcases List.mem_append.1 ht with ht | ht
    · obtain ⟨-, htables⟩ | ⟨label, c', content, hlabel, hkeeps', htables⟩ :=
        sectionTables_cases b s c
      · rw [htables] at ht
        exact nomatch ht
      · rw [htables] at ht ⊢
        obtain ⟨page, -, rfl⟩ := List.mem_map.1 ht
        refine ⟨label, page.1, ?_, _, List.mem_cons_self, hlabel⟩
        rw [pageTable, hkeeps'.2]
    · obtain ⟨label, page, hbase, u, hu, hlabel⟩ := ih ht
      exact ⟨label, page, hkeeps.2 ▸ hbase, u, List.mem_cons_of_mem _ hu, hlabel⟩

end Sections

/-! ## The section with the blocks -/

namespace Assembly

/-- The assembly `a` is `a₀` with base relocations: the tables of its sections, under provisional
values of the labels, stand as blocks in `content`, which has the label `label` at its start. -/
structure Relocates (a₀ a : Assembly) (b : Binding) (tables : List RelocationTable)
    (content : Buffer) (label : String) : Prop where
  provisional :
    provisionalBinding (.label a₀.context.start) .empty a₀.image.sections = .ok b
  collected : tables = if (collectTables b a₀.image.sections a₀.context).tables.isEmpty
    then [⟨.const 0, []⟩] else (collectTables b a₀.image.sections a₀.context).tables
  blocks : content.Blocks a₀.context.encoder tables
  start : (label, 0) ∈ content.exports
  directory : a.image.directory? .baseRelocationTable =
    some ⟨.label label - .label a₀.context.start, .ofSize content.virtSize⟩
  sections : a.image.sections = (appendSection
    (collectTables b a₀.image.sections a₀.context).sections
    (.new ".reloc" (.read ||| .discardable) content)).1
  inPlace : a.tablesInPlace = a₀.tablesInPlace

section Relocates

variable {a₀ a : Assembly} {b : Binding} {tables : List RelocationTable} {content : Buffer}
  {label : String} (h : a₀.Relocates a b tables content label)

include h

/-- The block that stands for no table lists nothing. -/
theorem Relocates.listing_eq (env : String → LinkValue) :
    listing env tables =
      listing env (collectTables b a₀.image.sections a₀.context).tables := by
  rw [h.collected]
  split
  · next hempty =>
    rw [List.isEmpty_iff.1 hempty]
    rfl
  · rfl

/-- The blocks are put behind what is in the sections. -/
theorem Relocates.sectionsGrow : SectionsGrow
    (collectTables b a₀.image.sections a₀.context).sections a.image.sections := by
  rw [h.sections]
  exact sectionsGrow_appendSection _ (h.blocks.inside.written h.blocks.tail)

theorem Relocates.mem_of_collected {t : RelocationTable}
    (ht : t ∈ (collectTables b a₀.image.sections a₀.context).tables) : t ∈ tables := by
  rw [h.collected, if_neg]
  · exact ht
  · rw [List.isEmpty_iff]
    exact List.ne_nil_of_mem ht

end Relocates

theorem relocates_addRelocations {a₀ a₁ a : Assembly} {options : EncodeOptions}
    (hwants : options.wantsRelocations = true)
    (h₁ : (a₀.findRelocations options).result = .ok a₁) (h₂ : a₁.addRelocations.result = .ok a) :
    ∃ b tables content label, a₀.Relocates a b tables content label := by
  rw [findRelocations, if_pos hwants] at h₁
  simp only [relocationTables, Logged.bind_eq_ok, Logged.result_liftM, Logged.result_pure,
    Except.ok.injEq] at h₁
  obtain ⟨r, ⟨b, hb, _, -, rfl⟩, rfl⟩ := h₁
  simp only [addRelocations, Logged.bind_eq_ok, Logged.result_liftM] at h₂
  obtain ⟨blocks, hblocks, h₂⟩ := h₂
  have hkeeps := keeps_collectTables b a₀.image.sections a₀.context
  have hrecords := blocks_encodeRelocations hblocks
  rw [hkeeps.1] at hrecords
  rw [result_addSection] at h₂
  cases h₂
  have hlabelled := Buffer.labelled_labelAt
    (collectTables b a₀.image.sections a₀.context).context blocks 0 "reloc_table"
  refine ⟨b, _, _, _, hb, rfl, hrecords.labelled hlabelled, Buffer.mem_exports_labelAt _ blocks 0
    "reloc_table", ?_, rfl, rfl⟩
  rw [hlabelled.virtSize_eq, ← hkeeps.2]
  exact directory?_setDirectory _ _ _

end Assembly

end PortableImage
