import PortableImage.Proofs.Field.Settled
import PortableImage.Proofs.Relocation.Synthesis

/-!
# Blocks of pages

Every block is for a page of a section, and lists some fields of that page.

* `mem_groupPages` — a group of offsets is never empty, and all of them are in one page.
* `exists_encodeRelocationTable` — the block of a page can be written.
* `RelocationTable.becomes` — its values, once the address of the page is known.
* `FileView.BlockAt` — what a reader expects of a block; `blockAt_of_reads` says that it is so.
-/

set_option autoImplicit false

namespace PortableImage

/-! ## Groups of offsets -/

/-- **A group has offsets, in the order they were given, and all of them are in its page.** -/
theorem mem_groupPages {offsets : List Nat} {page : Nat × List Nat}
    (h : page ∈ groupPages offsets) :
    page.2 ≠ [] ∧ page.2.Sublist offsets ∧ ∀ o ∈ page.2, o - o % pageSize = page.1 := by
  induction offsets generalizing page with
  | nil => exact nomatch h
  | cons offset rest ih =>
    -- a group that stands alone, for the page of the first offset
    have halone : [offset] ≠ [] ∧ [offset].Sublist (offset :: rest) ∧
        ∀ o ∈ [offset], o - o % pageSize = offset - offset % pageSize :=
      ⟨List.cons_ne_nil _ _, List.Sublist.cons_cons _ (List.nil_sublist _), fun o ho => by
        rw [List.mem_singleton.1 ho]⟩
    rw [groupPages] at h
    cases hpages : groupPages rest with
    | nil =>
      rw [hpages] at h
      rw [List.mem_singleton.1 h]
      exact halone
    | cons first pages =>
      obtain ⟨p, offsets⟩ := first
      rw [hpages] at ih h
      obtain ⟨-, hsub, hin⟩ := ih List.mem_cons_self
      dsimp only at h
      split at h
      · next hp =>
        rcases List.mem_cons.1 h with rfl | h
        · exact ⟨List.cons_ne_nil _ _, hsub.cons_cons _, List.forall_mem_cons.2 ⟨hp.symm, hin⟩⟩
        · obtain ⟨hne, hsub, hin⟩ := ih (List.mem_cons_of_mem _ h)
          exact ⟨hne, hsub.cons _, hin⟩
      · rcases List.mem_cons.1 h with rfl | h
        · exact halone
        · obtain ⟨hne, hsub, hin⟩ := ih h
          exact ⟨hne, hsub.cons _, hin⟩

/-- A page has no more offsets than bytes. -/
theorem length_le_pageSize {offsets : List Nat} (hnodup : offsets.Nodup) {page : Nat × List Nat}
    (h : page ∈ groupPages offsets) : page.2.length ≤ pageSize := by
  obtain ⟨-, hsub, hin⟩ := mem_groupPages h
  have hrange : ∀ o ∈ page.2, o ∈ List.range' page.1 pageSize := fun o ho => by
    have hpage := hin o ho
    have hmod : o % pageSize < pageSize := Nat.mod_lt _ (by decide)
    have hle : o % pageSize ≤ o := Nat.mod_le _ _
    rw [List.mem_range'_1]
    omega
  have hle := (List.subperm_of_subset (hnodup.sublist hsub) hrange).length_le
  rwa [List.length_range'] at hle

/-- The offsets that are listed for a section differ. -/
theorem nodup_relocatedOffsets (c : Context) (b : Binding) (s : Section) :
    (relocatedOffsets c b s).Nodup := by
  rw [relocatedOffsets, List.Nodup, List.pairwise_map]
  exact (s.content.fields.ascending.filter _).imp Nat.ne_of_lt

/-- Every table is for a page of a section, from the label at the start of the section on. -/
theorem mem_collectTables {b : Binding} {c : Context} {sections : List Section}
    {t : RelocationTable} (ht : t ∈ (collectTables b sections c).tables) :
    ∃ (i : Nat) (s s' : Section) (label : String) (page : Nat × List Nat),
      sections[i]? = some s ∧ (collectTables b sections c).sections[i]? = some s' ∧
      (label, 0) ∈ s'.content.exports ∧ page ∈ groupPages (relocatedOffsets c b s) ∧
      t = pageTable c label page := by
  induction sections generalizing c with
  | nil => cases ht
  | cons s rest ih =>
    have hkeeps := keeps_sectionTables b s c
    have hpageTable : ∀ {c' : Context}, c.Keeps c' → ∀ label page,
        pageTable c' label page = pageTable c label page := fun hkeeps label page => by
      rw [pageTable, pageTable, hkeeps.1, hkeeps.2]
    rw [collectTables] at ht ⊢
    dsimp only at ht ⊢
    rcases List.mem_append.1 ht with ht | ht
    · obtain ⟨-, htables⟩ | ⟨label, c', content, hlabel, hkeeps', htables⟩ :=
        sectionTables_cases b s c
      · rw [htables] at ht
        cases ht
      · rw [htables] at ht ⊢
        obtain ⟨page, hpage, rfl⟩ := List.mem_map.1 ht
        exact ⟨0, s, _, label, page, rfl, rfl, hlabel, hpage, hpageTable hkeeps' label page⟩
    · obtain ⟨i, u, u', label, page, hu, hu', hlabel, hpage, rfl⟩ := ih ht
      rw [relocatedOffsets_congr hkeeps] at hpage
      exact ⟨i + 1, u, u', label, page, hu, hu', hlabel, hpage, hpageTable hkeeps label page⟩

/-! ## Writing the block of a page -/

theorem length_padRelocs (relocs : List BaseRelocation) :
    2 ∣ (padRelocs relocs).length ∧ relocs.length ≤ (padRelocs relocs).length ∧
      (padRelocs relocs).length ≤ relocs.length + 1 := by
  rw [padRelocs]
  split
  · next heven => exact ⟨Nat.dvd_of_mod_eq_zero heven, Nat.le_refl _, Nat.le_succ _⟩
  · rw [List.length_append, List.length_singleton]
    omega

theorem mem_padRelocs_of_mem {relocs : List BaseRelocation} {r : BaseRelocation} (h : r ∈ relocs) :
    r ∈ padRelocs relocs := by
  rw [padRelocs]
  split
  · exact h
  · exact List.mem_append_left _ h

/-- An entry that fills up a block relocates nothing. -/
theorem mem_padRelocs {relocs : List BaseRelocation} {r : BaseRelocation}
    (h : r ∈ padRelocs relocs) : r ∈ relocs ∨ r.kind.raw.toNat = 0 := by
  rw [padRelocs] at h
  split at h
  · exact .inl h
  · rcases List.mem_append.1 h with h | h
    · exact .inl h
    · rw [List.mem_singleton.1 h]
      exact .inr rfl

/-- The size of a block is a number for its field, and for a number of the linker. -/
theorem RelocationTable.size_record_lt {t : RelocationTable} (ht : t.relocs.length ≤ pageSize) :
    t.record.size < 2 ^ 32 := by
  have hpad := length_padRelocs t.relocs
  rw [t.size_record]
  rw [pageSize] at ht
  omega

/-- The distance from one label to another is no constant, whatever is added. -/
theorem Expr.reduce_distance_ne_const {l l' : String} (hne : l ≠ l') (n v : LinkValue) :
    (label l - label l' + const n).reduce ≠ const v := by
  intro hconst
  have heval : ∀ env : String → LinkValue, env l - env l' + n = v := fun env => by
    have h := eval_reduce env (label l - label l' + const n)
    rw [hconst] at h
    exact h.symm
  have hzero := heval fun _ => 0
  have hone := heval fun x => if x = l then 1 else 0
  rw [if_pos rfl, if_neg hne.symm, ← hzero, sub_zero, sub_zero, add_left_inj] at hone
  exact absurd hone (by decide)

section Encode

variable {f : FieldEncoder} {t : RelocationTable}

/-- The values of a block, for a page at the address. -/
def RelocationTable.values (t : RelocationTable) (base : LinkValue) : FieldValues :=
  (.u32, base) :: (.u32, .ofSize (8 + 2 * (padRelocs t.relocs).length)) ::
    (padRelocs t.relocs).map fun r => (.u16, .ofSize r.word.toNat)

/-- **Once the address of its page is known, so are all values of a block.** -/
theorem RelocationTable.becomes {binding : Binding} {base : LinkValue}
    (hbase : t.base.constantUnder binding = some base) :
    t.record.Becomes binding (t.values base) := by
  refine Record.becomes_cons.2 ⟨hbase, Record.becomes_cons.2 ⟨rfl, ?_⟩⟩
  induction padRelocs t.relocs with
  | nil => exact .nil
  | cons r rest ih => exact Record.becomes_cons.2 ⟨rfl, ih⟩

theorem becomes_tables {binding : Binding} {env : String → LinkValue}
    {tables : List RelocationTable}
    (h : ∀ t ∈ tables, t.base.constantUnder binding = some (t.base.eval env)) :
    Record.Becomes binding (tables.flatMap RelocationTable.record)
      (tables.flatMap fun t => t.values (t.base.eval env)) := by
  induction tables with
  | nil => exact .nil
  | cons t rest ih =>
    obtain ⟨hfirst, hrest⟩ := List.forall_mem_cons.1 h
    exact (RelocationTable.becomes hfirst).append (ih hrest)

theorem fits_word (r : BaseRelocation) : FieldType.u16.Fits (.ofSize r.word.toNat) :=
  FieldType.fits_ofSize rfl r.word.toNat_lt

/-- Its size and its entries always fit. -/
theorem RelocationTable.fit_values (ht : t.relocs.length ≤ pageSize) {base : LinkValue}
    (hbase : FieldType.u32.Fits base) : (t.values base).Fit := by
  have hsize := RelocationTable.size_record_lt ht
  rw [t.size_record] at hsize
  refine List.forall_mem_cons.2 ⟨hbase, List.forall_mem_cons.2
    ⟨FieldType.fits_ofSize rfl hsize, fun x hx => ?_⟩⟩
  obtain ⟨r, -, rfl⟩ := List.mem_map.1 hx
  exact fits_word r

/-- **The block of a page can be written.** -/
theorem exists_encodeRelocationTable (ht : t.relocs.length ≤ pageSize)
    (hbase : ∀ v, t.base.reduce ≠ .const v) : ∃ b, encodeRelocationTable f t = .ok b := by
  refine FieldEncoder.exists_record (f := f) (r := t.record) fun x hx v hv => ?_
  have hsize := RelocationTable.size_record_lt ht
  rw [t.size_record] at hsize
  rw [RelocationTable.record, List.mem_cons, List.mem_cons] at hx
  obtain rfl | rfl | hx := hx
  · exact absurd hv (hbase v)
  · cases hv
    exact FieldType.fits_ofSize rfl hsize
  · obtain ⟨r, -, rfl⟩ := List.mem_map.1 hx
    cases hv
    exact fits_word r

/-- Blocks one behind the other are the records of all tables. -/
theorem record_blocks {tables : List RelocationTable} {blocks : List Buffer}
    (h : List.Forall₂ (fun t b => encodeRelocationTable f t = .ok b) tables blocks) :
    f.record (tables.flatMap RelocationTable.record) = .ok (Buffer.concat blocks) := by
  induction h with
  | nil => rfl
  | @cons t b tables blocks hb _ ih =>
    exact FieldEncoder.record_append.2 ⟨b, Buffer.concat blocks, hb, ih, rfl⟩

end Encode

/-! ## Reading a block -/

/-- The numbers of settled fields are read where their bytes are. -/
theorem FileView.reads_of_hasAt {v : FileView} {binding : Binding} {o : Nat} {r : Record}
    {vs : FieldValues} (hagrees : binding.Agrees binding.env) (hr : r.Becomes binding vs)
    (hfit : vs.Fit) (hsigned : ∀ x ∈ r, x.1.signed = false)
    (hat : HasAt v.data o (vs.bytes v.order)) : v.Reads binding.env o r := by
  induction hr generalizing o with
  | nil => trivial
  | @cons x value r vs hx _ ih =>
    obtain ⟨htype, hvalue⟩ := hx
    obtain ⟨hhead, hrest⟩ := List.forall_mem_cons.1 hfit
    rw [FieldValues.bytes_cons, HasAt.append, FieldType.length_bytes] at hat
    have hunsigned := hsigned x List.mem_cons_self
    constructor
    · rw [Expr.eval_of_constantUnder hagrees hvalue, htype]
      rw [htype] at hunsigned
      exact hat.1.number hunsigned hhead
    · rw [htype]
      exact ih hrest (fun y hy => hsigned y (List.mem_cons_of_mem _ hy)) hat.2

namespace FileView

/-- A block at `o` that takes `size` bytes: this is what its size word says, a multiple of four; it
lists something, and nothing outside of the page that it is for. -/
structure BlockAt (v : FileView) (o size : Nat) : Prop where
  size_eq : v.number 4 (o + 4) = size
  four_dvd : 4 ∣ size
  lists : ∃ x ∈ v.block o, x.kind ≠ 0
  inPage : ∀ x ∈ v.block o, v.number 4 o ≤ x.rva ∧ x.rva < v.number 4 o + pageSize

/-- From `o` on there are blocks of these sizes: the size word of each leads to the next. -/
def BlocksFrom (v : FileView) : (o : Nat) → (sizes : List Nat) → Prop
  | _, [] => True
  | o, size :: rest => v.BlockAt o size ∧ v.BlocksFrom (o + size) rest

variable {v : FileView} {env : String → LinkValue}

theorem blockAt_of_reads {o : Nat} {t : RelocationTable} (h : v.Reads env o t.record)
    (hsize : t.record.size < 2 ^ 128) (hlists : ∃ r ∈ t.relocs, r.kind.raw.toNat ≠ 0) :
    v.BlockAt o t.record.size := by
  have hpage : v.number 4 o = (t.base.eval env).toNat := h.1
  obtain ⟨hlength, hblock⟩ := block_eq h hsize
  refine ⟨hlength, ?_, ?_, fun x hx => ?_⟩
  · have hpad := (length_padRelocs t.relocs).1
    rw [t.size_record]
    omega
  · obtain ⟨r, hr, hkind⟩ := hlists
    rw [hblock]
    exact ⟨_, List.mem_map_of_mem (mem_padRelocs_of_mem hr), hkind⟩
  · rw [hblock] at hx
    obtain ⟨r, -, rfl⟩ := List.mem_map.1 hx
    have hlt : r.offset.toNat % pageSize < pageSize := Nat.mod_lt _ (by decide)
    rw [hpage]
    exact ⟨Nat.le_add_right _ _, Nat.add_lt_add_left hlt _⟩

theorem blocksFrom_of_reads {o : Nat} {tables : List RelocationTable}
    (h : v.Reads env o (tables.flatMap RelocationTable.record))
    (hsize : ∀ t ∈ tables, t.record.size < 2 ^ 128)
    (hlists : ∀ t ∈ tables, ∃ r ∈ t.relocs, r.kind.raw.toNat ≠ 0) :
    v.BlocksFrom o (tables.map (·.record.size)) := by
  induction tables generalizing o with
  | nil => trivial
  | cons t rest ih =>
    rw [List.flatMap_cons, reads_append] at h
    obtain ⟨hfirst, hrest⟩ := List.forall_mem_cons.1 hsize
    obtain ⟨hlist, hlists⟩ := List.forall_mem_cons.1 hlists
    exact ⟨blockAt_of_reads h.1 hfirst hlist, ih h.2 hrest hlists⟩

end FileView

end PortableImage
