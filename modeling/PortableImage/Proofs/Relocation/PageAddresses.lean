import PortableImage.Proofs.FileMemory
import PortableImage.Proofs.Relocation.Complete
import PortableImage.Proofs.Relocation.Pages

/-!
# The pages that blocks are for

The fields of a section are grouped by their offset in the section, and the address of a group is
counted from the start of the section.  So the address of a block is that of a page where the section
starts at one.

* `FileView.blockPlaces` — where a loader finds the blocks.
* `FileView.BlockOf` — a block for a part of a section, counted in pages from its start.
* `FileView.PagesAt` — what all blocks are for, and when these are different pages.
* `encodeImage_blockPages` — the blocks of every image.
-/

set_option autoImplicit false

namespace PortableImage

/-! ## Where the blocks are -/

namespace FileView

/-- The places of the blocks from `o` up to `stop`, at most `fuel` of them. -/
def blockPlaces (v : FileView) : (fuel o stop : Nat) → List Nat
  | 0, _, _ => []
  | fuel + 1, o, stop =>
    if o + 8 ≤ stop then o :: v.blockPlaces fuel (o + v.number 4 (o + 4)) stop else []

variable {v : FileView} {env : String → LinkValue}

/-- The first block is where the blocks start, if there is room for one. -/
theorem mem_blockPlaces_self {o size : Nat} (h : 8 ≤ size) :
    o ∈ v.blockPlaces size o (o + size) := by
  obtain ⟨fuel, rfl⟩ := Nat.exists_eq_succ_of_ne_zero (show size ≠ 0 by omega)
  rw [blockPlaces, if_pos (by omega)]
  exact List.mem_cons_self

/-- **What a loader reads are the blocks at these places.** -/
theorem blocks_eq_flatMap (fuel o stop : Nat) :
    v.blocks fuel o stop = (v.blockPlaces fuel o stop).flatMap v.block := by
  induction fuel generalizing o with
  | zero => rfl
  | succ fuel ih =>
    rw [blocks, blockPlaces]
    split
    · rw [List.flatMap_cons, ih]
    · rfl

/-- **There is one block for each table that was written.** -/
theorem forall₂_blockPlaces {fuel o : Nat} {tables : List RelocationTable}
    (h : v.Reads env o (tables.flatMap RelocationTable.record)) (hfuel : tables.length ≤ fuel)
    (hsize : ∀ t ∈ tables, t.record.size < 2 ^ 128) :
    List.Forall₂ (fun o t => v.number 4 o = (t.base.eval env).toNat ∧
        v.block o = t.entries (t.base.eval env).toNat)
      (v.blockPlaces fuel o (o + Record.size (tables.flatMap RelocationTable.record))) tables := by
  induction tables generalizing o fuel with
  | nil =>
    cases fuel with
    | zero => exact .nil
    | succ fuel =>
      rw [blockPlaces, if_neg (by simp [Record.size])]
      exact .nil
  | cons t rest ih =>
    cases fuel with
    | zero => simp at hfuel
    | succ fuel =>
      obtain ⟨hfirst, hrest⟩ := List.forall_mem_cons.1 hsize
      rw [List.flatMap_cons, reads_append] at h
      have hmin : 8 ≤ t.record.size := by
        rw [t.size_record]
        exact Nat.le_add_right _ _
      obtain ⟨hlength, hblock⟩ := block_eq h.1 hfirst
      rw [List.flatMap_cons, Record.size_append, blockPlaces, if_pos (by omega), hlength,
        ← Nat.add_assoc]
      exact .cons ⟨h.1.1, hblock⟩ (ih h.2 (Nat.le_of_succ_le_succ hfuel) hrest)

end FileView

/-! ## Pages in order -/

/-- The groups of ascending offsets are for ascending pages. -/
theorem pairwise_groupPages {offsets : List Nat} (h : offsets.Pairwise (· < ·)) :
    (groupPages offsets).Pairwise fun x y => x.1 < y.1 := by
  induction offsets with
  | nil => exact .nil
  | cons offset rest ih =>
    obtain ⟨hless, hrest⟩ := List.pairwise_cons.1 h
    have hpages := ih hrest
    -- no group behind the first offset is for an earlier page
    have hle : ∀ x ∈ groupPages rest, offset - offset % pageSize ≤ x.1 := fun x hx => by
      obtain ⟨hne, hsub, hin⟩ := mem_groupPages hx
      obtain ⟨o, ho⟩ := List.exists_mem_of_ne_nil _ hne
      have hlt := hless o (hsub.subset ho)
      rw [← hin o ho, pageSize]
      omega
    rw [groupPages]
    cases hgroups : groupPages rest with
    | nil => exact List.pairwise_singleton _ _
    | cons first others =>
      rw [hgroups] at hpages hle
      obtain ⟨hfirst, hothers⟩ := List.pairwise_cons.1 hpages
      obtain ⟨page, group⟩ := first
      dsimp only
      split
      · exact List.pairwise_cons.2 ⟨hfirst, hothers⟩
      · next hne =>
        refine List.pairwise_cons.2 ⟨List.forall_mem_cons.2 ⟨?_, fun x hx => ?_⟩, hpages⟩
        · have hmin : _ ≤ page := hle _ List.mem_cons_self
          omega
        · exact Nat.lt_of_le_of_lt (hle _ List.mem_cons_self) (hfirst x hx)

/-! ## Blocks and sections -/

/-- The property holds of every field, where `r` is the row of its section and `k` its offset. -/
def FileView.AtFields (v : FileView) (fields : List (Nat × Nat)) (P : FileSection → Nat → Prop) :
    Prop :=
  ∀ i k r, (i, k) ∈ fields → v.sections[i]? = some r → P r k

/-- The block at `o` is for the part of a section that lies `n` pages behind its start, where `i` is
the index of the section and `r` its row: the block lists something, nothing outside of these
addresses, and fields of the section only. -/
structure FileView.BlockOf (v : FileView) (fields : List (Nat × Nat)) (o i n : Nat)
    (r : FileSection) : Prop where
  placed : v.sections[i]? = some r
  page : v.number 4 o = r.address (pageSize * n)
  inPage : ∀ x ∈ v.block o, v.number 4 o ≤ x.rva ∧ x.rva < v.number 4 o + pageSize
  lists : ∃ x ∈ v.block o, x.kind ≠ 0
  fields : ∀ x ∈ v.block o, x.kind ≠ 0 → ∃ k, (i, k) ∈ fields ∧ x.rva = r.address k

/-- **A block is for a page where its section starts at one.** -/
theorem FileView.BlockOf.dvd_iff {v : FileView} {fields : List (Nat × Nat)} {o i n : Nat}
    {r : FileSection} (h : v.BlockOf fields o i n r) :
    pageSize ∣ v.number 4 o ↔ pageSize ∣ r.rva := by
  rw [h.page, FileSection.address, LinkValue.ofSize, BitVec.toNat_ofNat,
    Nat.dvd_mod_iff (by decide), Nat.dvd_add_left (Nat.dvd_mul_right _ _)]

/-- Sections that are put beside their rows are in the order of these. -/
theorem pairwise_zip {α β : Type} {R : β → β → Prop} {l : List α} {m : List β}
    (h : m.Pairwise R) : (l.zip m).Pairwise fun x y => R x.2 y.2 := by
  induction l generalizing m with
  | nil => exact .nil
  | cons a l ih =>
    cases m with
    | nil => exact .nil
    | cons b m =>
      obtain ⟨hfirst, hrest⟩ := List.pairwise_cons.1 h
      exact List.pairwise_cons.2 ⟨fun y hy => hfirst y.2 (List.of_mem_zip hy).2, ih hrest⟩

section Page

variable {v : FileView} {c : Context} {b : Binding} {s : Section} {r : FileSection} {o : Nat}
  {page : Nat × List Nat} (hpage : page ∈ groupPages (relocatedOffsets c b s))

include hpage

/-- What is read for a group of fields is a block of their section. -/
theorem blockOf_of_mem {fields : List (Nat × Nat)} {i : Nat} (hr : v.sections[i]? = some r)
    (hfields : ∀ k ∈ relocatedOffsets c b s, (i, k) ∈ fields)
    (hnumber : v.number 4 o = r.address page.1)
    (hblock : v.block o = RelocationTable.entries ⟨.const 0, pageRelocs c.encoder page⟩
      (r.address page.1)) : ∃ n, v.BlockOf fields o i n r := by
  obtain ⟨hne, hsub, hin⟩ := mem_groupPages hpage
  obtain ⟨k₀, hk₀⟩ := List.exists_mem_of_ne_nil _ hne
  have hsmall : r.address page.1 < 2 ^ 32 := hnumber ▸ v.number_lt 4 o
  have hoffset : ∀ k, (UInt16.ofNat (k % pageSize)).toNat % pageSize = k % pageSize := fun k => by
    have hlt : k % pageSize < pageSize := Nat.mod_lt _ (by decide)
    rw [UInt16.toNat_ofNat', Nat.mod_eq_of_lt (Nat.lt_trans hlt (by decide)), Nat.mod_mod]
  refine ⟨k₀ / pageSize, hr, ?_, fun x hx => ?_, ?_, fun x hx hkind => ?_⟩
  · rw [hnumber, ← hin k₀ hk₀, ← Nat.div_add_mod k₀ pageSize]
    congr 1
    rw [Nat.mul_add_mod, Nat.mod_mod, Nat.add_sub_cancel, Nat.mul_add_div (by decide),
      Nat.div_eq_of_lt (Nat.mod_lt _ (by decide)), Nat.add_zero]
  · rw [hblock] at hx
    obtain ⟨reloc, -, rfl⟩ := List.mem_map.1 hx
    rw [hnumber]
    exact ⟨Nat.le_add_right _ _, Nat.add_lt_add_left (Nat.mod_lt _ (by decide)) _⟩
  · have hmem := mem_padRelocs_of_mem (List.mem_map.2 ⟨k₀, hk₀, rfl⟩ :
      ⟨addressRelocKind c.encoder, UInt16.ofNat (k₀ % pageSize)⟩ ∈ pageRelocs c.encoder page)
    rw [hblock]
    exact ⟨_, List.mem_map_of_mem hmem, addressKind_ne_zero c.encoder⟩
  · rw [hblock] at hx
    obtain ⟨reloc, hreloc, rfl⟩ := List.mem_map.1 hx
    obtain hreloc | hzero := mem_padRelocs hreloc
    · obtain ⟨k, hk, rfl⟩ := List.mem_map.1 hreloc
      refine ⟨k, hfields k (hsub.subset hk), ?_⟩
      rw [FileSection.address, ← hin k hk] at hsmall
      rw [← hin k hk]
      show r.address _ + (UInt16.ofNat (k % pageSize)).toNat % pageSize = _
      rw [hoffset, FileSection.address, toNat_ofSize_page hsmall, FileSection.address]
    · exact absurd hzero hkind

/-- The fields of a group lie behind the address of their page. -/
theorem address_of_mem (hrva : r.rva < 2 ^ 32) (hsize : r.virtSize < 2 ^ 32)
    (hbelow : ∀ k ∈ relocatedOffsets c b s, k < r.virtSize) :
    r.address page.1 = r.rva + page.1 ∧ page.1 < r.virtSize := by
  obtain ⟨hne, hsub, hin⟩ := mem_groupPages hpage
  obtain ⟨k, hk⟩ := List.exists_mem_of_ne_nil _ hne
  have hlt := hbelow k (hsub.subset hk)
  have hle : page.1 ≤ k := by
    rw [← hin k hk]
    exact Nat.sub_le _ _
  exact ⟨LinkValue.toNat_ofSize (by omega), by omega⟩

end Page

/-! ## The blocks of an image -/

/-- The pages of all sections where base relocations are looked for, with their relocations. -/
def sectionPages (a : Assembly) (b : Binding) (rows : List FileSection) :
    List (Nat × List BaseRelocation) :=
  (a.image.sections.zip rows).flatMap fun x =>
    (groupPages (relocatedOffsets a.context b x.1)).map fun page =>
      (x.2.address page.1, pageRelocs a.context.encoder page)

/-- The block at `o` is read as the page with its relocations. -/
def FileView.ReadsPage (v : FileView) (o : Nat) (page : Nat × List BaseRelocation) : Prop :=
  v.number 4 o = page.1 ∧ v.block o = RelocationTable.entries ⟨.const 0, page.2⟩ page.1

/-- A page of a section that is read as a block is one. -/
theorem blockOf_of_mem_sectionPages {image : Image} {options : EncodeOptions} {clock : UInt32}
    {v : FileView} {a : Assembly} {b : Binding}
    (hat : atRelocations image options clock = .ok (a, b)) {o : Nat}
    {page : Nat × List BaseRelocation} (hpage : page ∈ sectionPages a b v.sections)
    (hread : v.ReadsPage o page) :
    ∃ i n r, v.BlockOf (relocatedFields image options clock) o i n r := by
  obtain ⟨⟨s, r⟩, hzip, hpage⟩ := List.mem_flatMap.1 hpage
  obtain ⟨group, hgroup, rfl⟩ := List.mem_map.1 hpage
  obtain ⟨i, hi⟩ := List.mem_iff_getElem?.1 hzip
  rw [List.getElem?_zip_eq_some] at hi
  obtain ⟨n, hblock⟩ := blockOf_of_mem hgroup hi.2
    (fun k hk => (mem_relocatedFields hat).2 ⟨s, hi.1, hk⟩) hread.1 hread.2
  exact ⟨i, n, r, hblock⟩

namespace Encoding

variable {image : Image} {options : EncodeOptions} {clock : UInt32} {a : Assembly}
  {h : HeadedImage} {q p : Placement} {e : EncodedImage} {size : Nat}
  (enc : Encoding image options clock a h q p e size)

include enc

/-- **The blocks are those of the pages of all sections**; without any, there is an empty one. -/
theorem readsPages (hlen : e.bytes.length < UInt64.size) {a₀ : Assembly} {b : Binding}
    {tables : List RelocationTable} {content : Buffer} {label : String}
    (hrel : a₀.Relocates a b tables content label)
    (hkeeps : (Assembly.start image (options.timestamp.getD clock)).Continues a₀)
    (hinside : ∀ s ∈ image.sections, s.content.FieldsInside) :
    ∃ place size, e.BlocksAt (e.view image options) place size ∧
      (ApartFromTables (e.view image options) a.tablesInPlace place size →
        List.Forall₂ (e.view image options).ReadsPage
          ((e.view image options).blockPlaces size place (place + size))
          (if (sectionPages a₀ b (e.view image options).sections).isEmpty then [(0, [])]
            else sectionPages a₀ b (e.view image options).sections)) := by
  have hstart : a.context.start = a₀.context.start :=
    enc.continued.context.2.trans hkeeps.context.2.symm
  obtain ⟨place, hplace, hreads, hsmall⟩ := enc.exists_reads hlen hrel hkeeps hinside
  refine ⟨place, content.virtSize, hplace, fun hapart => ?_⟩
  obtain ⟨hlength, hrows⟩ := enc.env_sub_start_of_collected hrel hlen hstart
  have hpages := collectTables_eval hlength hrows
  change _ = sectionPages a₀ b (e.view image options).sections at hpages
  have hsize := hrel.blocks.virtSize
  have hfuel : tables.length ≤ content.virtSize := by
    rw [hsize]
    exact length_le_size tables
  have hread := FileView.forall₂_blockPlaces (hreads hapart) hfuel hsmall
  rw [← hsize] at hread
  have hread' : List.Forall₂ (e.view image options).ReadsPage
      ((e.view image options).blockPlaces content.virtSize place (place + content.virtSize))
      (tables.map fun t => ((t.base.eval p.binding.env).toNat, t.relocs)) :=
    List.forall₂_map_right_iff.2 hread
  have hcollected := hrel.collected
  rw [← hpages, List.isEmpty_map]
  split at hcollected
  · next hempty =>
    rw [if_pos hempty]
    rw [hcollected] at hread'
    exact hread'
  · next hne =>
    rw [if_neg hne, ← hcollected]
    exact hread'

/-- Where there is room and every field starts in memory of its section, the pages ascend. -/
theorem pairwise_sectionPages (hlen : e.bytes.length < UInt64.size) {a₀ : Assembly} {b : Binding}
    (hat : atRelocations image options clock = .ok (a₀, b)) (hroom : (e.view image options).Room)
    (hbelow : (e.view image options).AtFields (relocatedFields image options clock) fun r k =>
      k < r.virtSize) :
    (sectionPages a₀ b (e.view image options).sections).Pairwise fun x y => x.1 < y.1 := by
  have hsections : (e.view image options).sections.Pairwise fun r s =>
      r.rva + r.virtSize ≤ s.rva := by
    rw [enc.view_sections hlen]
    exact List.pairwise_map.2 (enc.ascending hlen hroom)
  have hsmall : ∀ r ∈ (e.view image options).sections, r.rva < 2 ^ 32 ∧ r.virtSize < 2 ^ 32 := by
    intro r hr
    obtain ⟨i, -, rfl⟩ := List.mem_map.1 hr
    exact ⟨(e.view image options).number_lt 4 _, (e.view image options).number_lt 4 _⟩
  -- the address of a page of a section
  have haddress : ∀ x ∈ a₀.image.sections.zip (e.view image options).sections,
      ∀ page ∈ groupPages (relocatedOffsets a₀.context b x.1),
        x.2.address page.1 = x.2.rva + page.1 ∧ page.1 < x.2.virtSize := by
    intro x hx page hpage
    obtain ⟨i, hi⟩ := List.mem_iff_getElem?.1 hx
    rw [List.getElem?_zip_eq_some] at hi
    obtain ⟨hrva, hsize⟩ := hsmall x.2 (List.of_mem_zip hx).2
    exact address_of_mem hpage hrva hsize fun k hk =>
      hbelow i k x.2 ((mem_relocatedFields hat).2 ⟨x.1, hi.1, hk⟩) hi.2
  refine List.pairwise_flatMap.2 ⟨fun x hx => ?_, (pairwise_zip hsections).imp_of_mem
    fun {x y} hx hy hxy page hpage page' hpage' => ?_⟩
  · have hoffsets : (relocatedOffsets a₀.context b x.1).Pairwise (· < ·) :=
      List.pairwise_map.2 (x.1.content.fields.ascending.filter _)
    refine List.pairwise_map.2 ((pairwise_groupPages hoffsets).imp_of_mem
      fun {g g'} hg hg' hlt => ?_)
    rw [(haddress x hx g hg).1, (haddress x hx g' hg').1]
    exact Nat.add_lt_add_left hlt _
  · obtain ⟨g, hg, rfl⟩ := List.mem_map.1 hpage
    obtain ⟨g', hg', rfl⟩ := List.mem_map.1 hpage'
    have hfirst := haddress x hx g hg
    have hsecond := haddress y hy g' hg'
    dsimp only
    omega

end Encoding

/-- What the blocks at these places are for, where `fields` are the fields with base relocations. -/
structure FileView.PagesAt (v : FileView) (fields : List (Nat × Nat)) (places : List Nat) : Prop where
  /-- A block lists nothing, or fields of a section in one page from its start on. -/
  blocks : ∀ o ∈ places, (v.number 4 o = 0 ∧ v.block o = []) ∨
    ∃ i n r, v.BlockOf fields o i n r ∧ (pageSize ∣ v.number 4 o ↔ pageSize ∣ r.rva)
  /-- The addresses ascend, where sections do not overlap and have their fields in memory. -/
  ascending : v.Room → v.AtFields fields (fun r k => k < r.virtSize) →
    (places.map (v.number 4)).Pairwise (· < ·)
  /-- The blocks are for pages, where sections start at pages. -/
  dvd : v.AtFields fields (fun r _ => pageSize ∣ r.rva) → ∀ o ∈ places, pageSize ∣ v.number 4 o
  /-- No two blocks are for one page then. -/
  nodup : v.AtFields fields (fun r _ => pageSize ∣ r.rva) → v.Room →
    v.AtFields fields (fun r k => k < r.virtSize) →
    (places.map fun o => v.number 4 o / pageSize).Nodup

/-- **Blocks are for pages counted from the starts of sections.**  Unless a table is written over the
blocks, each of them lists fields of one section, all within 4 KiB from an address that lies a number
of pages behind the start of the section; an image without such fields has one empty block.  The
address is that of a page exactly where the section starts at one.  If all sections with such fields
do, the fields start in the memory of their sections, and the image ends before the last unit of the
address space, then every block is for a page, and no two are for the same. -/
theorem encodeImage_blockPages {image : Image} {options : EncodeOptions} {clock : UInt32}
    {e : EncodedImage} (he : (encodeImage image options clock).result = .ok e)
    (hwants : options.wantsRelocations = true) (hlen : e.bytes.length < UInt64.size)
    (hinside : ∀ s ∈ image.sections, s.content.FieldsInside) :
    ∃ place size, e.BlocksAt (e.view image options) place size ∧
      (ApartFromTables (e.view image options) (tablesInPlace image options clock) place size →
        (e.view image options).PagesAt (relocatedFields image options clock)
          ((e.view image options).blockPlaces size place (place + size))) := by
  obtain ⟨a, h, q, p, _, enc⟩ := encodeImage_eq_ok he
  obtain ⟨a₀, b, tables, content, label, hat, hcontinues, -, hrel⟩ := enc.exists_relocates hwants
  obtain ⟨place, size, hplace, hread⟩ := enc.readsPages hlen hrel hcontinues hinside
  refine ⟨place, size, hplace, fun hapart => ?_⟩
  rw [enc.tablesInPlace_eq] at hapart
  have hpages := hread hapart
  generalize (e.view image options).blockPlaces size place (place + size) = places at hpages ⊢
  have hblocks : ∀ o ∈ places,
      ((e.view image options).number 4 o = 0 ∧ (e.view image options).block o = []) ∨
      ∃ i n r, (e.view image options).BlockOf (relocatedFields image options clock) o i n r := by
    intro o ho
    obtain ⟨j, hj⟩ := List.mem_iff_getElem?.1 ho
    obtain ⟨page, hpage, hread⟩ := exists_right_of_forall₂ hpages hj
    have hmem := List.mem_of_getElem? hpage
    split at hmem
    · rw [List.mem_singleton.1 hmem] at hread
      exact .inl hread
    · exact .inr (blockOf_of_mem_sectionPages hat hmem hread)
  have hascending : (e.view image options).Room →
      (e.view image options).AtFields (relocatedFields image options clock)
        (fun r k => k < r.virtSize) →
      (places.map ((e.view image options).number 4)).Pairwise (· < ·) := by
    intro hroom hbelow
    have hnumbers : places.map ((e.view image options).number 4) =
        (if (sectionPages a₀ b (e.view image options).sections).isEmpty then [(0, [])]
          else sectionPages a₀ b (e.view image options).sections).map Prod.fst := by
      refine List.forall₂_eq_eq_eq ▸ List.forall₂_map_left_iff.2 (List.forall₂_map_right_iff.2 ?_)
      exact hpages.imp fun _ _ hread => hread.1
    rw [hnumbers]
    split
    · exact List.pairwise_singleton _ _
    · exact List.pairwise_map.2 (enc.pairwise_sectionPages hlen hat hroom hbelow)
  have hdvd : (e.view image options).AtFields (relocatedFields image options clock)
        (fun r _ => pageSize ∣ r.rva) →
      ∀ o ∈ places, pageSize ∣ (e.view image options).number 4 o := by
    intro haligned o ho
    obtain ⟨hzero, -⟩ | ⟨i, n, r, hblock⟩ := hblocks o ho
    · rw [hzero]
      exact Nat.dvd_zero _
    · obtain ⟨x, hx, hkind⟩ := hblock.lists
      obtain ⟨k, hk, -⟩ := hblock.fields x hx hkind
      exact hblock.dvd_iff.2 (haligned i k r hk hblock.placed)
  refine ⟨fun o ho => (hblocks o ho).imp_right fun ⟨i, n, r, hblock⟩ =>
    ⟨i, n, r, hblock, hblock.dvd_iff⟩, hascending, hdvd, fun haligned hroom hbelow => ?_⟩
  refine List.pairwise_map.2 ((List.pairwise_map.1 (hascending hroom hbelow)).imp_of_mem
    fun {o o'} ho ho' hlt heq => ?_)
  -- multiples of a page that differ are different pages
  rw [← Nat.div_mul_cancel (hdvd haligned o ho), ← Nat.div_mul_cancel (hdvd haligned o' ho'),
    heq] at hlt
  exact Nat.lt_irrefl _ hlt

/-- A library with sections that lie close together, of which one holds its own address. -/
def closeSections : Image :=
  { Image.empty with
    sections := [.new ".data" (.read ||| .write)
      ((Buffer.empty.addExport "here" 0) ++ .placeholder (.label "here") .u32 .little)]
    optionalHeader := { OptionalHeader.empty with
      sectionAlignment := some 16
      fileAlignment := some 16 } }

theorem encodeImage_blockPages_closeSections :
    ∃ e place size, (encodeImage closeSections (.new .dll) 0).result = .ok e ∧
      e.BlocksAt (e.view closeSections (.new .dll)) place size ∧
      (∃ o ∈ (e.view closeSections (.new .dll)).blockPlaces size place (place + size),
        (e.view closeSections (.new .dll)).block o ≠ []) ∧
      ∀ o ∈ (e.view closeSections (.new .dll)).blockPlaces size place (place + size),
        (e.view closeSections (.new .dll)).block o ≠ [] →
          ¬ pageSize ∣ (e.view closeSections (.new .dll)).number 4 o := by
  obtain ⟨e, he, hlen, hclose, hdirectory, hlisted⟩ :
      ∃ e, (encodeImage closeSections (.new .dll) 0).result = .ok e ∧
        e.bytes.length < UInt64.size ∧
        (∀ r ∈ (e.view closeSections (.new .dll)).sections, ¬ pageSize ∣ r.rva) ∧
        e.image.directory? .baseRelocationTable =
          some ⟨.label "reloc_table" - .label "coff_start", .ofSize 12⟩ ∧
        ∀ x ∈ e.image.sections.zip (e.view closeSections (.new .dll)).sections,
          ∀ l ∈ x.1.content.exports, l.1 = "reloc_table" →
            (e.view closeSections (.new .dll)).block (x.2.rawAddress + l.2) ≠ [] :=
    exists_encodeImage (by decide +kernel)
  have htables : tablesInPlace closeSections (.new .dll) 0 = [] := by decide +kernel
  have hwritten : ∀ s ∈ closeSections.sections, s.content.FieldsWritten := by decide
  obtain ⟨place, size, hplace, hpages⟩ :=
    encodeImage_blockPages he rfl hlen fun s hs => (hwritten s hs).inside
  refine ⟨e, place, size, he, hplace, ?_, fun o ho hlists => ?_⟩
  · obtain ⟨label, start, r, k, hat, ⟨i, s, hs, hr, hl⟩, rfl⟩ := hplace
    rw [hdirectory] at hat
    obtain ⟨haddress, hsize⟩ := DataDirectory.mk.inj (Option.some.inj hat)
    obtain rfl : "reloc_table" = label := Expr.label.inj (Expr.binary.inj haddress).2.1
    refine ⟨r.rawAddress + k, FileView.mem_blockPlaces_self ?_, hlisted (s, r)
      (List.mem_of_getElem? (List.getElem?_zip_eq_some.2 ⟨hs, hr⟩)) _ hl rfl⟩
    have hvalues := LinkValue.mod_eq_of_ofSize (Expr.const.inj hsize)
    omega
  have hapart : ApartFromTables (e.view closeSections (.new .dll))
      (tablesInPlace closeSections (.new .dll) 0) place size := fun t ht => by
    rw [htables] at ht
    exact nomatch ht
  obtain ⟨-, hnone⟩ | ⟨i, n, r, hblock, hiff⟩ := (hpages hapart).blocks o ho
  · exact absurd hnone hlists
  · rw [hiff]
    exact hclose r (List.mem_of_getElem? hblock.placed)

end PortableImage
