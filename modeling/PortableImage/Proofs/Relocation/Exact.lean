import PortableImage.Proofs.Directory.View
import PortableImage.Proofs.Labels.Assembly
import PortableImage.Proofs.Relocation.Pages

/-!
# What the blocks of base relocations list

The sections of an image are searched for fields that hold addresses, each page of a section gets a
table, and each table becomes a block.  A reader that walks over the blocks finds exactly the fields
whose value is one label more than it takes away.

* `Expr.SumOf` — the targets that this is about: sums and differences of known labels.
* `Context.HoldsAddress`, `Context.addressOffsets` — the fields that are listed.
* `relocations_relocationTables` — what a reader of the blocks finds.
-/

set_option autoImplicit false

namespace PortableImage

open Buffer

/-! ## Fields that hold addresses -/

/-- The expression adds and takes away labels of the list, and constants.  It has fewer labels than
a number of the linker can count. -/
structure Expr.SumOf (labels : List String) (e : Expr) : Prop where
  sum : e.net?.isSome
  known : ∀ l ∈ e.labels, l ∈ labels
  count : e.labelLeaves.length < 2 ^ 127

instance (labels : List String) (e : Expr) : Decidable (e.SumOf labels) :=
  decidable_of_iff (e.net?.isSome ∧ (∀ l ∈ e.labels, l ∈ labels) ∧ e.labelLeaves.length < 2 ^ 127)
    ⟨fun ⟨hsum, hknown, hcount⟩ => ⟨hsum, hknown, hcount⟩,
      fun ⟨hsum, hknown, hcount⟩ => ⟨hsum, hknown, hcount⟩⟩

/-- The labels of the context are noted, each of them once, and the start of the image is one. -/
structure Context.Noted (c : Context) : Prop where
  nodup : c.pool.known.Nodup
  start : c.start ∈ c.pool.known

theorem Context.noted_new {pool : LabelPool} (h : pool.known.Nodup) (f : FieldEncoder) :
    (Context.new pool f).Noted where
  nodup := by
    show (pool.fresh "coff_start").2.known.Nodup
    rw [LabelPool.known_fresh]
    exact List.nodup_cons.2 ⟨pool.fresh_notMem _, h⟩
  start := by
    show (pool.fresh "coff_start").1 ∈ (pool.fresh "coff_start").2.known
    rw [LabelPool.known_fresh]
    exact List.mem_cons_self

namespace Context

variable (c : Context)

/-- The field has the byte order of the image and the type of an address, and its value adds one
label more than it takes away. -/
def HoldsAddress (f : PendingField) : Prop :=
  f.order = c.encoder.order ∧ f.type = c.encoder.addressType ∧ f.target.net? = some 1

instance (f : PendingField) : Decidable (c.HoldsAddress f) := inferInstanceAs (Decidable (_ ∧ _))

/-- The offsets of the fields of a section that hold addresses. -/
def addressOffsets (s : Section) : List Nat :=
  (s.content.fields.entries.filter fun e => c.HoldsAddress e.2).map (·.1)

variable {c}

/-- **With all sections one behind the other, the fields that are picked are those that hold
addresses.** -/
theorem relocatedOffsets_eq {b : Binding} (hb : b.Places c.start) {labels : List String}
    (hlabels : ∀ l ∈ labels, (b.get? l).isSome ∨ l = c.start) {s : Section}
    (hsums : ∀ e ∈ s.content.fields.entries, e.2.target.SumOf labels) :
    relocatedOffsets c b s = c.addressOffsets s := by
  rw [relocatedOffsets, addressOffsets]
  refine congrArg _ (List.filter_congr fun e he => ?_)
  obtain ⟨hsum, hknown, hcount⟩ := hsums e he
  obtain ⟨n, hn⟩ := Option.isSome_iff_exists.1 hsum
  have hle := Expr.natAbs_net?_le hn
  have hone : (n : LinkValue) = 1 ↔ n = 1 := by
    refine ⟨fun h => ?_, fun h => by rw [h, Int.cast_one]⟩
    have hmod : ((n : LinkValue)).toInt = n.bmod (2 ^ 128) :=
      BitVec.toInt_intCast n
    rw [h, Int.bmod_eq_of_le (by omega) (by omega)] at hmod
    exact hmod.symm
  rw [needsRelocation, isImageAddress_eq hb hn fun l hl => hlabels l (hknown l hl),
    decide_eq_decide.2 hone, Bool.beq_eq_decide_eq, Bool.beq_eq_decide_eq, ← Bool.decide_and,
    ← Bool.decide_and]
  refine decide_eq_decide.2 ?_
  rw [HoldsAddress, hn, Option.some.injEq, and_assoc]

end Context

/-! ## Writing all blocks -/

/-- Labels at the starts of sections differ from all others, and from the start of the image. -/
theorem Context.Noted.notMem_collectTables {c : Context} (hc : c.Noted) {b : Binding}
    {sections : List Section} (hstart : c.start ∉ definedLabels sections) :
    c.start ∉ definedLabels (collectTables b sections c).sections := by
  have hbrings := Assembly.brings_collectTables (X := fun _ => False) b sections c
  have hpays := hbrings.pays c.start id
  have hnoted := List.count_pos_iff.2 hc.start
  have honce := List.nodup_iff_count_le_one.1 (hbrings.notes.nodup hc.nodup) c.start
  rw [LabelPool.Pays, List.count_eq_zero_of_not_mem hstart] at hpays
  rw [← List.count_eq_zero]
  omega

/-- Labels that differ and are noted stay different. -/
theorem Context.Noted.nodup_collectTables {c : Context} (hc : c.Noted) {b : Binding}
    {sections : List Section} (hlabels : (c.start :: definedLabels sections).Nodup)
    (hknown : ∀ l ∈ definedLabels sections, l ∈ c.pool.known) :
    (c.start :: definedLabels (collectTables b sections c).sections).Nodup := by
  have hbrings := Assembly.brings_collectTables (X := fun _ => False) b sections c
  rw [List.nodup_cons] at hlabels ⊢
  refine ⟨hc.notMem_collectTables hlabels.1, List.nodup_iff_count_le_one.2 fun l => ?_⟩
  have hpays := hbrings.pays l id
  have honce := List.nodup_iff_count_le_one.1 (hbrings.notes.nodup hc.nodup) l
  rw [LabelPool.Pays] at hpays
  by_cases hl : l ∈ definedLabels sections
  · have hone := List.nodup_iff_count_le_one.1 hlabels.2 l
    have hnoted := List.count_pos_iff.2 (hknown l hl)
    omega
  · rw [List.count_eq_zero_of_not_mem hl] at hpays
    omega

section Tables

variable {c : Context} {b : Binding} {sections : List Section} {t : RelocationTable}
  (ht : t ∈ (collectTables b sections c).tables)

include ht

/-- A table lists no more fields than a page has bytes. -/
theorem length_relocs_le : t.relocs.length ≤ pageSize := by
  obtain ⟨-, s, -, label, page, -, -, -, hpage, rfl⟩ := mem_collectTables ht
  rw [pageTable, List.length_map]
  exact length_le_pageSize (nodup_relocatedOffsets c b s) hpage

/-- A table lists fields. -/
theorem exists_mem_relocs : ∃ r ∈ t.relocs, r.kind.raw.toNat ≠ 0 := by
  obtain ⟨-, s, -, label, page, -, -, -, hpage, rfl⟩ := mem_collectTables ht
  obtain ⟨o, ho⟩ := List.exists_mem_of_ne_nil _ (mem_groupPages hpage).1
  exact ⟨_, List.mem_map_of_mem ho, addressKind_ne_zero c.encoder⟩

/-- The address of a page is not known before the sections are placed. -/
theorem reduce_base_ne_const (hc : c.Noted) (hstart : c.start ∉ definedLabels sections)
    (v : LinkValue) : t.base.reduce ≠ .const v := by
  obtain ⟨i, -, s', label, page, -, hs', hlabel, -, rfl⟩ := mem_collectTables ht
  refine Expr.reduce_distance_ne_const (fun heq => ?_) _ v
  have hdefined : label ∈ definedLabels (collectTables b sections c).sections :=
    List.mem_flatMap.2 ⟨s', List.mem_of_getElem? hs', List.mem_map_of_mem hlabel⟩
  exact hc.notMem_collectTables hstart (heq ▸ hdefined)

end Tables

/-- A block for each of the tables, where each can be written. -/
theorem exists_blocks {f : FieldEncoder} {tables : List RelocationTable}
    (h : ∀ t ∈ tables, ∃ b, encodeRelocationTable f t = .ok b) :
    ∃ blocks, List.Forall₂ (fun t b => encodeRelocationTable f t = .ok b) tables blocks := by
  induction tables with
  | nil => exact ⟨[], .nil⟩
  | cons t rest ih =>
    obtain ⟨⟨b, hb⟩, hrest⟩ := List.forall_mem_cons.1 h
    obtain ⟨blocks, hblocks⟩ := ih hrest
    exact ⟨b :: blocks, .cons hb hblocks⟩

/-! ## Placing the sections -/

/-- The binding puts each of the sections at its address. -/
abbrev PlacedSections (binding : Binding) (start : String) (sections : List Section)
    (rvas : List Nat) : Prop :=
  List.Forall₂ (fun s rva => s.content.PlacedAt binding start rva) sections rvas

/-- A binding that puts sections at addresses. -/
def placingSections (start : String) (base : LinkValue) (placed : List (Section × Nat)) : Binding :=
  .ofConstants ((start, base) :: placed.flatMap fun x =>
    x.1.content.exports.map fun e => (e.1, base + LinkValue.ofSize (x.2 + e.2)))

/-- Sections with labels that differ can be put at all addresses. -/
theorem placedSections_placing {start : String} {sections : List Section} {rvas : List Nat}
    (base : LinkValue) (hlength : sections.length = rvas.length)
    (hnodup : (start :: definedLabels sections).Nodup)
    (hinside : ∀ x ∈ sections.zip rvas, x.2 + x.1.content.virtSize < 2 ^ 128) :
    PlacedSections (placingSections start base (sections.zip rvas)) start sections rvas := by
  let pairs := (start, base) :: (sections.zip rvas).flatMap fun x =>
    x.1.content.exports.map fun e => (e.1, base + LinkValue.ofSize (x.2 + e.2))
  have hpairs : (pairs.map (·.1)).Nodup := by
    have hlabels : ((sections.zip rvas).flatMap fun x =>
        x.1.content.exports.map fun e => (e.1, base + LinkValue.ofSize (x.2 + e.2))).map (·.1) =
        definedLabels sections := by
      rw [List.map_flatMap, definedLabels]
      conv_rhs => rw [← List.map_fst_zip (Nat.le_of_eq hlength), List.flatMap_map]
      simp only [List.map_map, Function.comp_def]
    rw [List.map_cons, hlabels]
    exact hnodup
  have hbound : ∀ e ∈ pairs, (placingSections start base (sections.zip rvas)).get? e.1 =
      some (.const e.2) := fun e he => by
    have hget := Binding.get?_ofConstants_of_mem hpairs he []
    rwa [List.append_nil] at hget
  have hstart := hbound (start, base) List.mem_cons_self
  refine List.forall₂_iff_zip.2 ⟨hlength, fun {s rva} hzip => ?_⟩
  refine ⟨Binding.constant_ofConstants pairs, by rw [hstart]; rfl, fun e he => ?_,
    hinside (s, rva) hzip⟩
  rw [Binding.env_of_get? hstart]
  exact hbound (e.1, base + LinkValue.ofSize (rva + e.2)) (List.mem_cons_of_mem _
    (List.mem_flatMap.2 ⟨(s, rva), hzip, List.mem_map_of_mem he⟩))

section Placed

variable {c : Context} {b binding : Binding} {sections : List Section} {rvas : List Nat}
  (hplaced : PlacedSections binding c.start (collectTables b sections c).sections rvas)

include hplaced

/-- **Placed sections give the page of a table its address**, which is small where the addresses of
all fields are. -/
theorem constantUnder_base
    (hsmall : ∀ x ∈ sections.zip rvas, ∀ k ∈ relocatedOffsets c b x.1, x.2 + k < 2 ^ 32)
    {t : RelocationTable} (ht : t ∈ (collectTables b sections c).tables) :
    t.base.constantUnder binding = some (t.base.eval binding.env) ∧
      (t.base.eval binding.env).toNat < 2 ^ 32 ∧
      FieldType.u32.Fits (t.base.eval binding.env) := by
  obtain ⟨i, s, s', label, page, hs, hs', hlabel, hpage, rfl⟩ := mem_collectTables ht
  obtain ⟨rva, hrva, hat⟩ := exists_right_of_forall₂ hplaced hs'
  have hvalue := hat.labels _ hlabel
  have heval : (pageTable c label page).base.eval binding.env =
      LinkValue.ofSize (rva + page.1) := by
    show binding.env label - binding.env c.start + LinkValue.ofSize page.1 = _
    rw [Binding.env_of_get? hvalue, Nat.add_zero, add_sub_cancel_left]
    exact (BitVec.ofNat_add rva page.1).symm
  -- the page starts before its fields
  obtain ⟨hne, hsub, hin⟩ := mem_groupPages hpage
  obtain ⟨o, ho⟩ := List.exists_mem_of_ne_nil _ hne
  have hfield := hsmall (s, rva)
    (List.mem_of_getElem? (List.getElem?_zip_eq_some.2 ⟨hs, hrva⟩)) o (hsub.subset ho)
  have hfirst := hin o ho
  have hlt : rva + page.1 < 2 ^ 32 := by
    dsimp only at hfield
    omega
  refine ⟨Expr.constantUnder_of_known hat.constant fun l hl => ?_, ?_, ?_⟩
  · change l ∈ [label, c.start] at hl
    obtain rfl | rfl := List.mem_pair.1 hl
    · rw [hvalue]
      rfl
    · exact hat.based
  · rw [heval, LinkValue.toNat_ofSize (by omega)]
    exact hlt
  · rw [heval]
    exact FieldType.fits_ofSize rfl hlt

/-- The start of every section is at its address. -/
theorem sub_start_of_placed : ∀ x ∈ (collectTables b sections c).sections.zip
    (rvas.map fun rva => (⟨0, rva, 0⟩ : FileSection)), ∀ l, (l, 0) ∈ x.1.content.exports →
      binding.env l - binding.env c.start = LinkValue.ofSize x.2.rva := by
  intro x hx l hl
  rw [List.zip_map_right] at hx
  obtain ⟨⟨s, rva⟩, hzip, rfl⟩ := List.mem_map.1 hx
  have hat := (List.forall₂_iff_zip.1 hplaced).2 hzip
  rw [Binding.env_of_get? (hat.labels _ hl), Nat.add_zero, add_sub_cancel_left]
  rfl

end Placed

/-! ## What is read -/

/-- A buffer of blocks as a file on its own. -/
def Context.view (c : Context) (b : Buffer) : FileView :=
  ⟨b.data, c.encoder.order, c.encoder.pe64, false⟩

/-- **Blocks with pages at known addresses are fixed up**, and then their fields are read. -/
theorem exists_fixup_blocks {c : Context} {binding : Binding} {tables : List RelocationTable}
    {blocks : List Buffer} (hagrees : tables ≠ [] → binding.Agrees binding.env)
    (hblocks : List.Forall₂ (fun t b => encodeRelocationTable c.encoder t = .ok b) tables blocks)
    (hlength : ∀ t ∈ tables, t.relocs.length ≤ pageSize)
    (hbase : ∀ t ∈ tables, t.base.constantUnder binding = some (t.base.eval binding.env) ∧
      FieldType.u32.Fits (t.base.eval binding.env)) :
    ∃ b, (concat blocks).fixup binding = .ok b ∧
      b.rawSize = Record.size (tables.flatMap RelocationTable.record) ∧
      (c.view b).Reads binding.env 0 (tables.flatMap RelocationTable.record) := by
  have hbecomes := becomes_tables fun t ht => (hbase t ht).1
  have hfit : FieldValues.Fit (tables.flatMap fun t => t.values (t.base.eval binding.env)) := by
    intro x hx
    obtain ⟨t, ht, hx⟩ := List.mem_flatMap.1 hx
    exact RelocationTable.fit_values (hlength t ht) (hbase t ht).2 x hx
  refine ⟨_, FieldEncoder.fixup_record (record_blocks hblocks) hbecomes hfit, ?_, ?_⟩
  · rw [hbecomes.size_eq]
    exact FieldValues.length_bytes _ _
  · by_cases hnone : tables = []
    · rw [hnone]
      trivial
    · exact FileView.reads_of_hasAt (hagrees hnone) hbecomes hfit unsigned_record (HasAt.self _)

theorem map_virtSize_blocks {f : FieldEncoder} {tables : List RelocationTable}
    {blocks : List Buffer}
    (h : List.Forall₂ (fun t b => encodeRelocationTable f t = .ok b) tables blocks) :
    blocks.map (·.virtSize) = tables.map (·.record.size) := by
  induction h with
  | nil => rfl
  | @cons t b tables blocks hb _ ih =>
    have hsize : b.virtSize = t.record.size := FieldEncoder.virtSize_record (r := t.record) hb
    rw [List.map_cons, List.map_cons, ih, hsize]

/-- **Blocks list exactly the fields that hold addresses.**  For sections with labels that differ,
and with fields that add and take away these labels, the label of the start of the image and
constants: there are tables, and each becomes a block.  Once the sections are placed, a reader that
walks over the blocks finds the address of every field that has the byte order of the image and the
type of an address and whose labels have the net count one, once and in the order of sections and
offsets, and nothing else. -/
theorem relocations_relocationTables {c : Context} (hc : c.Noted) {sections : List Section}
    (hlabels : (c.start :: definedLabels sections).Nodup)
    (hsums : ∀ s ∈ sections, ∀ e ∈ s.content.fields.entries,
      e.2.target.SumOf (c.start :: definedLabels sections)) :
    ∃ r blocks, (relocationTables c sections).result = .ok r ∧
      List.Forall₂ Section.Labelled sections r.sections ∧
      ((∀ l ∈ definedLabels sections, l ∈ c.pool.known) →
        (c.start :: definedLabels r.sections).Nodup) ∧
      List.Forall₂ (fun t b => encodeRelocationTable c.encoder t = .ok b) r.tables blocks ∧
      ∀ (rvas : List Nat) (binding : Binding),
        PlacedSections binding c.start r.sections rvas →
        (∀ x ∈ sections.zip rvas, ∀ k ∈ c.addressOffsets x.1, x.2 + k < 2 ^ 32) →
        ∃ b, (concat blocks).fixup binding = .ok b ∧
          b.rawSize = (blocks.map (·.virtSize)).sum ∧
          (c.view b).BlocksFrom 0 (blocks.map (·.virtSize)) ∧
          (c.view b).relocations 0 b.rawSize =
            (sections.zip rvas).flatMap fun x => (c.addressOffsets x.1).map fun k =>
              ⟨addressKind c.encoder, x.2 + k⟩ := by
  obtain ⟨hstart, hnodup⟩ := List.nodup_cons.1 hlabels
  -- the provisional binding, and what it makes of the fields
  obtain ⟨bound, hbound⟩ : ∃ bound, provisionalBinding (.label c.start) .empty sections = .ok bound :=
    exists_provisionalBinding (fun _ _ => rfl) hnodup
  have hprovisional := hbound
  rw [← Expr.place_zero] at hprovisional
  obtain ⟨hplaces, hknown⟩ := provisionalBinding_spec hprovisional fun _ _ he => nomatch he
  have hoffsets : ∀ s ∈ sections, relocatedOffsets c bound s = c.addressOffsets s := fun s hs =>
    Context.relocatedOffsets_eq hplaces (fun l hl => by
      rcases List.mem_cons.1 hl with rfl | hl
      · exact .inr rfl
      · obtain ⟨t, ht, hexport⟩ := List.mem_flatMap.1 hl
        exact .inl ((hknown l).2 (.inr ⟨t, ht, hexport⟩))) (hsums s hs)
  have hlength : ∀ t ∈ (collectTables bound sections c).tables, t.relocs.length ≤ pageSize :=
    fun t ht => length_relocs_le ht
  obtain ⟨blocks, hblocks⟩ := exists_blocks (f := c.encoder) fun t ht =>
    exists_encodeRelocationTable (hlength t ht) (reduce_base_ne_const ht hc hstart)
  have hlabelled := Assembly.labelled_collectTables bound sections c
  refine ⟨collectTables bound sections c, blocks, ?_, hlabelled, hc.nodup_collectTables hlabels,
    hblocks, fun rvas binding hplaced hsmall => ?_⟩
  · rw [relocationTables, Logged.result_bind, Logged.result_liftM, hbound]
    rfl
  -- the blocks are fixed up and read
  have hfields : ∀ x ∈ sections.zip rvas, ∀ k ∈ relocatedOffsets c bound x.1,
      x.2 + k < 2 ^ 32 := fun x hx => by
    rw [hoffsets x.1 (List.of_mem_zip hx).1]
    exact hsmall x hx
  have hbase := fun t => constantUnder_base (t := t) hplaced hfields
  have hagrees : (collectTables bound sections c).tables ≠ [] → binding.Agrees binding.env := by
    intro hne
    obtain ⟨t, ht⟩ := List.exists_mem_of_ne_nil _ hne
    obtain ⟨i, -, s', -, -, -, hs', -⟩ := mem_collectTables ht
    obtain ⟨rva, -, hat⟩ := exists_right_of_forall₂ hplaced hs'
    exact hat.constant.agrees_env
  obtain ⟨b, hfix, hsize, hreads⟩ := exists_fixup_blocks hagrees hblocks hlength fun t ht =>
    ⟨(hbase t ht).1, (hbase t ht).2.2⟩
  have hlt : ∀ t ∈ (collectTables bound sections c).tables, t.record.size < 2 ^ 128 := fun t ht =>
    Nat.lt_trans (RelocationTable.size_record_lt (hlength t ht)) (by decide)
  refine ⟨b, hfix, ?_, ?_, ?_⟩
  · rw [hsize, map_virtSize_blocks hblocks, size_flatMap_record]
  · rw [map_virtSize_blocks hblocks]
    exact FileView.blocksFrom_of_reads hreads hlt fun t ht => exists_mem_relocs ht
  · have hrows : sections.length ≤ (rvas.map fun rva => (⟨0, rva, 0⟩ : FileSection)).length := by
      rw [List.length_map, hlabelled.length_eq, hplaced.length_eq]
    have hlist := listing_collectTables hrows (sub_start_of_placed hplaced)
      fun t ht => (hbase t ht).2.1
    rw [FileView.relocations_eq hreads hsize hlt, hlist, List.zip_map_right, List.flatMap_map]
    refine List.flatMap_congr fun x hx => ?_
    show (relocatedOffsets c bound x.1).map _ = _
    rw [hoffsets x.1 (List.of_mem_zip hx).1]
    refine List.map_congr_left fun k hk => ?_
    have hlt := hsmall x hx k hk
    show FileRelocation.mk _ (LinkValue.ofSize (x.2 + k)).toNat = _
    rw [LinkValue.toNat_ofSize (by omega)]

/-- The labels of two sections are known. -/
def twoLabels : Context := .new (LabelPool.empty.reserveAll ["func", "item"]) ⟨.little, false⟩

/-- Addresses on both sides of the end of a page, one of them across it, then the start of the image
and a number; between them a distance, and behind them a field that is no address but a signed
number.  The second section holds its own address. -/
def twoPages : List Section :=
  [.new ".text" (.read ||| .execute)
    ((((ofBytes (List.replicate 16 0x90)).addExport "func" 4
        ++ placeholder (.label "item") .u32 .little
        ++ placeholder (.label "item" - .label "func") .u32 .little).growTo 0xffe)
      ++ placeholder (.label "func" + .label "item" - .label "func") .u32 .little
      ++ placeholder (.label "coff_start" + .ofSize 8) .u32 .little
      ++ placeholder (.label "item") .i32 .little),
   .new ".data" (.read ||| .write)
    ((ofBytes [0, 0, 0, 0]).addExport "item" 0 ++ placeholder (.label "item") .u32 .little)]

theorem relocations_relocationTables_twoPages :
    ∃ r blocks binding b, (relocationTables twoLabels twoPages).result = .ok r ∧
      List.Forall₂ (fun t b => encodeRelocationTable twoLabels.encoder t = .ok b) r.tables blocks ∧
      PlacedSections binding twoLabels.start r.sections [0x1000, 0x4000] ∧
      (concat blocks).fixup binding = .ok b ∧
      (twoLabels.view b).BlocksFrom 0 (blocks.map (·.virtSize)) ∧
      (twoLabels.view b).relocations 0 b.rawSize =
        [⟨3, 0x1010⟩, ⟨3, 0x1ffe⟩, ⟨3, 0x2002⟩, ⟨3, 0x4004⟩] := by
  have hsmall : ((relocationTables twoLabels twoPages).result.toOption.any fun r =>
      r.sections.length = 2 ∧
        ∀ x ∈ r.sections.zip [0x1000, 0x4000], x.2 + x.1.content.virtSize < 2 ^ 128) = true := by
    decide +kernel
  have hnoted : twoLabels.Noted :=
    Context.noted_new (LabelPool.nodup_reserveAll List.nodup_nil ["func", "item"]) _
  have hlabels : (twoLabels.start :: definedLabels twoPages).Nodup := by decide +kernel
  obtain ⟨r, blocks, hr, -, hnodup, hblocks, hread⟩ :=
    relocations_relocationTables hnoted hlabels (by decide +kernel)
  rw [hr] at hsmall
  obtain ⟨hlength, hinside⟩ := of_decide_eq_true hsmall
  have hplaced : PlacedSections _ twoLabels.start r.sections [0x1000, 0x4000] :=
    placedSections_placing 0x400000 hlength (hnodup (by decide +kernel)) hinside
  obtain ⟨b, hfix, -, hwalk, hlist⟩ := hread _ _ hplaced (by decide +kernel)
  refine ⟨r, blocks, _, b, hr, hblocks, hplaced, hfix, hwalk, hlist.trans ?_⟩
  decide +kernel

end PortableImage
