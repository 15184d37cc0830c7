import PortableImage.Proofs.FileView
import PortableImage.Proofs.Relocation.Blocks

/-!
# Reading base relocations

A loader walks over the blocks: each says which page it is for and how long it is.

* `FileView.relocations` — the base relocations that blocks in the file list.
* `RelocationTable.entries` — those that a table stands for.
* `FileView.relocations_eq` — what is read are the entries of the tables that were written.
-/

set_option autoImplicit false

namespace PortableImage

/-- A base relocation in a file: the number of its kind, and the address of its field. -/
structure FileRelocation where
  kind : Nat
  rva : Nat
  deriving DecidableEq

/-! ## Walking over the blocks -/

namespace FileView

/-- The entry at `o` in a block for the page. -/
def entry (v : FileView) (page o : Nat) : FileRelocation :=
  let word := v.number 2 o
  ⟨word / pageSize, page + word % pageSize⟩

/-- The entries of the block at `o`: a page, a size, and then entries up to the size. -/
def block (v : FileView) (o : Nat) : List FileRelocation :=
  (List.range ((v.number 4 (o + 4) - 8) / 2)).map fun i => v.entry (v.number 4 o) (o + 8 + 2 * i)

/-- The entries of the blocks from `o` up to `stop`, at most `fuel` of them. -/
def blocks (v : FileView) : (fuel o stop : Nat) → List FileRelocation
  | 0, _, _ => []
  | fuel + 1, o, stop =>
    if o + 8 ≤ stop then v.block o ++ v.blocks fuel (o + v.number 4 (o + 4)) stop else []

/-- The base relocations listed by the blocks in the `size` bytes from `o` on.  An entry of the kind
zero only fills up a block. -/
def relocations (v : FileView) (o size : Nat) : List FileRelocation :=
  (v.blocks size o (o + size)).filter (·.kind ≠ 0)

/-- The numbers of the record are read from `o` on. -/
def Reads (v : FileView) (env : String → LinkValue) : (o : Nat) → Record → Prop
  | _, [] => True
  | o, (type, value) :: r =>
    v.number type.width o = (value.eval env).toNat ∧ v.Reads env (o + type.width) r

theorem reads_append {v : FileView} {env : String → LinkValue} {o : Nat} {r s : Record} :
    v.Reads env o (r ++ s) ↔ v.Reads env o r ∧ v.Reads env (o + r.size) s := by
  induction r generalizing o with
  | nil => simp [Reads, Record.size]
  | cons e r ih =>
    rw [List.cons_append, Reads, Reads, ih, Record.size_cons, and_assoc, Nat.add_assoc]

end FileView

/-- All fields of blocks are unsigned. -/
theorem unsigned_record {tables : List RelocationTable} :
    ∀ x ∈ tables.flatMap RelocationTable.record, x.1.signed = false := by
  intro x hx
  obtain ⟨t, -, hx⟩ := List.mem_flatMap.1 hx
  rw [RelocationTable.record, List.mem_cons, List.mem_cons] at hx
  obtain rfl | rfl | hx := hx
  · rfl
  · rfl
  · obtain ⟨r, -, rfl⟩ := List.mem_map.1 hx
    rfl

/-! ## What the tables stand for -/

/-- The entries of a table for the page at `page`, with the one that fills up the block. -/
def RelocationTable.entries (t : RelocationTable) (page : Nat) : List FileRelocation :=
  (padRelocs t.relocs).map fun r => ⟨r.kind.raw.toNat, page + r.offset.toNat % pageSize⟩

/-- The base relocations that the tables stand for, under values of the labels. -/
def listing (env : String → LinkValue) (tables : List RelocationTable) : List FileRelocation :=
  (tables.flatMap fun t => t.entries (t.base.eval env).toNat).filter (·.kind ≠ 0)

/-- Every block takes some bytes. -/
theorem length_le_size (tables : List RelocationTable) :
    tables.length ≤ Record.size (tables.flatMap RelocationTable.record) := by
  induction tables with
  | nil => exact Nat.le_refl _
  | cons t rest ih =>
    rw [List.flatMap_cons, Record.size_append, t.size_record, List.length_cons]
    omega

/-- A block is no longer than all of them. -/
theorem size_record_le {tables : List RelocationTable} {t : RelocationTable} (ht : t ∈ tables) :
    t.record.size ≤ Record.size (tables.flatMap RelocationTable.record) := by
  obtain ⟨before, behind, rfl⟩ := List.append_of_mem ht
  rw [List.flatMap_append, List.flatMap_cons, Record.size_append, Record.size_append]
  omega

/-- The bytes of all blocks. -/
theorem size_flatMap_record (tables : List RelocationTable) :
    Record.size (tables.flatMap RelocationTable.record) = (tables.map (·.record.size)).sum := by
  induction tables with
  | nil => rfl
  | cons t rest ih => rw [List.flatMap_cons, Record.size_append, ih, List.map_cons, List.sum_cons]

namespace FileView

variable {v : FileView} {env : String → LinkValue}

theorem map_entry {o page : Nat} {relocs : List BaseRelocation}
    (h : v.Reads env o (relocs.map fun r => (.u16, .ofSize r.word.toNat))) :
    (List.range relocs.length).map (fun i => v.entry page (o + 2 * i)) =
      relocs.map fun r => ⟨r.kind.raw.toNat, page + r.offset.toNat % pageSize⟩ := by
  induction relocs generalizing o with
  | nil => rfl
  | cons r rest ih =>
    obtain ⟨hword, hrest⟩ := h
    have hnumber : v.number 2 o = r.word.toNat :=
      hword.trans (LinkValue.toNat_ofSize (Nat.lt_trans r.word.toNat_lt (by decide)))
    rw [List.length_cons, List.range_succ_eq_map, List.map_cons, List.map_map, List.map_cons,
      ← ih hrest]
    refine congr (congrArg List.cons ?_) (List.map_congr_left fun i _ => ?_)
    · rw [Nat.mul_zero, Nat.add_zero, entry, hnumber, r.word_div, r.word_mod]
    · show v.entry page (o + 2 * (i + 1)) = v.entry page (o + 2 + 2 * i)
      congr 1
      omega

theorem block_eq {o : Nat} {t : RelocationTable} (h : v.Reads env o t.record)
    (hsize : t.record.size < 2 ^ 128) :
    v.number 4 (o + 4) = t.record.size ∧ v.block o = t.entries (t.base.eval env).toNat := by
  obtain ⟨hbase, hlength, hentries⟩ := h
  rw [t.size_record] at hsize
  have hnumber : v.number 4 (o + 4) = 8 + 2 * (padRelocs t.relocs).length :=
    hlength.trans (LinkValue.toNat_ofSize hsize)
  refine ⟨by rw [hnumber, t.size_record], ?_⟩
  rw [block, hnumber, show v.number 4 o = (t.base.eval env).toNat from hbase,
    show (8 + 2 * (padRelocs t.relocs).length - 8) / 2 = (padRelocs t.relocs).length by omega]
  exact map_entry hentries

theorem blocks_eq {fuel o : Nat} {tables : List RelocationTable}
    (h : v.Reads env o (tables.flatMap RelocationTable.record)) (hfuel : tables.length ≤ fuel)
    (hsize : ∀ t ∈ tables, t.record.size < 2 ^ 128) :
    v.blocks fuel o (o + Record.size (tables.flatMap RelocationTable.record)) =
      tables.flatMap fun t => t.entries (t.base.eval env).toNat := by
  induction tables generalizing o fuel with
  | nil =>
    cases fuel with
    | zero => rfl
    | succ fuel => rw [blocks, if_neg (by simp [Record.size])]; rfl
  | cons t rest ih =>
    cases fuel with
    | zero => simp at hfuel
    | succ fuel =>
      obtain ⟨hfirst, hrest⟩ := List.forall_mem_cons.1 hsize
      rw [List.flatMap_cons, reads_append] at h
      have hmin : 8 ≤ t.record.size := by
        rw [t.size_record]
        exact Nat.le_add_right _ _
      obtain ⟨hlength, hblock⟩ := block_eq h.1 hfirst
      rw [List.flatMap_cons, Record.size_append, blocks, if_pos (by omega), hblock, hlength,
        ← Nat.add_assoc, ih h.2 (Nat.le_of_succ_le_succ hfuel) hrest, List.flatMap_cons]

/-- **What is read are the entries of the tables that were written.** -/
theorem relocations_eq {o size : Nat} {tables : List RelocationTable}
    (h : v.Reads env o (tables.flatMap RelocationTable.record))
    (hsize : size = Record.size (tables.flatMap RelocationTable.record))
    (hlt : ∀ t ∈ tables, t.record.size < 2 ^ 128) :
    v.relocations o size = listing env tables := by
  have hfuel : tables.length ≤ size := by
    rw [hsize]
    exact length_le_size tables
  rw [relocations, listing, hsize, blocks_eq h (hsize ▸ hfuel) hlt]

end FileView

/-- **The numbers of a record in the placed image are read in the file.** -/
theorem Encoding.reads_output {image : Image} {options : EncodeOptions} {clock : UInt32}
    {a : Assembly} {h : HeadedImage} {q p : Placement} {e : EncodedImage} {size o : Nat}
    {r : Record} (enc : Encoding image options clock a h q p e size)
    (hr : p.output.HoldsRecord p.binding.env a.context.encoder.order o r)
    (hsigned : ∀ x ∈ r, x.1.signed = false)
    (hbehind : headerStart options.target + fileHeaderSize + checksumPosition < o) :
    (e.view image options).Reads p.binding.env o r := by
  induction r generalizing o with
  | nil => trivial
  | cons x rest ih =>
    refine ⟨enc.number_output (hsigned x List.mem_cons_self) hr.1 (Nat.ne_of_gt hbehind), ?_⟩
    exact ih hr.2 (fun y hy => hsigned y (List.mem_cons_of_mem _ hy)) (by omega)

end PortableImage
