import PortableImage.Encode.Headers
import PortableImage.Proofs.Directory.Context
import PortableImage.Proofs.Field.Record
import PortableImage.Proofs.Growth

/-!
# The rows of the section table

Each section has a row of forty bytes in the section table.  The fields of a row hold the size of
the section in memory, its address, and its size and place in the file: known numbers where they are
fixed, else labels that the layout binds.

* `RowHolds` — the fields of a row hold what belongs to a section.
* `Section.Headed` — what a section becomes with its row.
* `encodeSectionHeader_eq_ok` — the row of one section.
* `rowHolds_encodeSectionTable` — the rows of all sections, in order.
-/

set_option autoImplicit false

namespace PortableImage

open Buffer

/-- The fields of the row at `o` hold the sizes, the address and the file position of the section.
The address of a floating section is the distance of its first byte from the label `start`. -/
structure RowHolds (env : String → LinkValue) (b : Buffer) (o : Nat) (order : ByteOrder)
    (start : String) (s : Section) : Prop where
  virtSize : b.Holds env (o + 8) .u32 order (LinkValue.ofSize (s.virtSize.getD 0).toNat)
  fixed : ∀ address, s.address = some address →
    b.Holds env (o + 12) .u32 order (LinkValue.ofSize address.toNat)
  floating : s.address = none → ∃ label, (label, 0) ∈ s.content.exports ∧
    b.Holds env (o + 12) .u32 order (env label - env start)
  rawSize : s.rawSize = none → ∃ label, s.rawSizeLabel = some label ∧
    b.Holds env (o + 16) .u32 order (env label.name)
  rawAddress : ∃ label, s.rawAddressLabel = some label ∧
    b.Holds env (o + 20) .u32 order (env label.name)

/-- A row is what it is in every buffer that holds the same fields there. -/
theorem RowHolds.map {env : String → LinkValue} {b b' : Buffer} {o o' : Nat} {order : ByteOrder}
    {start : String} {s : Section} (h : RowHolds env b o order start s)
    (hmap : ∀ k t v, b.Holds env (o + k) t order v → b'.Holds env (o' + k) t order v) :
    RowHolds env b' o' order start s where
  virtSize := hmap 8 _ _ h.virtSize
  fixed address ha := hmap 12 _ _ (h.fixed address ha)
  floating hnone := by
    obtain ⟨label, hmem, hl⟩ := h.floating hnone
    exact ⟨label, hmem, hmap 12 _ _ hl⟩
  rawSize hnone := by
    obtain ⟨label, hlabel, hl⟩ := h.rawSize hnone
    exact ⟨label, hlabel, hmap 16 _ _ hl⟩
  rawAddress := by
    obtain ⟨label, hlabel, hl⟩ := h.rawAddress
    exact ⟨label, hlabel, hmap 20 _ _ hl⟩

/-- More labels in the section do not change what belongs to it. -/
theorem RowHolds.labelled {env : String → LinkValue} {b : Buffer} {o : Nat} {order : ByteOrder}
    {start : String} {s s' : Section} (h : RowHolds env b o order start s)
    (hs : s.Labelled s') : RowHolds env b o order start s' := by
  obtain ⟨content, ⟨added, rfl⟩, rfl⟩ := hs
  refine ⟨h.virtSize, h.fixed, fun hnone => ?_, h.rawSize, h.rawAddress⟩
  obtain ⟨label, hmem, hl⟩ := h.floating hnone
  exact ⟨label, List.mem_append_left _ hmem, hl⟩

/-! ## One row -/

theorem sectionRva_fixed {c : Context} {s : Section} {address : UInt32}
    (h : s.address = some address) : sectionRva c s = (.ofSize address.toNat, s, c) := by
  unfold sectionRva
  rw [h]

theorem sectionRva_floating {c : Context} {s : Section} (h : s.address = none) :
    sectionRva c s =
      (.label (c.labelAt s.content 0 "sect_start").1 - .label c.start,
        { s with content := (c.labelAt s.content 0 "sect_start").2.2 },
        (c.labelAt s.content 0 "sect_start").2.1) := by
  unfold sectionRva
  rw [h]
  rfl

theorem labelled_sectionRva (c : Context) (s : Section) : s.Labelled (sectionRva c s).2.1 := by
  cases h : s.address with
  | some address =>
    rw [sectionRva_fixed h]
    exact .refl s
  | none =>
    rw [sectionRva_floating h]
    exact s.labelled_labelAt c 0 "sect_start"

theorem keeps_sectionRva (c : Context) (s : Section) : c.Keeps (sectionRva c s).2.2 := by
  cases h : s.address with
  | some address =>
    rw [sectionRva_fixed h]
    exact .refl c
  | none =>
    rw [sectionRva_floating h]
    exact c.keeps_labelAt _ 0 "sect_start"

theorem keeps_sectionRawSize (c : Context) (s : Section) : c.Keeps (sectionRawSize c s).2.2 := by
  unfold sectionRawSize
  cases s.rawSize with
  | some size => exact .refl c
  | none => exact c.keeps_fresh _

theorem sectionRawSize_fixed {c : Context} {s : Section} {size : UInt32} (h : s.rawSize = some size) :
    sectionRawSize c s = (.ofSize size.toNat, s, c) := by
  unfold sectionRawSize
  rw [h]

theorem sectionRawSize_floating {c : Context} {s : Section} (h : s.rawSize = none) :
    sectionRawSize c s =
      (.label (c.freshLabel "sect_rawsize").1.name,
        { s with rawSizeLabel := some (c.freshLabel "sect_rawsize").1 },
        (c.freshLabel "sect_rawsize").2) := by
  unfold sectionRawSize
  rw [h]

theorem content_sectionRawSize (c : Context) (s : Section) :
    (sectionRawSize c s).2.1.content = s.content := by
  unfold sectionRawSize
  split <;> rfl

theorem length_shortName (name : String) : (shortName name).length = 8 := by
  rw [shortName, length_padTo, List.length_take]
  omega

theorem size_rowFields (s : Section) (rva rawSize rawAddress : Expr) :
    Record.size (rowFields s rva rawSize rawAddress) = 32 := rfl

/-- A field of a row stands behind the name and the fields before it. -/
theorem holds_behind_name {f : FieldEncoder} {fields : Buffer} (before : Record) {behind : Record}
    {t : FieldType} {value : Expr} (h : f.record (before ++ (t, value) :: behind) = .ok fields)
    (env : String → LinkValue) (name : String) :
    (ofBytes (shortName name) ++ fields).Holds env (8 + before.size) t f.order
      (value.eval env) := by
  have hinside : (ofBytes (shortName name)).FieldsInside := fieldsInside_of_noFields rfl
  have hholds := (FieldEncoder.holds_record before h env).append_right hinside
  have hname : (ofBytes (shortName name)).virtSize = 8 := length_shortName name
  rwa [hname] at hholds

/-- The section with a size in memory: the given one, or that of its content. -/
def Section.sized (s : Section) : Section :=
  { s with virtSize := some (s.virtSize.getD (UInt32.ofNat s.content.virtSize)) }

theorem sizeSection_eq_ok {s s' : Section} (h : sizeSection s = .ok s') :
    s' = s.sized ∧ (s.virtSize = none → s.content.virtSize < UInt32.size) := by
  unfold sizeSection at h
  unfold Section.sized
  split at h
  · next size hsize =>
    cases h
    obtain ⟨name, content, flags, address, virtSize, rawSize, _, _, _, _, _, _⟩ := s
    cases hsize
    exact ⟨rfl, fun hnone => nomatch hnone⟩
  · next hnone =>
    rw [bind_eq_ok] at h
    obtain ⟨n, hn, heq⟩ := h
    unfold checkBelow at hn
    split at hn
    · next hlt =>
      cases hn
      rw [pure_eq_ok] at heq
      rw [hnone]
      exact ⟨heq.symm, fun _ => hlt⟩
    · exact nomatch hn

/-- What a section becomes with its row: it has a size in memory, and labels for its place and size
in the file.  Where the size in the file is fixed, its label is the one that was there. -/
structure Section.Headed (s e : Section) : Prop where
  content : s.content.Labelled e.content
  leftover : s.rawSize.isSome → e.rawSizeLabel = s.rawSizeLabel
  fields : e = { s.sized with
    content := e.content, rawAddressLabel := e.rawAddressLabel, rawSizeLabel := e.rawSizeLabel }

theorem Section.Headed.labelled {s e e' : Section} (h : s.Headed e) (he : e.Labelled e') :
    s.Headed e' := by
  obtain ⟨content, hcontent, rfl⟩ := he
  exact ⟨h.content.trans hcontent, h.leftover, by rw [h.fields]⟩

/-- The labels of its place and size in the file are all that a section with a size in memory gets
besides a label for its start. -/
theorem headed_sectionRawAddress {c c' : Context} {s t : Section} (h : s.sized.Labelled t) :
    s.Headed (sectionRawAddress c' (sectionRawSize c t).2.1).2.1 := by
  obtain ⟨content, hcontent, rfl⟩ := h
  cases hsize : s.rawSize with
  | some size =>
    have hfixed := sectionRawSize_fixed (c := c) (s := { s.sized with content }) hsize
    rw [hfixed]
    exact ⟨hcontent, fun _ => rfl, rfl⟩
  | none =>
    have hfloating := sectionRawSize_floating (c := c) (s := { s.sized with content }) hsize
    rw [hfloating]
    exact ⟨hcontent, fun hsome => absurd hsome (by rw [hsize]; exact Bool.false_ne_true), rfl⟩

/-- **A row holds the fields of its section.** -/
theorem encodeSectionHeader_eq_ok {c : Context} {s : Section} {row : SectionRow}
    (h : encodeSectionHeader c s = .ok row) :
    c.Keeps row.context ∧ s.Headed row.entry ∧
    row.row.virtSize = sectionHeaderSize ∧ row.row.FieldsInside ∧ row.row.exports = [] ∧
    (s.virtSize = none → s.content.virtSize < UInt32.size) ∧
    ∀ env, RowHolds env row.row 0 c.encoder.order c.start row.entry := by
  simp only [encodeSectionHeader, bind_eq_ok, pure_eq_ok] at h
  obtain ⟨s', hs', fields, hfields, rfl⟩ := h
  obtain ⟨rfl, hbelow⟩ := sizeSection_eq_ok hs'
  let rva := sectionRva c s.sized
  let size := sectionRawSize rva.2.2 rva.2.1
  let entry := (sectionRawAddress size.2.2 size.2.1).2.1
  have hkeeps := (keeps_sectionRva c s.sized).trans
    ((keeps_sectionRawSize rva.2.2 rva.2.1).trans (size.2.2.keeps_fresh "sect_rawaddr"))
  have hheaded : s.Headed entry := headed_sectionRawAddress (labelled_sectionRva c s.sized)
  have hinside : (ofBytes (shortName entry.name)).FieldsInside := fieldsInside_of_noFields rfl
  replace hfields : c.encoder.record (rowFields entry rva.1 size.1
      (sectionRawAddress size.2.2 size.2.1).1) = .ok fields := hkeeps.1 ▸ hfields
  refine ⟨hkeeps, hheaded, ?_, hinside.append (FieldEncoder.fieldsInside_record hfields), ?_,
    hbelow, fun env => ?_⟩
  · rw [virtSize_append, FieldEncoder.virtSize_record hfields, size_rowFields]
    exact congrArg (· + 32) (length_shortName entry.name)
  · rw [exports_append, FieldEncoder.exports_record hfields]
    rfl
  have hrva := holds_behind_name [_] hfields env entry.name
  have hsize := holds_behind_name [_, _] hfields env entry.name
  refine ⟨holds_behind_name [] hfields env _, fun address ha => ?_, fun hnone => ?_,
    fun hnone => ?_, _, rfl, holds_behind_name [_, _, _] hfields env _⟩
  · have haddress : s.sized.address = some address := (congrArg Section.address hheaded.fields) ▸ ha
    have hvalue : rva.1 = .ofSize address.toNat := congrArg (·.1) (sectionRva_fixed haddress)
    rw [hvalue] at hrva
    exact hrva
  · have haddress : s.sized.address = none := (congrArg Section.address hheaded.fields) ▸ hnone
    have hvalue := congrArg (·.1) (sectionRva_floating (c := c) haddress)
    have hcontent := congrArg (·.2.1.content) (sectionRva_floating (c := c) haddress)
    rw [show rva.1 = _ from hvalue] at hrva
    refine ⟨_, ?_, hrva⟩
    rw [show entry.content = rva.2.1.content from content_sectionRawSize _ _,
      show rva.2.1.content = _ from hcontent]
    exact mem_exports_labelAt c s.sized.content 0 "sect_start"
  · have hfree : rva.2.1.rawSize = none :=
      ((congrArg Section.rawSize hheaded.fields).trans
        (labelled_sectionRva c s.sized).grows.rawSize.symm).symm.trans hnone
    have hfloating := sectionRawSize_floating (c := rva.2.2) hfree
    rw [show size.1 = _ from congrArg (·.1) hfloating] at hsize
    exact ⟨_, congrArg (·.2.1.rawSizeLabel) hfloating, hsize⟩

/-! ## The table -/

/-- The flags that say what a section contains are all that changes. -/
theorem Section.withContentFlags_eq (s : Section) :
    s.withContentFlags = { s with flags := s.withContentFlags.flags } := by
  unfold withContentFlags
  split <;> rfl

/-- The table has one row for each of the sections, in order. -/
structure SectionTable.Describes (table : SectionTable) (c : Context) (sections : List Section) :
    Prop where
  context : c.Keeps table.context
  entries : List.Forall₂ (fun s e => s.withContentFlags.Headed e) sections table.sections
  small : ∀ s ∈ sections, s.virtSize = none → s.content.virtSize < UInt32.size
  virtSize : table.rows.virtSize = sectionHeaderSize * sections.length
  inside : table.rows.FieldsInside
  exports : table.rows.exports = []
  rows : ∀ env (i : Nat) e, table.sections[i]? = some e →
    RowHolds env table.rows (sectionHeaderSize * i) c.encoder.order c.start e

/-- **The section table describes the sections, one row each.** -/
theorem describes_encodeSectionTable {c : Context} {sections : List Section} {table : SectionTable}
    (h : encodeSectionTable c sections = .ok table) : table.Describes c sections := by
  induction sections generalizing c table with
  | nil =>
    cases h
    exact ⟨.refl c, .nil, fun _ hs => (nomatch hs), rfl, fieldsInside_empty, rfl,
      fun _ i e he => nomatch he⟩
  | cons s rest ih =>
    simp only [encodeSectionTable, bind_eq_ok, pure_eq_ok] at h
    obtain ⟨row, hrow, others, hothers, rfl⟩ := h
    obtain ⟨hkeeps, hentry, hsize, hinside, hexports, hsmall, hholds⟩ :=
      encodeSectionHeader_eq_ok hrow
    have hrest := ih hothers
    rw [s.withContentFlags_eq] at hsmall
    refine ⟨hkeeps.trans hrest.context, .cons hentry hrest.entries,
      List.forall_mem_cons.2 ⟨hsmall, hrest.small⟩, ?_,
      hinside.append hrest.inside, ?_, fun env i e he => ?_⟩
    · rw [virtSize_append, hsize, hrest.virtSize, List.length_cons, Nat.mul_succ, Nat.add_comm]
    · rw [exports_append, hexports, hrest.exports]
      rfl
    · cases i with
      | zero =>
        cases he
        exact (hholds env).map fun k t v hk => by
          rw [Nat.mul_zero]
          exact hk.append_left
      | succ i =>
        have hr := hrest.rows env i e he
        rw [hkeeps.1, hkeeps.2] at hr
        refine hr.map fun k t v hk => ?_
        have hright := hk.append_right hinside
        rw [hsize] at hright
        rw [Nat.mul_succ, Nat.add_comm (sectionHeaderSize * i), Nat.add_assoc]
        exact hright

end PortableImage
