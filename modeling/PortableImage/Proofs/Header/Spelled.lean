import PortableImage.Proofs.Field.Spelled
import PortableImage.Proofs.Header.Directories

/-!
# The headers as one record

The DOS header, the file header, the optional header and the section table are put together from
pieces, with labels on the way; what they come to is one record, its fields one behind the other.

* `Record.field?` — the field at an offset of a record.
* `stubRecord`, `fileRecord`, `rowRecord` — the records of the headers next to `optionalFields`.
* `HeadedImage.HoldsRecords` — where the headers of an image hold these records.
* `holdsRecords_withHeaders` — the headers of an assembled image do.
-/

set_option autoImplicit false

namespace PortableImage

open Buffer

/-! ## Fields by their offset -/

/-- The field that starts at an offset of a record. -/
def Record.field? : Record → Nat → Option (FieldType × Expr)
  | [], _ => none
  | x :: r, o => if o = 0 then some x else if x.1.width ≤ o then field? r (o - x.1.width) else none

/-- A field in front of others. -/
theorem Record.field?_append_left {r : Record} {k : Nat} {x : FieldType × Expr}
    (h : r.field? k = some x) (s : Record) : Record.field? (r ++ s) k = some x := by
  induction r generalizing k with
  | nil => cases h
  | cons y r ih =>
    rw [Record.field?] at h
    rw [List.cons_append, Record.field?]
    split at h
    · next hzero => rw [if_pos hzero, h]
    · next hzero =>
      rw [if_neg hzero]
      split at h
      · next hle => rw [if_pos hle, ih h]
      · cases h

/-- A field behind others. -/
theorem Record.field?_append_right (r s : Record) (k : Nat) :
    Record.field? (r ++ s) (k + r.size) = s.field? k := by
  induction r generalizing k with
  | nil => rfl
  | cons y r ih =>
    have hpos := y.1.width_pos
    rw [List.cons_append, Record.field?, Record.size_cons, if_neg (by omega), if_pos (by omega),
      show k + (y.1.width + Record.size r) - y.1.width = k + Record.size r by omega, ih]

namespace Buffer

variable {env : String → LinkValue} {b b' : Buffer} {order : ByteOrder} {f : FieldEncoder}
  {r : Record}

/-- The field at an offset of a record holds its value. -/
theorem HoldsRecord.field? {o k : Nat} {x : FieldType × Expr} (h : HoldsRecord env b order o r)
    (hx : r.field? k = some x) : b.Holds env (o + k) x.1 order (x.2.eval env) := by
  induction r generalizing o k with
  | nil => cases hx
  | cons y r ih =>
    rw [Record.field?] at hx
    split at hx
    · next hzero =>
      cases hx
      rw [hzero]
      exact h.1
    · split at hx
      · next hle =>
        have hrest := ih h.2 hx
        rwa [Nat.add_assoc, Nat.add_sub_cancel' hle] at hrest
      · cases hx

/-- Labels and zeros that are not written out make no difference to the values of fields. -/
theorem Holds.alike {o : Nat} {t : FieldType} {v : LinkValue} (h : b.Holds env o t order v)
    (hb : b'.Alike b) : b'.Holds env o t order v where
  inside := by
    rw [hb.virtSize_eq]
    exact h.inside
  apart k g := by
    rw [hb.fields]
    exact h.apart k g
  value := by
    rw [hb.fields, hb.contents]
    exact h.value

/-- What spells a record holds the values of its fields. -/
theorem Spells.holdsRecord (h : b.Spells f r) (env : String → LinkValue) :
    HoldsRecord env b f.order 0 r := by
  obtain ⟨b₀, hr, halike⟩ := h
  refine (holdsRecord_record hr env).map (k := 0) fun p t v _ _ hv => ?_
  rw [Nat.zero_add]
  exact hv.alike halike

end Buffer

/-! ## The records of the headers -/

/-- The DOS header, with the place of the signature behind it, and the signature. -/
def stubRecord (target : Target) : Record :=
  if target = .obj then []
  else (FieldValues.ofBytes (padTo headerOffsetPosition dosSignature)).record ++
    (.u32, .ofSize dosHeaderSize) :: (FieldValues.ofBytes peSignature).record

/-- The fields of a file header. -/
def fileRecord (h : FileHeader) : Record :=
  [(.u16, numberOr (h.machine.map (·.raw.toNat))),
    (.u16, numberOr (h.sectionCount.map (·.toNat))),
    (.u32, numberOr (h.timestamp.map (·.toNat))),
    (.u32, numberOr (h.symbolTable.map (·.toNat))),
    (.u32, numberOr (h.symbolCount.map (·.toNat))),
    (.u16, numberOr (h.optionalHeaderSize.map (·.toNat))),
    (.u16, numberOr (h.flags.map (·.bits.toNat)))]

/-- The fields of a row of the section table, those of the name first. -/
def rowRecord (s : Section) (rva rawSize rawAddress : Expr) : Record :=
  (FieldValues.ofBytes (shortName s.name)).record ++ rowFields s rva rawSize rawAddress

/-- The record is a row of the section. -/
def Section.IsRow (s : Section) (r : Record) : Prop :=
  ∃ rva rawSize rawAddress, r = rowRecord s rva rawSize rawAddress

theorem size_stubRecord (target : Target) : (stubRecord target).size = headerStart target := by
  cases target <;> rfl

theorem Section.IsRow.size_eq {s : Section} {r : Record} (h : s.IsRow r) :
    r.size = sectionHeaderSize := by
  obtain ⟨rva, rawSize, rawAddress, rfl⟩ := h
  rw [rowRecord, Record.size_append, FieldValues.size_record, FieldValues.size_ofBytes,
    length_shortName, size_rowFields]
  rfl

/-- More labels in a section do not change its row. -/
theorem Section.IsRow.labelled {s s' : Section} {r : Record} (h : s.IsRow r) (hs : s.Labelled s') :
    s'.IsRow r := by
  obtain ⟨content, -, rfl⟩ := hs
  exact h

theorem spells_encodeStub {f : FieldEncoder} {target : Target} {b : Buffer}
    (h : encodeStub f target = .ok b) : b.Spells f (stubRecord target) := by
  unfold encodeStub at h
  unfold stubRecord
  split at h
  · next hobj =>
    cases h
    rw [if_pos hobj]
    exact spells_empty f
  · next hobj =>
    simp only [encodeDosStub, bind_eq_ok, pure_eq_ok] at h
    obtain ⟨position, hposition, rfl⟩ := h
    have hfront := (spells_ofBytes f (padTo headerOffsetPosition dosSignature)).append
      (spells_encode hposition)
    have hall := hfront.extend peSignature
    rw [List.append_assoc] at hall
    rw [if_neg hobj]
    exact hall

/-- The file header that is returned is the one that is written. -/
theorem spells_encodeFileHeader {f : FieldEncoder} {given header : FileHeader}
    {sections optionalSize : Nat} {now : UInt32} {b : Buffer}
    (h : encodeFileHeader f given sections optionalSize now = .ok (b, header)) :
    b.Spells f (fileRecord header) ∧ header =
      ⟨some (given.machine.getD .unknown), some (.ofNat sections), some (given.timestamp.getD now),
        some (given.symbolTable.getD 0), some (given.symbolCount.getD 0),
        some (.ofNat optionalSize), some (given.flags.getD .none)⟩ := by
  obtain ⟨hmany, hlarge, -⟩ := lays_encodeFileHeader h
  simp only [encodeFileHeader, bind_eq_ok, pure_eq_ok, Prod.mk.injEq] at h
  obtain ⟨count, hcount, n, hn, fields, hfields, rfl, rfl⟩ := h
  obtain ⟨rfl, -⟩ := checkBelow_eq_ok hcount
  obtain ⟨rfl, -⟩ := checkBelow_eq_ok hn
  refine ⟨spells_record ?_, rfl⟩
  rw [← hfields, fileRecord, Option.map_some, Option.map_some, Option.map_some, Option.map_some,
    Option.map_some, Option.map_some, Option.map_some, UInt16.toNat_ofNat_of_lt' hmany,
    UInt16.toNat_ofNat_of_lt' hlarge]
  rfl

/-- The fields of the optional header depend on how numbers are written and on the label of the
start only. -/
theorem Context.Keeps.optionalFields_eq {c c' : Context} (h : c.Keeps c') :
    optionalFields c' = optionalFields c := by
  obtain ⟨pool, encoder, start⟩ := c
  obtain ⟨pool', encoder', start'⟩ := c'
  obtain ⟨hencoder, hstart⟩ := h
  cases hencoder
  cases hstart
  rfl

/-- The size of an optional header with its data directories. -/
def optionalHeaderSize (pe64 : Bool) (directoryCount : Nat) : Nat :=
  directoriesPosition pe64 + 8 * directoryCount

theorem size_directoryFields (image : Image) {count : Nat}
    (h : count ≤ DirectorySlot.all.length) : (directoryFields image count).size = 8 * count := by
  show Record.size ((DirectorySlot.all.take count).flatMap (directoryPlace image)) = _
  rw [size_directoryPlaces, List.length_take, Nat.min_eq_left h]

/-- The optional header spells its fields and the data directories. -/
theorem spells_encodeOptionalHeader {c : Context} {image : Image} {r : OptionalHeaderResult}
    (h : encodeOptionalHeader c image = .ok r) : ∃ directories : Record,
      r.header.Spells c.encoder (optionalFields c r.image.optionalHeader r.pending ++ directories) ∧
      (optionalFields c r.image.optionalHeader r.pending ++ directories).size =
        optionalHeaderSize c.encoder.pe64 image.directoryCount := by
  simp only [encodeOptionalHeader, bind_eq_ok, pure_eq_ok] at h
  obtain ⟨d, hd, ⟨⟩, hcount, header, hheader, rfl⟩ := h
  have hfills := fills_fillDefaults hd
  have hkeeps := hfills.context.trans (keeps_pendingHeader d.context d.header)
  rw [hkeeps.1, hkeeps.optionalFields_eq, hfills.directoryCount] at hheader
  refine ⟨_, spells_record hheader, ?_⟩
  rw [hfills.directoryCount] at hcount
  unfold checkDirectoryCount at hcount
  split at hcount
  · cases hcount
  · next hle =>
    rw [Record.size_append, size_optionalFields, size_directoryFields image (Nat.not_lt.1 hle)]
    rfl

theorem spells_encodeSectionHeader {c : Context} {s : Section} {row : SectionRow}
    (h : encodeSectionHeader c s = .ok row) :
    ∃ r, row.entry.IsRow r ∧ row.row.Spells c.encoder r := by
  simp only [encodeSectionHeader, bind_eq_ok, pure_eq_ok] at h
  obtain ⟨s', -, fields, hfields, rfl⟩ := h
  have hkeeps := (keeps_sectionRva c s').trans
    ((keeps_sectionRawSize _ (sectionRva c s').2.1).trans (Context.keeps_fresh _ "sect_rawaddr"))
  rw [show (sectionRawAddress _ _).2.2.encoder = c.encoder from hkeeps.1] at hfields
  exact ⟨_, ⟨_, _, _, rfl⟩, (spells_ofBytes c.encoder _).append (spells_record hfields)⟩

/-- The section table spells the rows of its sections, one behind the other. -/
theorem spells_encodeSectionTable {c : Context} {sections : List Section} {table : SectionTable}
    (h : encodeSectionTable c sections = .ok table) :
    ∃ rows : List Record, List.Forall₂ Section.IsRow table.sections rows ∧
      table.rows.Spells c.encoder rows.flatten := by
  induction sections generalizing c table with
  | nil =>
    cases h
    exact ⟨[], .nil, spells_empty c.encoder⟩
  | cons s rest ih =>
    simp only [encodeSectionTable, bind_eq_ok, pure_eq_ok] at h
    obtain ⟨row, hrow, others, hothers, rfl⟩ := h
    have hkeeps := (encodeSectionHeader_eq_ok hrow).1
    obtain ⟨r, hr, hspells⟩ := spells_encodeSectionHeader hrow
    obtain ⟨rows, hrows, hrest⟩ := ih hothers
    rw [hkeeps.1] at hrest
    exact ⟨r :: rows, .cons hr hrows, hspells.append hrest⟩

/-! ## All headers -/

/-- The headers of an image hold the records of their parts, one behind the other. -/
structure HeadedImage.HoldsRecords (h : HeadedImage) (a : Assembly) (target : Target) : Prop where
  stub : ∀ env, h.headers.HoldsRecord env a.context.encoder.order 0 (stubRecord target)
  file : ∀ env, h.headers.HoldsRecord env a.context.encoder.order (headerStart target)
    (fileRecord h.image.header)
  optional : ∀ env, h.headers.HoldsRecord env a.context.encoder.order
    (headerStart target + fileHeaderSize)
    (optionalFields a.context h.image.optionalHeader h.pending)
  rows : ∀ env i s, h.image.sections[i]? = some s → ∃ r, s.IsRow r ∧
    h.headers.HoldsRecord env a.context.encoder.order
      (headerStart target + fileHeaderSize +
        optionalHeaderSize a.context.encoder.pe64 a.image.directoryCount + sectionHeaderSize * i) r
  virtSize : h.headers.virtSize = headerStart target + fileHeaderSize +
    optionalHeaderSize a.context.encoder.pe64 a.image.directoryCount +
      sectionHeaderSize * h.image.sections.length

theorem size_fileRecord (h : FileHeader) : (fileRecord h).size = fileHeaderSize := rfl

/-- A row of a table stands behind the rows before it. -/
theorem holdsRecord_row {env : String → LinkValue} {b : Buffer} {order : ByteOrder} {o i : Nat}
    {sections : List Section} {rows : List Record} {s : Section}
    (hrows : List.Forall₂ Section.IsRow sections rows)
    (h : HoldsRecord env b order o rows.flatten) (hs : sections[i]? = some s) :
    ∃ r, s.IsRow r ∧ HoldsRecord env b order (o + sectionHeaderSize * i) r := by
  induction hrows generalizing o i with
  | nil => cases hs
  | @cons s' r sections rows hr hrows ih =>
    rw [List.flatten_cons, holdsRecord_append] at h
    cases i with
    | zero =>
      cases hs
      exact ⟨r, hr, h.1⟩
    | succ i =>
      rw [hr.size_eq] at h
      obtain ⟨r', hr', hholds⟩ := ih h.2 hs
      rw [Nat.add_assoc, Nat.add_comm sectionHeaderSize, ← Nat.mul_succ] at hholds
      exact ⟨r', hr', hholds⟩

theorem size_rows {sections : List Section} {rows : List Record}
    (hrows : List.Forall₂ Section.IsRow sections rows) :
    Record.size rows.flatten = sectionHeaderSize * sections.length := by
  induction hrows with
  | nil => rfl
  | cons hr hrows ih =>
    rw [List.flatten_cons, Record.size_append, hr.size_eq, ih, List.length_cons, Nat.mul_succ,
      Nat.add_comm]

/-- **The headers of an assembled image hold the records of their parts.** -/
theorem holdsRecords_withHeaders {a : Assembly} {target : Target} {h : HeadedImage}
    (hh : a.withHeaders target = .ok h) : h.HoldsRecords a target := by
  simp only [Assembly.withHeaders, bind_eq_ok, pure_eq_ok, Prod.exists] at hh
  obtain ⟨table, htable, optional, hoptional, stub, hstub, file, header, hfile, rfl⟩ := hh
  have htab := describes_encodeSectionTable htable
  have hopt := lays_encodeOptionalHeader hoptional
  have hkeeps := htab.context.trans hopt.context
  obtain ⟨rows, hrows, hspells⟩ := spells_encodeSectionTable htable
  -- the optional header may have labelled sections since
  have hlabelled : List.Forall₂ Section.IsRow optional.image.sections rows :=
    forall₂_trans (fun _ _ _ hs hr => hr.labelled hs) hopt.sections.flip hrows
  obtain ⟨directories, hoptspells, hsize⟩ := spells_encodeOptionalHeader hoptional
  have hfilespells := (spells_encodeFileHeader hfile).1
  have hstubspells := spells_encodeStub hstub
  rw [hkeeps.1] at hfilespells hstubspells
  rw [htab.context.1, htab.context.optionalFields_eq] at hoptspells hsize
  have hstart : (empty.addExport optional.context.start 0).Spells a.context.encoder [] :=
    (spells_empty _).congr ⟨rfl, rfl⟩
  have hall := (((hstart.append hstubspells).append hfilespells).append hoptspells).append hspells
  have hrecord := fun env => hall.holdsRecord env
  simp only [holdsRecord_append, Record.size_append, size_stubRecord, size_fileRecord,
    List.nil_append, Nat.zero_add] at hrecord
  have hvirt := hall.virtSize_eq
  simp only [Record.size_append, size_stubRecord, size_fileRecord, List.nil_append,
    size_rows hlabelled] at hvirt
  rw [Record.size_append] at hsize
  refine ⟨fun env => ?_, fun env => ?_, fun env => ?_, fun env i s hs => ?_, ?_⟩
  · exact (hrecord env).1.1.1
  · exact (hrecord env).1.1.2
  · exact (hrecord env).1.2.1
  · have hrow := holdsRecord_row hlabelled (hrecord env).2 hs
    rw [hsize] at hrow
    exact hrow
  · rw [hsize] at hvirt
    exact hvirt

end PortableImage
