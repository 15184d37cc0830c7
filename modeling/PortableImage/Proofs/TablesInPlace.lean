import PortableImage.Proofs.Directory.ImportView
import PortableImage.Proofs.Encode.InPlace
import PortableImage.Proofs.Encode.LabelPlaces
import PortableImage.Proofs.FileLayout
import PortableImage.Proofs.Relocation.Emitted
import PortableImage.Proofs.TableDirectory

/-!
# Address tables in place

A library may ask for its address table at an address inside a section of the image.  The table is
then written over the section, and tables may be so close that the zero entry at the end of one lies
where another one starts.

The tables are written in the order of their addresses, so a table may end with its zero entry on the
entries of a later one, but never the other way round; a table that has only the zero entry is the one
that can start inside another one.

* `AddressesApart`, `FieldsApart` — the tables lie apart from each other and from what is pending.
* `Encoding.exists_without` — what the tables do not cover.
* `Encoding.exists_entries`, `Encoding.getElem?_stop` — the entries of a table, and its zero entry.
* `EncodedImage.HasTable`, `FileView.LooksUp` — what a file has of a table, and of its lookup table.
* `encodeImage_tablesInPlace` — every table in place has the entries of its lookup table.
-/

set_option autoImplicit false

namespace PortableImage

open Buffer Assembly

/-! ## Which tables lie apart -/

/-- The entries of an address table take this many bytes; a zero entry follows them. -/
def ImportDirectory.entriesSize (dir : ImportDirectory) (width : Nat) : Nat :=
  width * dir.imports.length

/-- No two libraries ask for the same address, and the entries of two tables lie apart.  The zero entry
at the end of a table may lie where another one is; but a table without entries may not start inside
the entries of another one. -/
def AddressesApart (width : Nat) (dirs : List ImportDirectory) : Prop :=
  dirs.Pairwise fun dir dir' => ∀ rva ∈ dir.tableAddress, ∀ rva' ∈ dir'.tableAddress, rva ≠ rva' ∧
    (rva.toNat + dir.entriesSize width ≤ rva'.toNat ∨
      rva'.toNat + dir'.entriesSize width ≤ rva.toNat)

instance (width : Nat) (dirs : List ImportDirectory) : Decidable (AddressesApart width dirs) :=
  -- by the address that is there, not by trying all addresses
  letI {p : UInt32 → Prop} [DecidablePred p] (o : Option UInt32) : Decidable (∀ rva ∈ o, p rva) :=
    Option.decidableForallMem o
  inferInstanceAs (Decidable (dirs.Pairwise _))

/-- The pending fields of the sections, where they are in the file, lie apart from the tables. -/
def FieldsApart (v : FileView) (sections : List Section) (tables : List (Nat × Buffer)) : Prop :=
  ∀ x ∈ sections.zip v.sections, ∀ f ∈ x.1.content.fields.entries,
    ApartFromTables v tables (x.2.rawAddress + f.1) f.2.type.width

instance (v : FileView) (tables : List (Nat × Buffer)) (place size : Nat) :
    Decidable (ApartFromTables v tables place size) :=
  inferInstanceAs (Decidable (∀ t ∈ tables, ∀ start ∈ v.offset? t.1, _))

instance (v : FileView) (sections : List Section) (tables : List (Nat × Buffer)) :
    Decidable (FieldsApart v sections tables) :=
  inferInstanceAs (Decidable (∀ x ∈ sections.zip v.sections, ∀ f ∈ x.1.content.fields.entries, _))

theorem Buffer.IsAddressTable.entriesSize_eq {b : Buffer} {width count : Nat}
    (h : b.IsAddressTable width count) : PortableImage.entriesSize width b = width * count := by
  rw [PortableImage.entriesSize, h.size, Nat.mul_succ, Nat.add_sub_cancel]

namespace Assembly

variable {a : Assembly} {sections : List Section} {dirs : List ImportDirectory} {b : Buffer}
  {tables : List Buffer} (h : a.Imported sections dirs b tables)

include h

/-- Every table in place is the address table of a library that asks for the address. -/
theorem Imported.exists_library {t : Nat × Buffer} (ht : t ∈ a.tablesInPlace) :
    ∃ (n : Nat) (dir : ImportDirectory), dirs[n]? = some dir ∧ tables[n]? = some t.2 ∧
      fixedPlace sections dir = some t.1 ∧
      t.2.IsAddressTable a.context.encoder.addressType.width dir.imports.length := by
  rw [h.inPlace, inPlaceTables] at ht
  obtain ⟨⟨dir, table⟩, hmem, hplace⟩ := List.mem_filterMap.1 ht
  obtain ⟨rva, hrva, rfl⟩ := Option.map_eq_some_iff.1 hplace
  obtain ⟨n, hn⟩ := List.mem_iff_getElem?.1 hmem
  obtain ⟨hdir, htable⟩ := List.getElem?_zip_eq_some.1 hn
  obtain ⟨table', htable', hformed, -⟩ := h.exists_table hdir
  rw [htable, Option.some.injEq] at htable'
  exact ⟨n, dir, hdir, htable, hrva, htable' ▸ hformed⟩

/-- The tables in place lie apart if the libraries ask for such addresses. -/
theorem Imported.pairwise_tablesInPlace
    (hapart : AddressesApart a.context.encoder.addressType.width dirs) :
    a.tablesInPlace.Pairwise (TablesApart a.context.encoder.addressType.width) := by
  rw [h.inPlace, inPlaceTables, List.pairwise_filterMap, List.pairwise_iff_getElem]
  intro i j hi hj hij t ht u hu
  rw [List.length_zip, Nat.lt_min] at hi hj
  rw [List.getElem_zip] at ht hu
  obtain ⟨place, hplace, rfl⟩ := Option.map_eq_some_iff.1 ht
  obtain ⟨place', hplace', rfl⟩ := Option.map_eq_some_iff.1 hu
  obtain ⟨rva, hrva, rfl⟩ := fixedPlace_eq_some hplace
  obtain ⟨rva', hrva', rfl⟩ := fixedPlace_eq_some hplace'
  obtain ⟨hne, hends⟩ := List.pairwise_iff_getElem.1 hapart i j hi.1 hj.1 hij rva hrva rva' hrva'
  have hsize : ∀ (n : Nat) (hn : n < dirs.length) (hn' : n < tables.length),
      entriesSize a.context.encoder.addressType.width tables[n] =
        (dirs[n]).entriesSize a.context.encoder.addressType.width := by
    intro n hn hn'
    obtain ⟨table, htable, hformed, -⟩ := h.exists_table (List.getElem?_eq_getElem hn)
    rw [List.getElem?_eq_getElem hn', Option.some.injEq] at htable
    rw [htable, hformed.entriesSize_eq, ImportDirectory.entriesSize]
  refine ⟨fun heq => hne (UInt32.toNat_inj.1 heq), ?_⟩
  dsimp only
  rw [hsize i hi.1 hi.2, hsize j hj.1 hj.2]
  exact hends

end Assembly

/-! ## The bytes of the tables -/

/-- The pending fields of address tables are those of their entries. -/
theorem entries_inside {tables : List (Nat × Buffer)} {width : Nat}
    (hforms : ∀ t ∈ tables, ∃ count, t.2.IsAddressTable width count) :
    ∀ t ∈ tables, ∀ k f, t.2.fields.get? k = some f → k + f.type.width ≤ entriesSize width t.2 := by
  intro t ht k f hf
  obtain ⟨count, hcount⟩ := hforms t ht
  rw [hcount.entriesSize_eq]
  exact hcount.entries k f hf

namespace Encoding

variable {image : Image} {options : EncodeOptions} {clock : UInt32} {a : Assembly}
  {h : HeadedImage} {q p : Placement} {e : EncodedImage} {size : Nat}
  (enc : Encoding image options clock a h q p e size)

include enc

/-- Behind the headers, the file is the output whose fields have been written. -/
theorem exists_behind_headers : ∃ output : Buffer, p.output.fill.fixup p.binding = .ok output ∧
    ∀ i, h.headersSize ≤ i → e.bytes[i]? = output.data[i]? := by
  obtain ⟨output, hfix, -, -, -, hsame⟩ := enc.exists_output
  have hle := enc.checksum_le
  exact ⟨output, hfix, fun i hi => hsame.getElem?_eq i (.inr (by omega))⟩

theorem apartFromTables_iff (hlen : e.bytes.length < UInt64.size) {o len : Nat} :
    ApartFromTables (e.view image options) a.tablesInPlace o len ↔
      q.ApartFrom a.tablesInPlace o len := by
  simp only [ApartFromTables, Placement.ApartFrom, enc.view_offset? hlen]

/-- A table lies behind the headers. -/
theorem headersSize_le_offset {t : Nat × Buffer} (ht : t ∈ a.tablesInPlace) {o : Nat}
    (ho : q.tableOffset t.1 = some o) :
    h.headersSize ≤ o ∧ o + t.2.virtSize ≤ p.output.virtSize := by
  obtain ⟨r, hr, rfl, hroom⟩ := enc.places.exists_room ht ho
  obtain ⟨i, hi⟩ := List.mem_iff_getElem?.1 hr
  obtain ⟨x, -, hle, address, hat⟩ := exists_left_of_forall₂ enc.places.sections hi
  have hinside := hat.inside
  have hwritten := hroom.written
  rw [enc.places.tables.virtSize]
  omega

variable {width : Nat}
  (hpairs : (orderedTables a.tablesInPlace).Pairwise (LiesBefore width))
  (hforms : ∀ t ∈ a.tablesInPlace, ∃ count, t.2.IsAddressTable width count)
  (hfields : ∀ k f, q.output.fields.get? k = some f → q.ApartFrom a.tablesInPlace k f.type.width)

include hforms hfields in
/-- **What the tables do not cover is as it would be without them.** -/
theorem exists_without : ∃ bare : Buffer, q.output.fill.fixup p.binding = .ok bare ∧
    ∀ i, h.headersSize ≤ i → q.ApartFrom a.tablesInPlace i 1 → e.bytes[i]? = bare.data[i]? := by
  obtain ⟨output, hfix, hbytes⟩ := enc.exists_behind_headers
  have hstay : ∀ k f, q.output.fields.get? k = some f → p.output.fields.get? k = some f := by
    intro k f hf
    have hpos := f.type.width_pos
    rw [enc.places.tables.fields k fun t ht o ho => ?_, hf]
    have hcases := hfields k f hf t (mem_orderedTables.1 ht) o ho
    have hsize := (hforms t (mem_orderedTables.1 ht)).choose_spec.size
    omega
  obtain ⟨bare, hbare⟩ := exists_fixup (c := q.output.fill) hfix fun k f hf => ⟨k, hstay k f hf⟩
  have hsize : p.output.fill.rawSize = q.output.fill.rawSize := by
    rw [rawSize_fill, rawSize_fill, enc.places.tables.virtSize]
  refine ⟨bare, hbare, fun i hi hapart => ?_⟩
  rw [hbytes i hi]
  by_cases hlt : i < p.output.fill.rawSize
  · have hsame := getElem?_fixup_same hfix hbare (o := 0) (j := i) (by omega) (by omega) ?_
      (fun k f hk hcovers => ?_) (fun k f hk => nomatch hk) fun _ _ _ _ _ => rfl
    · rw [Nat.zero_add] at hsame
      exact hsame
    · rw [Nat.zero_add, data_fill, data_fill]
      exact enc.places.tables.bytes i fun t ht => hapart t (mem_orderedTables.1 ht)
    · rw [Nat.zero_add, fields_fill, fields_fill]
      refine ⟨fun hf => ?_, hstay k f⟩
      rcases enc.places.field_cases hfields (entries_inside hforms) hf with
        ⟨hf, -⟩ | ⟨t, ht, o, ho, hle, hends⟩
      · exact hf
      · have hcases := hapart t ht o ho
        have hentries : entriesSize width t.2 ≤ t.2.virtSize := Nat.sub_le _ _
        omega
  · obtain ⟨hraw, -⟩ := rawSize_fixup hfix rfl enc.places.tables.sound.inside.fill
    obtain ⟨hraw', -⟩ := rawSize_fixup hbare rfl enc.places.sound.inside.fill
    rw [rawSize] at hraw hraw'
    rw [List.getElem?_eq_none (by omega), List.getElem?_eq_none (by omega)]

include hpairs hforms hfields

/-- **The entries of a table are in the file as if the table had been fixed up alone.** -/
theorem exists_entries {t : Nat × Buffer} (ht : t ∈ a.tablesInPlace) {o : Nat}
    (ho : q.tableOffset t.1 = some o) :
    ∃ table, t.2.fixup p.binding = .ok table ∧ ∀ j, j < entriesSize width t.2 →
      e.bytes[o + j]? = table.contents[j]? := by
  obtain ⟨output, hfix, hbytes⟩ := enc.exists_behind_headers
  obtain ⟨count, hcount⟩ := hforms t ht
  obtain ⟨hheaders, hend⟩ := enc.headersSize_le_offset ht ho
  have hwindow : ∀ {k}, k < entriesSize width t.2 → _ := fun {k} hk =>
    enc.places.window_entry hpairs enc.tablesInside ht ho (k := k) hk
  have hentries := entries_inside hforms t ht
  obtain ⟨table, htable⟩ := exists_fixup hfix fun k f hk => by
    have hle := hentries k f hk
    have hpos := f.type.width_pos
    exact ⟨o + k, (hwindow (by omega)).2.trans hk⟩
  obtain ⟨hraw, htail⟩ := rawSize_fixup htable hcount.full (enc.tablesInside t ht)
  have hsize : t.2.rawSize = t.2.virtSize := by rw [virtSize, hcount.full, rawSize, Nat.add_zero]
  refine ⟨table, htable, fun j hj => ?_⟩
  have hlt : j < t.2.virtSize := Nat.lt_of_lt_of_le hj (Nat.sub_le _ _)
  rw [hbytes _ (by omega), contents_eq_data htail]
  refine getElem?_fixup_same hfix htable ?_ (by omega) ?_ (fun k f hk _ => ?_) (fun k f hk hf => ?_)
    fun _ _ _ _ _ => rfl
  · rw [rawSize_fill]
    omega
  · rw [data_fill, (hwindow hj).1, contents_eq_data hcount.full]
  · rw [fields_fill, (hwindow (Nat.lt_of_le_of_lt hk hj)).2]
  · -- a field in front of the table is not pending in a table that starts behind this one
    rw [fields_fill] at hf
    have hpos := f.type.width_pos
    rcases enc.places.field_cases hfields (entries_inside hforms) hf with
      ⟨-, hapart⟩ | ⟨u, hu, o', ho', hle, hends⟩
    · have hcases := hapart t ht o ho
      omega
    · have hne : t ≠ u := by
        rintro rfl
        rw [ho, Option.some.injEq] at ho'
        omega
      have hoffsets := enc.places.offset_cases ht hu ho ho'
      have hentriesU : entriesSize width u.2 ≤ u.2.virtSize := Nat.sub_le _ _
      rcases rel_or_rel_of_pairwise hpairs (mem_orderedTables.2 ht) (mem_orderedTables.2 hu) hne
        with hbefore | hbefore
      · have hlt := hbefore.1
        omega
      · have hle := hbefore.2
        omega

/-- **The zero entry at the end of a table is in the file** where no other table is. -/
theorem getElem?_stop {t : Nat × Buffer} (ht : t ∈ a.tablesInPlace) {o j : Nat}
    (ho : q.tableOffset t.1 = some o) (hj : entriesSize width t.2 ≤ j) (hlt : j < t.2.virtSize)
    (hothers : ∀ u ∈ a.tablesInPlace, u.1 ≠ t.1 →
      t.1 + j < u.1 ∨ u.1 + u.2.virtSize ≤ t.1 + j) : e.bytes[o + j]? = some 0 := by
  obtain ⟨output, hfix, hbytes⟩ := enc.exists_behind_headers
  obtain ⟨count, hcount⟩ := hforms t ht
  obtain ⟨hheaders, hend⟩ := enc.headersSize_le_offset ht ho
  have hzero : t.2.contents[j]? = some 0 := by
    rw [hcount.entriesSize_eq] at hj
    rw [hcount.size] at hlt
    exact hcount.stop j hj hlt
  obtain ⟨hcontents, -⟩ := enc.places.window hpairs enc.tablesInside ht ho hlt
    fun u hu hbefore => hothers u hu (Nat.ne_of_gt hbefore.1)
  rw [hbytes _ (by omega), getElem?_fixup hfix ?_ fun k f hf _ => ?_, data_fill, hcontents, hzero]
  · rw [rawSize_fill]
    omega
  · rw [fields_fill] at hf
    have hpos := f.type.width_pos
    rcases enc.places.field_cases hfields (entries_inside hforms) hf with
      ⟨-, hapart⟩ | ⟨u, hu, o', ho', hle, hends⟩
    · have hcases := hapart t ht o ho
      omega
    · have hentriesU : entriesSize width u.2 ≤ u.2.virtSize := Nat.sub_le _ _
      by_cases heq : u.1 = t.1
      · -- the only table with this address is the table itself
        have hsame : t = u := by
          by_contra hne
          rcases rel_or_rel_of_pairwise hpairs (mem_orderedTables.2 ht) (mem_orderedTables.2 hu) hne
            with hbefore | hbefore
          · exact absurd heq.symm (Nat.ne_of_lt hbefore.1)
          · exact absurd heq (Nat.ne_of_lt hbefore.1)
        subst hsame
        rw [ho, Option.some.injEq] at ho'
        omega
      · have hcases := hothers u hu heq
        have hoffsets := enc.places.offset_cases ht hu ho ho'
        omega

end Encoding

/-! ## The bytes of a generated directory -/

namespace Encoding

variable {image : Image} {options : EncodeOptions} {clock : UInt32} {a : Assembly}
  {h : HeadedImage} {q p : Placement} {e : EncodedImage} {size : Nat}
  (enc : Encoding image options clock a h q p e size)

include enc

variable (hlen : e.bytes.length < UInt64.size)
  (hinside : ∀ s ∈ image.sections, s.content.FieldsInside)
  {slots : List DirectorySlot} {l : List GeneratedDirectory}
  (hd : (Assembly.start image (options.timestamp.getD clock)).Directories a slots l)

include hlen hinside hd

/-- **A generated directory is in what would be written without the tables.** -/
theorem exists_directoryBytes {bare : Buffer} (hbare : q.output.fill.fixup p.binding = .ok bare)
    {x : GeneratedDirectory} (hx : x ∈ l) {b : Buffer} (hb : b.Labelled x.content)
    (htail : b.tail = 0) :
    ∃ r, e.LabelIn (e.view image options) x.label r x.offset ∧
      b.PlacedAt p.binding a.context.start (r.rva + x.offset) ∧ h.headersSize ≤ r.rawAddress ∧
      ∃ b', b.fixup p.binding = .ok b' ∧
        bytesAt bare.data (r.rawAddress + x.offset) b.virtSize = b'.contents := by
  obtain ⟨s, -, hs, -⟩ := hd.stands x hx
  have hhost := hd.hosts hinside x hx s hs
  obtain ⟨s', r, address, hs', hr, hheaders, hat, hlabelled⟩ :=
    enc.exists_placed_of_assembled hs
  have hshows : s'.content.Shows x.offset b :=
    (hhost.shows.of_grows hb.grows).grows hlabelled.grows
  have hin : b.FieldsInside := hb.inside_iff.1 (hd.inside x hx)
  have hwritten : s'.content.FieldsWritten := hlabelled.written_iff.2 hhost.written
  have hstands := hd.stands x hx
  have hraw : x.offset + b.rawSize ≤ s.content.rawSize := hb.rawSize_eq ▸ hstands.rawSize_le hs
  have hvirt : b.virtSize = b.rawSize := by rw [virtSize, htail, Nat.add_zero, rawSize]
  have hrawSize := hat.rawSize
  have hgrows := hlabelled.grows.rawSize_le
  have hplaced := hat.shows hwritten hshows (by omega)
  refine ⟨r.seen, ?_, enc.placedAt_generated hlen hinside hd hx hb hr, hheaders, ?_⟩
  · obtain ⟨t, ht, hmem⟩ := hstands.exports (hd.labels x hx)
    rw [hs, Option.some.injEq] at ht
    subst ht
    exact enc.labelIn_of_mem hlen hs' hr (hlabelled.grows.exports.subset hmem)
  · exact hplaced.bytesAt_fixup enc.places.sound.inside hin hbare

end Encoding

/-! ## What a file has of a table -/

/-- The bytes of a section in the file end where those of the next one start. -/
def FileView.rawEnd (v : FileView) (i : Nat) : Nat :=
  ((v.sections[i + 1]?).map (·.rawAddress)).getD v.data.length

/-- The bytes that the import directory takes from the offset `k` of a section on, says the finished
image. -/
def EncodedImage.ImportsIn (e : EncodedImage) (v : FileView) (r : FileSection) (k size : Nat) : Prop :=
  ∃ label start, e.image.directory? .importTable = some ⟨.label label - .label start, .ofSize size⟩ ∧
    e.LabelIn v label r k

/-- The directory from the offset `k` of a section on, with the bytes that `data` has there. -/
def FileView.directoryIn (v : FileView) (data : List UInt8) (r : FileSection) (k size : Nat) :
    DirectoryView :=
  ⟨bytesAt data (r.rawAddress + k) size, v.order, r.rva + k⟩

/-- The address table of a library is in the file at `o`.  It lies in the section with the index `i`,
in memory and in the file.  Its slots have their labels, and a zero entry ends it where none of the
other tables is. -/
structure EncodedImage.HasTable (e : EncodedImage) (v : FileView) (binding : Binding)
    (tables : List (Nat × Buffer)) (width : Nat) (dir : ImportDirectory) (rva i o : Nat) : Prop where
  found : v.offset? rva = some o
  index : i < v.sectionCount
  mapped : (v.row i).rva ≤ rva ∧
    rva + dir.tableSize width ≤ (v.row i).rva + (v.row i).virtSize
  place : o = (v.row i).rawAddress + (rva - (v.row i).rva)
  written : o + dir.tableSize width ≤ v.rawEnd i
  extent : ∀ s, e.image.sections[i]? = some s → s.rawSize = none →
    v.rawEnd i = (v.extent i).1 + (v.extent i).2
  slots : ∀ (j : Nat) x, dir.imports[j]? = some x → ∃ target, x.target = some target ∧
    binding.get? target = some (.ofSize (v.imageBase + rva + width * j))
  stop : ∀ j, dir.entriesSize width ≤ j → j < dir.tableSize width →
    (∀ t ∈ tables, t.1 ≠ rva → rva + j < t.1 ∨ t.1 + t.2.virtSize ≤ rva + j) →
    v.data[o + j]? = some 0

/-- The descriptor with the index `n` leads to an address table, which is in the file at `o`, and to a
lookup table with the same entries. -/
structure FileView.LooksUp (v : FileView) (d : DirectoryView) (width n : Nat) (dir : ImportDirectory)
    (rva o : Nat) : Prop where
  place : d.number 4 (20 * n + 16) = rva
  inside : d.lookups (20 * n) + dir.tableSize width ≤ d.data.length
  entries : ∀ j, j < dir.imports.length →
    v.number width (o + width * j) = d.number width (d.lookups (20 * n) + width * j)

namespace Encoding

variable {image : Image} {options : EncodeOptions} {clock : UInt32} {a : Assembly}
  {h : HeadedImage} {q p : Placement} {e : EncodedImage} {size : Nat}
  (enc : Encoding image options clock a h q p e size)

include enc

/-- The bytes of a section take what it was placed with. -/
theorem view_rawEnd (hlen : e.bytes.length < UInt64.size) {i : Nat} {r : PlacedSection}
    (hr : q.placed[i]? = some r) :
    (e.view image options).rawEnd i = r.rawAddress + r.rawSize := by
  rw [FileView.rawEnd, enc.view_sections hlen, List.getElem?_map]
  cases hnext : q.placed[i + 1]? with
  | none => exact enc.length_bytes.trans (enc.places.tiles.last hr hnext)
  | some s => exact enc.places.tiles.next hr hnext

theorem forms_tablesInPlace {sections : List Section} {dirs : List ImportDirectory} {b : Buffer}
    {tables : List Buffer} (himported : a.Imported sections dirs b tables) :
    ∀ t ∈ a.tablesInPlace, ∃ count,
      t.2.IsAddressTable image.encoder.addressType.width count := by
  intro t ht
  obtain ⟨-, dir, -, -, -, hformed⟩ := himported.exists_library ht
  rw [show a.context.encoder = image.encoder from enc.encoder_eq] at hformed
  exact ⟨_, hformed⟩

theorem pairwise_tablesInPlace {sections : List Section} {dirs : List ImportDirectory} {b : Buffer}
    {tables : List Buffer} (himported : a.Imported sections dirs b tables)
    (hapart : AddressesApart image.encoder.addressType.width dirs) :
    (orderedTables a.tablesInPlace).Pairwise (LiesBefore image.encoder.addressType.width) := by
  have hencoder : a.context.encoder = image.encoder := enc.encoder_eq
  rw [← hencoder] at hapart ⊢
  exact pairwise_orderedTables (himported.pairwise_tablesInPlace hapart)

section Library

variable (hlen : e.bytes.length < UInt64.size) {sections : List Section}
  {dirs : List ImportDirectory} {b : Buffer} {tables : List Buffer}
  (himported : a.Imported sections dirs b tables)
  (hapart : AddressesApart image.encoder.addressType.width dirs)
  (hfields : ∀ k f, q.output.fields.get? k = some f → q.ApartFrom a.tablesInPlace k f.type.width)
  {n rva : Nat} {dir : ImportDirectory} {table : Buffer} (hdir : dirs[n]? = some dir)
  (htable : tables[n]? = some table) (hplace : fixedPlace sections dir = some rva)

include hlen himported hapart hfields hdir htable hplace

/-- **The address table of a library is in the section that it was asked for.** -/
theorem exists_hasTable : ∃ i o, q.tableOffset rva = some o ∧
    e.HasTable (e.view image options) p.binding a.tablesInPlace image.encoder.addressType.width dir
      rva i o := by
  have hencoder : a.context.encoder = image.encoder := enc.encoder_eq
  have hforms := enc.forms_tablesInPlace himported
  have hpairs := enc.pairwise_tablesInPlace himported hapart
  have hmem := himported.mem_tablesInPlace hdir htable hplace
  obtain ⟨table', htable', hformed, hslots⟩ := himported.exists_table hdir
  rw [htable, Option.some.injEq] at htable'
  subst htable'
  rw [hencoder] at hformed hslots
  have hsize : table.virtSize = dir.tableSize image.encoder.addressType.width := hformed.size
  obtain ⟨r, hr, ho, hroom⟩ := enc.places.tables.room _ (mem_orderedTables.2 hmem)
  obtain ⟨i, hi⟩ := List.mem_iff_getElem?.1 hr
  obtain ⟨s, hs, -, address, hat⟩ := exists_left_of_forall₂ enc.places.sections hi
  have hrow := (enc.view_row hs hat hlen).1
  have hle := hroom.le
  have hmapped := hroom.mapped
  have hwritten := hroom.written
  dsimp only at ho hle hmapped hwritten
  rw [hsize] at hmapped hwritten
  refine ⟨i, _, ho, (enc.view_offset? hlen rva).trans ho, ?_, ?_, ?_, ?_, fun s' hs' hfree => ?_,
    fun j x hx => ?_, fun j hj hlt hothers => ?_⟩
  · rw [enc.view_sectionCount, ← enc.length_placed]
    exact (List.getElem?_eq_some_iff.1 hi).1
  · rw [hrow]
    exact ⟨hle, hmapped⟩
  · rw [hrow]
    rfl
  · rw [enc.view_rawEnd hlen hi]
    omega
  · obtain ⟨s₀, hs₀, content, -, rfl⟩ := exists_left_of_forall₂ enc.finished.sections hs'
    rw [hs, Option.some.injEq] at hs₀
    subst hs₀
    rw [enc.view_rawEnd hlen hi, enc.view_extent_of_free hlen hs hfree hi]
    rfl
  · obtain ⟨target, htarget⟩ := Option.isSome_iff_exists.1
      (himported.targets dir (List.mem_of_getElem? hdir) x (List.mem_of_getElem? hx))
    refine ⟨target, htarget, ?_⟩
    rw [enc.view_imageBase]
    exact enc.places.tables.exports _ (mem_orderedTables.2 hmem) target _
      (hslots j x target hx htarget)
  · refine enc.getElem?_stop hpairs hforms hfields hmem ho ?_ (hsize ▸ hlt) hothers
    rw [hformed.entriesSize_eq]
    exact hj

/-- **The lookup table of a library has the entries of its address table.**  The import directory has
the address `start`. -/
theorem looksUp {b' : Buffer} {start o : Nat} (ho : q.tableOffset rva = some o)
    (hplaced : b.PlacedAt p.binding a.context.start start) (hfix : b.fixup p.binding = .ok b') :
    (e.view image options).LooksUp ⟨b'.contents, image.order, start⟩ image.encoder.addressType.width
      n dir rva o := by
  have hencoder : a.context.encoder = image.encoder := enc.encoder_eq
  have hmem := himported.mem_tablesInPlace hdir htable hplace
  obtain ⟨fixed, hfixed, hbytes⟩ := enc.exists_entries (enc.pairwise_tablesInPlace himported hapart)
    (enc.forms_tablesInPlace himported) hfields hmem ho
  obtain ⟨table', htable', hformed, -⟩ := himported.exists_table hdir
  rw [htable, Option.some.injEq] at htable'
  subst htable'
  rw [hencoder] at hformed
  obtain ⟨c, bs, c', hkeeps, hencode, hlabelled⟩ := himported.encoded
  obtain ⟨t, himports, hall⟩ := librariesAt_encodeImports hencode
  have hstart : t.context.start = a.context.start := himports.keeps.2.trans hkeeps.2
  have hencoder' : t.context.encoder = image.encoder :=
    (himports.keeps.1.trans hkeeps.1).trans hencoder
  obtain ⟨bare, hbare, hlabels⟩ := exists_left_of_forall₂ hlabelled htable
  obtain ⟨fixed', hfixed', halike⟩ := hlabels.alike.fixup hfixed
  -- the table is at the address, which its labels say
  have hrva : rva < 2 ^ 32 := by
    obtain ⟨given, -, rfl⟩ := fixedPlace_eq_some hplace
    exact given.toNat_lt
  obtain ⟨-, hend⟩ := enc.headersSize_le_offset hmem ho
  rw [← enc.finished.size] at hend
  dsimp only at hend
  have hsize := hlabels.virtSize_eq
  rw [UInt64.size] at hlen
  have hat : bare.PlacedAt p.binding c.start rva := by
    rw [show c.start = a.context.start from hkeeps.2]
    refine enc.placedAt_of_exports (fun l k hlk => ?_) (by omega)
    exact enc.places.tables.exports _ (mem_orderedTables.2 hmem) l k
      (hlabels.grows.exports.subset hlk)
  rw [← hstart] at hplaced
  obtain ⟨-, hlibraries⟩ := hall p.binding _ _
    ⟨hplaced.constant, hplaced.get?_start, himports.forms.located hplaced⟩
  obtain ⟨hnumber, hlength, hlookups⟩ := (hlibraries n dir bare rva hdir hbare hat).hasAt_lookups
    himports.forms hplaced hfix himports.names (by omega) hfixed'
  rw [Tables.view, hencoder'] at hnumber hlookups
  rw [hencoder'] at hlength
  have hbytesAt := hlookups.bytesAt_eq
  rw [hlength] at hbytesAt
  refine ⟨hnumber, ?_, fun j hj => ?_⟩
  · have hinside := hlookups.inside (List.ne_nil_of_length_pos (hlength ▸ Nat.mul_pos
      (FieldType.width_pos _) (Nat.succ_pos _)))
    rw [hlength] at hinside
    exact hinside
  · refine congrArg image.order.toNat (List.ext_getElem? fun i => ?_)
    rw [getElem?_bytesAt, getElem?_bytesAt]
    split
    · next hi =>
      have hentry := Nat.mul_le_mul_left image.encoder.addressType.width (Nat.succ_le_of_lt hj)
      rw [Nat.mul_succ] at hentry
      show e.bytes[_]? = _
      have hread := congrArg (·[image.encoder.addressType.width * j + i]?) hbytesAt
      rw [getElem?_bytesAt, if_pos (by rw [Nat.mul_succ]; omega)] at hread
      rw [Nat.add_assoc, hbytes _ (by rw [hformed.entriesSize_eq]; omega), Nat.add_assoc,
        halike.contents]
      exact hread.symm
    · rfl

end Library

end Encoding

/-! ## Images with tables in place -/

/-- What would be written if the tables in place were left out: the sections where they are, with the
values that the labels have beside the tables. -/
def withoutTables (image : Image) (options : EncodeOptions) (clock : UInt32) :
    Except EncodeError Buffer := do
  let a ← ((Assembly.start image (options.timestamp.getD clock)).withDirectories options).result
  let h ← a.withHeaders options.target
  let q ← (place h []).result
  let p ← (place h a.tablesInPlace).result
  q.output.fill.fixup p.binding

theorem Encoding.withoutTables_eq {image : Image} {options : EncodeOptions} {clock : UInt32}
    {a : Assembly} {h : HeadedImage} {q p : Placement} {e : EncodedImage} {size : Nat}
    (enc : Encoding image options clock a h q p e size) :
    withoutTables image options clock = q.output.fill.fixup p.binding := by
  rw [withoutTables, enc.assembled]
  show (a.withHeaders options.target >>= _) = _
  rw [enc.headed]
  show ((place h []).result >>= _) = _
  rw [enc.places.bare]
  show ((place h a.tablesInPlace).result >>= _) = _
  rw [enc.placed]
  rfl

/-- **Every address table in place has the entries of its lookup table**, whatever the order of the
libraries, if the libraries ask for different addresses, the entries of their tables lie apart, and
what is pending in the sections lies apart from the tables.  A zero entry may lie where another table
is; but a table without entries has nothing that keeps it apart, so it may not start inside the
entries of another one.

Each table lies in one section, in memory and in the bytes of the file.  Its slots have their labels,
and its zero entry is zero where no other table is.  All that no table covers is as if there were no
tables; that includes the import directory unless a table lies over it. -/
theorem encodeImage_tablesInPlace {image : Image} {options : EncodeOptions} {clock : UInt32}
    {e : EncodedImage} (he : (encodeImage image options clock).result = .ok e)
    (hlen : e.bytes.length < UInt64.size) {h : HeadedImage} {p : Placement}
    (hplaced : placedImage image options clock = .ok (h, p))
    (himports : image.imports.getD [] ≠ []) {dirs : List ImportDirectory}
    (hdirs : e.image.imports = some dirs)
    (hinside : ∀ s ∈ image.sections, s.content.FieldsInside)
    (hapart : AddressesApart image.encoder.addressType.width dirs)
    (hfields : FieldsApart (e.view image options) h.image.sections
      (tablesInPlace image options clock)) :
    ∃ bare, withoutTables image options clock = .ok bare ∧
      (∀ i, (e.view image options).headersSize ≤ i →
        ApartFromTables (e.view image options) (tablesInPlace image options clock) i 1 →
        e.bytes[i]? = bare.data[i]?) ∧
      ∃ r k size, e.ImportsIn (e.view image options) r k size ∧
        (ApartFromTables (e.view image options) (tablesInPlace image options clock)
            (r.rawAddress + k) size →
          bytesAt e.bytes (r.rawAddress + k) size = bytesAt bare.data (r.rawAddress + k) size) ∧
        ∀ (n : Nat) dir rva, dirs[n]? = some dir → fixedPlace image.sections dir = some rva →
          ∃ i o, e.HasTable (e.view image options) p.binding (tablesInPlace image options clock)
              image.encoder.addressType.width dir rva i o ∧
            (e.view image options).LooksUp ((e.view image options).directoryIn bare.data r k size)
              image.encoder.addressType.width n dir rva o := by
  obtain ⟨a, h', q, p', size, enc⟩ := encodeImage_eq_ok he
  rw [enc.placedImage_eq] at hplaced
  cases hplaced
  rw [enc.tablesInPlace_eq] at hfields ⊢
  obtain ⟨l, hd, himported⟩ := directories_withDirectories enc.assembled
  obtain ⟨sections, dirs', b, tables, hgrow, -, himported, x, hx, hslot, hlabelled⟩ :=
    himported himports
  obtain rfl : dirs' = dirs := by
    rw [enc.finished.image] at hdirs
    exact Option.some.inj (himported.imports.symm.trans (enc.lays.imports.symm.trans hdirs))
  have hforms := enc.forms_tablesInPlace himported
  have hapartFields : ∀ k f, q.output.fields.get? k = some f →
      q.ApartFrom a.tablesInPlace k f.type.width := fun k f hf => by
    refine enc.places.apartFrom_fields (fun i s r hs hr k f hf => ?_) hf
    rw [← enc.apartFromTables_iff hlen]
    have hseen : (e.view image options).sections[i]? = some r.seen := by
      rw [enc.view_sections hlen, List.getElem?_map, hr, Option.map_some]
    exact hfields (s, r.seen) (List.mem_of_getElem? (List.getElem?_zip_eq_some.2 ⟨hs, hseen⟩)) (k, f)
      (OffsetMap.get?_eq_some.1 hf)
  obtain ⟨bare, hbare, hothers⟩ := enc.exists_without hforms hapartFields
  obtain ⟨c, bs, c', -, hencode, -⟩ := himported.encoded
  obtain ⟨r, hlabel, hplaced, hheaders, b', hfix, hbytes⟩ :=
    enc.exists_directoryBytes hlen hinside hd hbare hx hlabelled (tail_encodeImports hencode)
  refine ⟨bare, enc.withoutTables_eq.trans hbare, fun i hi hapart => ?_, r, x.offset, b.virtSize,
    ⟨x.label, (Assembly.start image (options.timestamp.getD clock)).context.start, ?_, hlabel⟩,
    fun hapart => ?_, fun n dir rva hdir hplace => ?_⟩
  · rw [enc.view_headersSize hlen] at hi
    exact hothers i hi ((enc.apartFromTables_iff hlen).1 hapart)
  · rw [enc.finished.image]
    show h.image.directories.lookup _ = _
    rw [enc.lays.directories, ← hslot, ← hlabelled.virtSize_eq]
    exact hd.places x hx
  · refine List.ext_getElem? fun j => ?_
    rw [getElem?_bytesAt, getElem?_bytesAt]
    split
    · next hj =>
      refine hothers _ (by omega) fun t ht o ho => ?_
      have hcases := (enc.apartFromTables_iff hlen).1 hapart t ht o ho
      omega
    · rfl
  · obtain ⟨table, htable, -⟩ := himported.exists_table hdir
    have hfixed := fixedPlace_grows hgrow hplace
    obtain ⟨i, o, ho, hhas⟩ := enc.exists_hasTable hlen himported hapart hapartFields hdir htable
      hfixed
    refine ⟨i, o, hhas, ?_⟩
    rw [FileView.directoryIn, hbytes]
    exact enc.looksUp hlen himported hapart hapartFields hdir htable hfixed ho hplaced hfix

/-- A program with two address tables in its data, which start with the address of a slot.  The zero
entry of the second library lies where the only entry of the first is. -/
def closeTables : Image :=
  { Image.empty with
    sections := [
      { Section.new ".data" (.read ||| .write)
          (placeholder (.label "exit") .u32 .little ++ ofBytes (List.replicate 20 0xaa)) with
        address := some 0x1000 }]
    imports := some [
      { ImportDirectory.new "k.dll" with
        tableAddress := some 0x100c
        imports := [{ Import.byName "exit" with target := some "exit" }] },
      { ImportDirectory.new "u.dll" with
        tableAddress := some 0x1004
        imports := [.byOrdinal 2, .byOrdinal 3] }] }

theorem encodeImage_tablesInPlace_closeTables :
    ∃ e h p, (encodeImage closeTables (.new .exe) 0).result = .ok e ∧
      placedImage closeTables (.new .exe) 0 = .ok (h, p) ∧
      ∃ dirs r k size, e.image.imports = some dirs ∧
        e.ImportsIn (e.view closeTables (.new .exe)) r k size ∧
        ∀ (n : Nat) dir rva, dirs[n]? = some dir → fixedPlace closeTables.sections dir = some rva →
          ∃ i o, e.HasTable (e.view closeTables (.new .exe)) p.binding
              (tablesInPlace closeTables (.new .exe) 0) 4 dir rva i o ∧
            (e.view closeTables (.new .exe)).LooksUp
              ((e.view closeTables (.new .exe)).directoryIn e.bytes r k size) 4 n dir rva o := by
  have hrun : ((encodeOnce closeTables (.new .exe) 0).toOption.any fun e =>
      (placedImage closeTables (.new .exe) 0).toOption.any fun x =>
        e.bytes.length < UInt64.size ∧
        (e.image.imports.any fun dirs => AddressesApart 4 dirs) ∧
        FieldsApart (e.view closeTables (.new .exe)) x.1.image.sections
          (tablesInPlace closeTables (.new .exe) 0) ∧
        (e.image.directory? .importTable).map (·.address) =
          some (.label "idata" - .label "coff_start") ∧
        -- the import directory lies behind the tables
        ∀ t ∈ tablesInPlace closeTables (.new .exe) 0,
          ∀ start ∈ (e.view closeTables (.new .exe)).offset? t.1,
            ∀ y ∈ e.image.sections.zip (e.view closeTables (.new .exe)).sections,
              ∀ l ∈ y.1.content.exports, l.1 = "idata" →
                start + t.2.virtSize ≤ y.2.rawAddress + l.2) = true := by
    decide +kernel
  rw [← encodeImage_eq_encodeOnce, Option.any_eq_true] at hrun
  obtain ⟨e, hsome, hrun⟩ := hrun
  rw [Option.any_eq_true] at hrun
  obtain ⟨⟨h, p⟩, hplaced, hrun⟩ := hrun
  have he := toOption_eq_some.1 hsome
  have hplaced := toOption_eq_some.1 hplaced
  obtain ⟨hlen, himports, hfields, haddress, hbehind⟩ := of_decide_eq_true hrun
  obtain ⟨dirs, hdirs, hapart⟩ := (Option.any_eq_true _ _).1 himports
  have hwritten : ∀ s ∈ closeTables.sections, s.content.FieldsWritten := by decide
  obtain ⟨bare, -, -, r, k, size, hin, hsame, htables⟩ := encodeImage_tablesInPlace he hlen hplaced
    (by decide) hdirs (fun s hs => (hwritten s hs).inside) (of_decide_eq_true hapart) hfields
  refine ⟨e, h, p, he, hplaced, dirs, r, k, size, hdirs, hin, fun n dir rva hdir hplace => ?_⟩
  obtain ⟨i, o, hhas, hlooks⟩ := htables n dir rva hdir hplace
  refine ⟨i, o, hhas, ?_⟩
  rw [FileView.directoryIn, hsame fun t ht start hstart => .inr ?_]
  · exact hlooks
  · obtain ⟨label, first, hdirectory, j, s, hs, hr, hl⟩ := hin
    rw [hdirectory, Option.map_some] at haddress
    cases haddress
    exact hbehind t ht start hstart (s, r)
      (List.mem_of_getElem? (List.getElem?_zip_eq_some.2 ⟨hs, hr⟩)) ("idata", k) hl rfl

end PortableImage
