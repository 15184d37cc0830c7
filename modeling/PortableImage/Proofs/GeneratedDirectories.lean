import PortableImage.Proofs.Directory.Exports
import PortableImage.Proofs.Directory.Imports
import PortableImage.Proofs.Directory.Resources
import PortableImage.Proofs.Directory.View
import PortableImage.Proofs.Encode.AddressTables
import PortableImage.Proofs.Encode.OnePass
import PortableImage.Proofs.FileMemory
import PortableImage.Proofs.Header.Directories
import PortableImage.Proofs.Relocation.Blocks
import PortableImage.Proofs.Sorting

/-!
# The generated directories in memory

A generated directory becomes part of a section of the caller, stands behind another one, or gets a
section of its own.  Its data directory was fixed before that, by a label and a size.  A loader that
follows it finds the directory there, and nothing else.

* `FileView.DirectoryIn` — a data directory leads to bytes in one section.
* `FileView.BehindGiven` — none of these bytes are the caller's.
* `EncodedImage.HasDirectories` — all generated directories are where the headers say.
* `encodeImage_hasDirectories` — they are in every file of an image that ends before the end of the
  address space, if the pending fields lie in the sections.
* `encodeImage_not_hasDirectories` — images for which this does not hold.
-/

set_option autoImplicit false

namespace PortableImage

open Buffer

/-! ## Sizes -/

/-- No directory is empty. -/
theorem Image.Encodes.pos {image : Image} {c : Context} {now : UInt32} {b : Buffer}
    {slot : DirectorySlot} (h : image.Encodes c now b slot) : 0 < b.virtSize := by
  cases slot <;> simp only [Encodes] at h
  case exportTable =>
    obtain ⟨dir, c₁, c₂, -, -, hb⟩ := h
    obtain ⟨-, -, -, -, -, -, hsize, -⟩ := exportsAt_encodeExports hb
    omega
  case importTable =>
    obtain ⟨dirs, c₁, tables, c₂, -, -, hb⟩ := h
    obtain ⟨t, hformed, -⟩ := librariesAt_encodeImports hb
    have hstop := hformed.behind
    have hend := hformed.forms.end_le (show "nametable" ∈ t.names from hformed.names ▸ by decide)
    omega
  case resourceTable =>
    obtain ⟨root, c₁, c₂, -, -, hb⟩ := h
    obtain ⟨-, -, -, -, hsize, -⟩ := levelAt_encodeResources hb
    omega
  case baseRelocationTable =>
    obtain ⟨tables, -, hne, hb⟩ := h
    obtain ⟨t, rest, rfl⟩ := List.exists_cons_of_ne_nil hne
    rw [(blocks_encodeRelocations hb).virtSize, List.flatMap_cons, Record.size_append,
      RelocationTable.size_record]
    omega
  case tlsTable =>
    obtain ⟨tls, c₁, callbacks, c₂, -, -, hb⟩ := h
    simp only [encodeTls, bind_eq_ok, pure_eq_ok, Prod.mk.injEq] at hb
    obtain ⟨_, -, _, hrecord, rfl, -, -⟩ := hb
    rw [FieldEncoder.virtSize_record hrecord, Record.size_cons]
    exact Nat.add_pos_left (FieldType.width_pos _) _

/-! ## What a loader finds -/

/-- The data directory lies in the part of the section that is in memory. -/
def FileSection.Contains (r : FileSection) (d : FileDirectory) : Prop :=
  r.rva ≤ d.rva ∧ d.rva + d.size ≤ r.rva + r.virtSize

/-- The data directory lies apart from the addresses. -/
def FileDirectory.ApartFrom (d : FileDirectory) (o len : Nat) : Prop :=
  d.rva + d.size ≤ o ∨ o + len ≤ d.rva

instance (d : FileDirectory) (o len : Nat) : Decidable (d.ApartFrom o len) :=
  inferInstanceAs (Decidable (_ ∨ _))

/-- The data directory leads to the bytes, which are in the memory of one section.  The other sections
lie elsewhere. -/
structure FileView.DirectoryIn (v : FileView) (slot : DirectorySlot) (i : Nat)
    (bytes : List UInt8) : Prop where
  nonempty : 0 < (v.directory slot).size
  length : bytes.length = (v.directory slot).size
  index : i < v.sectionCount
  mapped : (v.row i).Contains (v.directory slot)
  only : ∀ j, j < v.sectionCount → j ≠ i →
    (v.directory slot).ApartFrom (v.row j).rva (v.row j).virtSize
  found : bytesAt (v.memory i) ((v.directory slot).rva - (v.row i).rva) (v.directory slot).size =
    bytes

/-- The data directory, which leads into the section with the index, covers none of the bytes that the
sections were given with: neither in memory nor in the file. -/
structure FileView.BehindGiven (v : FileView) (given : List Section) (slot : DirectorySlot)
    (i : Nat) : Prop where
  memory : ∀ (j : Nat) s, given[j]? = some s → (v.directory slot).ApartFrom (v.row j).rva
    (min s.content.virtSize (v.row j).virtSize)
  file : ∀ (j : Nat) s, given[j]? = some s → ∀ o, (v.directory slot).rva - (v.row i).rva ≤ o →
    o < (v.extent i).2 → (v.row i).rawAddress + o < (v.row j).rawAddress ∨
      (v.row j).rawAddress + s.content.rawSize ≤ (v.row i).rawAddress + o

/-- The directories that the encoding generates are where the headers say.  They are what the
directories of the finished image are encoded to, in some context with the encoder and the start of
the image of `c`, with their fields written. -/
structure EncodedImage.HasDirectories (e : EncodedImage) (image : Image) (options : EncodeOptions)
    (clock : UInt32) (p : Placement) (c : Context) : Prop where
  exports : e.image.exports = image.exports
  resources : e.image.resources = image.resources
  tls : e.image.tls = image.tls
  encoder : c.encoder = image.encoder
  start : p.binding.get? c.start = some (.ofSize (e.view image options).imageBase)
  each : ∀ slot, e.image.Generates slot → ∃ i b b',
    e.image.Encodes c (options.timestamp.getD clock) b slot ∧ b.fixup p.binding = .ok b' ∧
      (e.view image options).DirectoryIn slot i b'.contents ∧
      (e.view image options).BehindGiven image.sections slot i
  apart : ∀ slot slot', e.image.Generates slot → e.image.Generates slot' → slot ≠ slot' →
    ((e.view image options).directory slot).ApartFrom ((e.view image options).directory slot').rva
      ((e.view image options).directory slot').size

/-! ## One directory -/

namespace Encoding

variable {image : Image} {options : EncodeOptions} {clock : UInt32} {a : Assembly}
  {h : HeadedImage} {q p : Placement} {e : EncodedImage} {size : Nat}
  (enc : Encoding image options clock a h q p e size)

include enc

/-- The finished image describes the directories of the assembled one. -/
theorem same_finished (slots : List DirectorySlot) : a.image.SameBut e.image slots := by
  rw [enc.finished.image, enc.lays.image]
  exact ⟨rfl, rfl, rfl, fun _ => rfl, fun _ => rfl⟩

theorem row_placed (hlen : e.bytes.length < UInt64.size) {i : Nat} {r : PlacedSection}
    (hr : q.placed[i]? = some r) : (e.view image options).row i = r.seen := by
  obtain ⟨s, hs, -, address, hat⟩ := exists_left_of_forall₂ enc.places.sections hr
  exact (enc.view_row hs hat hlen).1

theorem exists_placed_of_lt {i : Nat} (hi : i < (e.view image options).sectionCount) :
    ∃ r, q.placed[i]? = some r := by
  rw [enc.view_sectionCount, ← enc.length_placed] at hi
  exact ⟨_, List.getElem?_eq_getElem hi⟩

variable (hlen : e.bytes.length < UInt64.size) (htables : a.tablesInPlace = [])
  (hcount : 16 ≤ image.directoryCount)
  (hinside : ∀ s ∈ image.sections, s.content.FieldsInside)
  {slots : List DirectorySlot} {l : List GeneratedDirectory}
  (hd : (Assembly.start image (options.timestamp.getD clock)).Directories a slots l)

include hlen htables hcount hinside hd

/-- **A generated directory is in the memory of its section**, and its data directory leads there. -/
theorem exists_generated {x : GeneratedDirectory} (hx : x ∈ l) :
    ∃ r b b', q.placed[x.index]? = some r ∧
      (e.view image options).row x.index = r.seen ∧
      (e.view image options).extent x.index = r.extent ∧
      (e.view image options).directory x.slot = ⟨r.rva + x.offset, b'.contents.length⟩ ∧
      x.content.virtSize = b'.contents.length ∧ x.offset + b'.contents.length ≤ r.virtSize ∧
      b.Labelled x.content ∧
        a.image.Encodes (Assembly.start image (options.timestamp.getD clock)).context
        (options.timestamp.getD clock) b x.slot ∧ b.fixup p.binding = .ok b' ∧
      0 < b'.contents.length ∧
      bytesAt ((e.view image options).memory x.index) x.offset b'.contents.length = b'.contents := by
  obtain ⟨b, hencodes, hlabelledContent⟩ := hd.encoded x hx
  obtain ⟨s, -, hs, -⟩ := hd.stands x hx
  have hhost := hd.hosts hinside x hx s hs
  obtain ⟨s', r, address, content, hs', hlabelled, hfix, hr, hat, haddress, hvirtSize, hrow,
    hextent, hmemory⟩ := enc.exists_memory hlen htables hs hhost.virtSize hhost.rawSize hhost.written
  have hshows : s'.content.Shows x.offset b :=
    (hhost.shows.of_grows hlabelledContent.grows).grows hlabelled.grows
  have hsize := hlabelledContent.virtSize_eq
  have hin : b.FieldsInside := hlabelledContent.inside_iff.1 (hd.inside x hx)
  obtain ⟨b', hfix', hfixed, hbytes⟩ := hshows.fixup hin hfix
  have hlength : b'.contents.length = b.virtSize := by rw [length_contents, hfixed]
  have hfits := (hd.stands x hx).le hs
  have hpos := hencodes.pos
  refine ⟨r, b, b', hr, hrow, hextent, ?_, by omega, by omega, hlabelledContent, hencodes, hfix',
    by omega, ?_⟩
  · have hslot : x.slot.index < image.directoryCount :=
      Nat.lt_of_lt_of_le (List.getElem?_eq_some_iff.1 x.slot.getElem?_all).1 hcount
    obtain ⟨hview, -⟩ := enc.view_directory hslot (hd.places x hx)
    have hrva : r.rva < 256 ^ 4 := by
      rw [show r.rva = r.seen.rva from rfl, ← hrow]
      exact (e.view image options).number_lt 4 _
    have hvirt : r.virtSize < UInt32.size := by
      rw [hat.virtSize]
      exact UInt32.toNat_lt _
    rw [UInt32.size] at hvirt
    obtain ⟨t, ht, hlabel⟩ := (hd.stands x hx).exports (hd.labels x hx)
    rw [hs, Option.some.injEq] at ht
    subst ht
    have hbound := enc.places.tables.binding _ _
      (hat.exports x.label (x.offset + 0) (hlabelled.grows.exports.subset hlabel))
    rw [haddress, Nat.add_zero, Nat.add_assoc] at hbound
    have hplace := enc.eval_rva (by omega) hbound
    rw [Context.rva, hd.continues.context.2, ← Context.rva] at hplace
    rw [hview, hplace, hlength, ← hsize]
    exact congrArg _ (LinkValue.toNat_ofSize (by omega))
  · rw [hmemory, hlength]
    refine List.ext_getElem? fun j => ?_
    rw [getElem?_bytesAt]
    split
    · next hj => exact hbytes j hj
    · rw [List.getElem?_eq_none (by omega)]

/-- None of the bytes of a generated directory were given. -/
theorem behindGiven (hroom : (e.view image options).Room) {x : GeneratedDirectory} (hx : x ∈ l) :
    (e.view image options).BehindGiven image.sections x.slot x.index := by
  obtain ⟨r, b, b', hr, hrow, hextent, hdirectory, -, hfits, -⟩ :=
    enc.exists_generated hlen htables hcount hinside hd hx
  -- what was given stands in front of what was generated, or is in another section
  have hgiven : ∀ (j : Nat) s, image.sections[j]? = some s → ∃ r',
      (e.view image options).row j = r'.seen ∧ s.content.rawSize ≤ r'.rawSize ∧
      (j = x.index ∧ r' = r ∧ s.content.virtSize ≤ x.offset ∨
        (r.rva + r.virtSize ≤ r'.rva ∨ r'.rva + r'.virtSize ≤ r.rva) ∧
        (r.rawAddress + r.rawSize ≤ r'.rawAddress ∨ r'.rawAddress + r'.rawSize ≤ r.rawAddress)) := by
    intro j s hs
    obtain ⟨s', r', address, -, hr', -, hat, hgrows⟩ := enc.exists_placed hs
    refine ⟨r', enc.row_placed hlen hr', Nat.le_trans hgrows.rawSize_le hat.rawSize, ?_⟩
    by_cases hj : j = x.index
    · subst hj
      rw [hr, Option.some.injEq] at hr'
      exact .inl ⟨rfl, hr'.symm, hd.behind x hx s hs⟩
    · exact .inr ⟨rel_or_rel_of_getElem? (enc.ascending hlen hroom) hr hr' (Ne.symm hj),
        rel_or_rel_of_getElem? enc.places.ordered hr hr' (Ne.symm hj)⟩
  constructor
  · intro j s hs
    obtain ⟨r', hrow', -, hcases⟩ := hgiven j s hs
    rw [hdirectory, hrow', FileDirectory.ApartFrom]
    rcases hcases with ⟨-, rfl, hle⟩ | ⟨hmemory, -⟩ <;> dsimp only [PlacedSection.seen] <;> omega
  · intro j s hs o ho hlt
    obtain ⟨r', hrow', hraw, hcases⟩ := hgiven j s hs
    have hsize := s.content.rawSize_le_virtSize
    rw [hdirectory, hrow] at ho
    rw [hextent] at hlt
    rw [hrow, hrow']
    dsimp only [PlacedSection.seen, PlacedSection.extent] at ho hlt ⊢
    rcases hcases with ⟨-, rfl, hle⟩ | ⟨-, hfile⟩ <;> omega

/-- A generated directory is in one section. -/
theorem exists_directoryIn (hroom : (e.view image options).Room) {x : GeneratedDirectory}
    (hx : x ∈ l) : ∃ b b', a.image.Encodes
        (Assembly.start image (options.timestamp.getD clock)).context
        (options.timestamp.getD clock) b x.slot ∧ b.fixup p.binding = .ok b' ∧
      (e.view image options).DirectoryIn x.slot x.index b'.contents := by
  obtain ⟨r, b, b', hr, hrow, -, hdirectory, -, hfits, -, hencodes, hfix, hpos, hbytes⟩ :=
    enc.exists_generated hlen htables hcount hinside hd hx
  refine ⟨b, b', hencodes, hfix, ?_, ?_, ?_, ?_, fun j hj hne => ?_, ?_⟩
  · rw [hdirectory]
    exact hpos
  · rw [hdirectory]
  · rw [enc.view_sectionCount, ← enc.length_placed]
    exact (List.getElem?_eq_some_iff.1 hr).1
  · rw [hdirectory, hrow]
    constructor <;> dsimp only [PlacedSection.seen] <;> omega
  · obtain ⟨r', hr'⟩ := enc.exists_placed_of_lt hj
    have hapart := rel_or_rel_of_getElem? (enc.ascending hlen hroom) hr hr' (Ne.symm hne)
    rw [hdirectory, enc.row_placed hlen hr', FileDirectory.ApartFrom]
    dsimp only [PlacedSection.seen]
    omega
  · rw [hdirectory, hrow, show r.rva + x.offset - r.seen.rva = x.offset from
      Nat.add_sub_cancel_left _ _]
    exact hbytes

/-- Two generated directories lie apart. -/
theorem apart_generated (hroom : (e.view image options).Room) {x y : GeneratedDirectory}
    (hx : x ∈ l) (hy : y ∈ l) (hne : x ≠ y) :
    ((e.view image options).directory x.slot).ApartFrom
      ((e.view image options).directory y.slot).rva
      ((e.view image options).directory y.slot).size := by
  obtain ⟨r, b, b', hr, -, -, hdirectory, hsize, hfits, -⟩ :=
    enc.exists_generated hlen htables hcount hinside hd hx
  obtain ⟨r', c, c', hr', -, -, hdirectory', hsize', hfits', -⟩ :=
    enc.exists_generated hlen htables hcount hinside hd hy
  rw [hdirectory, hdirectory', FileDirectory.ApartFrom]
  dsimp only
  by_cases hindex : x.index = y.index
  · rw [hindex, hr', Option.some.injEq] at hr
    subst hr
    obtain ⟨i, hi⟩ := List.mem_iff_getElem?.1 hx
    obtain ⟨j, hj⟩ := List.mem_iff_getElem?.1 hy
    have hij : i ≠ j := fun heq => hne (Option.some.inj (hi.symm.trans (heq ▸ hj)))
    rcases rel_or_rel_of_getElem? hd.apart hi hj hij with hle | hle
    · have hapart := hle hindex
      omega
    · have hapart := hle hindex.symm
      omega
  · have hapart := rel_or_rel_of_getElem? (enc.ascending hlen hroom) hr hr' hindex
    omega

end Encoding

/-! ## All directories -/

/-- **Every generated directory is where the headers say.**  No address table is written in place, the
pending fields of the sections lie in these, and the image ends before the end of the address space.
Then each data directory leads to the bytes of its directory, in one section; these are none of the
caller's, and no byte belongs to two directories. -/
theorem encodeImage_hasDirectories {image : Image} {options : EncodeOptions} {clock : UInt32}
    {e : EncodedImage} (he : (encodeImage image options clock).result = .ok e)
    (hlen : e.bytes.length < UInt64.size) (htables : tablesInPlace image options clock = [])
    (hcount : 16 ≤ image.directoryCount)
    (hinside : ∀ s ∈ image.sections, s.content.FieldsInside)
    (hroom : (e.view image options).Room) :
    ∃ h p c, placedImage image options clock = .ok (h, p) ∧
      e.HasDirectories image options clock p c := by
  obtain ⟨a, h, q, p, size, enc⟩ := encodeImage_eq_ok he
  obtain ⟨l, hd, -⟩ := Assembly.directories_withDirectories enc.assembled
  rw [enc.tablesInPlace_eq] at htables
  have hsame := enc.same_finished []
  have hgenerated : ∀ slot, e.image.Generates slot → ∃ x ∈ l, x.slot = slot := by
    intro slot hslot
    refine hd.complete slot ?_ ((hsame.generates List.not_mem_nil).1 hslot)
    cases slot <;> first | exact hslot.elim | decide
  refine ⟨h, p, (Assembly.start image (options.timestamp.getD clock)).context,
    enc.placedImage_eq, hsame.exports.trans hd.same.exports,
    hsame.resources.trans hd.same.resources, hsame.tls.trans hd.same.tls, rfl, ?_,
    fun slot hslot => ?_, fun slot slot' hslot hslot' hne => ?_⟩
  · rw [← hd.continues.context.2, enc.view_imageBase]
    exact enc.places.tables.binding _ _ (enc.places.start a.context.start enc.lays.exports)
  · obtain ⟨x, hx, rfl⟩ := hgenerated slot hslot
    obtain ⟨b, b', hencodes, hfix, hin⟩ :=
      enc.exists_directoryIn hlen htables hcount hinside hd hroom hx
    exact ⟨x.index, b, b', (hsame.encodes List.not_mem_nil).2 hencodes, hfix, hin,
      enc.behindGiven hlen htables hcount hinside hd hroom hx⟩
  · obtain ⟨x, hx, rfl⟩ := hgenerated slot hslot
    obtain ⟨y, hy, rfl⟩ := hgenerated slot' hslot'
    exact enc.apart_generated hlen htables hcount hinside hd hroom hx hy fun heq =>
      hne (congrArg GeneratedDirectory.slot heq)

/-- A library with all directories, of which some become part of its data. -/
def allDirectories : Image :=
  { Image.empty with
    sections := [
      .new ".text" (.read ||| .execute) ((ofBytes [0x90, 0xc3]).addExport "entry" 1),
      .new ".data" (.read ||| .write) (placeholder (.label "entry") .u32 .little)]
    exports := some { ExportDirectory.empty with
      exports := [⟨some "run", .address (.label "entry"), none⟩] }
    imports := some [{ ImportDirectory.new "k.dll" with imports := [.byOrdinal 1, .byName "open"] }]
    resources := some ⟨⟨0, 0, 0, 0⟩, [(.number 5, .data [1, 2, 3] 0 0)]⟩
    tls := some ⟨none, none, none, [.label "entry"], 0, 0⟩ }

theorem encodeImage_hasDirectories_allDirectories :
    ∃ e h p c, (encodeImage allDirectories (.new .dll) 0).result = .ok e ∧
      placedImage allDirectories (.new .dll) 0 = .ok (h, p) ∧
      e.HasDirectories allDirectories (.new .dll) 0 p c ∧ e.image.relocations.isSome := by
  obtain ⟨e, he, hlen, hbase, hrelocations⟩ :
      ∃ e, (encodeImage allDirectories (.new .dll) 0).result = .ok e ∧
        e.bytes.length < UInt64.size ∧ (e.view allDirectories (.new .dll)).imageBase = 0x400000 ∧
        e.image.relocations.isSome := exists_encodeImage (by decide +kernel)
  have hwritten : ∀ s ∈ allDirectories.sections, s.content.FieldsWritten := by decide
  obtain ⟨h, p, c, hplaced, hhas⟩ := encodeImage_hasDirectories he hlen (by decide +kernel)
    (by decide) (fun s hs => (hwritten s hs).inside)
    (FileView.room_of_imageBase_le (by rw [hbase]; decide))
  exact ⟨e, h, p, c, he, hplaced, hhas, hrelocations⟩

/-! ## Where directories are lost -/

/-- A program with a pending field behind the four bytes of its section, where the block of base
relocations goes. -/
def fieldOverBlock : Image :=
  { Image.empty with
    sections := [.new ".keep" (.read ||| .discardable)
      ((ofBytes [1, 2, 3, 4]).addField 8 ⟨.const 7, .u32, .little⟩)]
    relocations := some [⟨.const 0x1000, []⟩]
    optionalHeader := { OptionalHeader.empty with fileAlignment := some 16 } }

/-- A program at the end of the address space. -/
def lastPage : Image :=
  { Image.empty with
    pe64 := true
    sections := [.new ".text" (.read ||| .execute) (ofBytes (List.replicate 16 0x90))]
    relocations := some [⟨.const 0x1000, []⟩]
    optionalHeader :=
      { OptionalHeader.empty with
        imageBase := some 0xFFFFFFFFFFFFF000
        fileAlignment := some 16 } }

/-- **Not every image has its directories where the headers say.**  A pending field that lies behind
its section may be written over a directory.  Where the address space ends too soon, sections lie at
the same address, and a directory is in two of them. -/
theorem encodeImage_not_hasDirectories :
    (∃ e, (encodeImage fieldOverBlock (.new .exe) 0).result = .ok e ∧
      tablesInPlace fieldOverBlock (.new .exe) 0 = [] ∧ fieldOverBlock.directoryCount = 16 ∧
      (e.view fieldOverBlock (.new .exe)).Room ∧
      ¬ ∃ h p c, placedImage fieldOverBlock (.new .exe) 0 = .ok (h, p) ∧
        e.HasDirectories fieldOverBlock (.new .exe) 0 p c) ∧
    ∃ e, (encodeImage lastPage (.new .exe) 0).result = .ok e ∧
      tablesInPlace lastPage (.new .exe) 0 = [] ∧ lastPage.directoryCount = 16 ∧
      (∀ s ∈ lastPage.sections, s.content.FieldsInside) ∧
      ¬ ∃ h p c, placedImage lastPage (.new .exe) 0 = .ok (h, p) ∧
        e.HasDirectories lastPage (.new .exe) 0 p c := by
  constructor
  · obtain ⟨e, he, hbase, hrelocations, hcount, hfound⟩ :
        ∃ e, (encodeImage fieldOverBlock (.new .exe) 0).result = .ok e ∧
          (e.view fieldOverBlock (.new .exe)).imageBase = 0x400000 ∧
          e.image.relocations = some [⟨.const 0x1000, []⟩] ∧
          (e.view fieldOverBlock (.new .exe)).sectionCount = 1 ∧
          bytesAt ((e.view fieldOverBlock (.new .exe)).memory 0)
            (((e.view fieldOverBlock (.new .exe)).directory .baseRelocationTable).rva -
              ((e.view fieldOverBlock (.new .exe)).row 0).rva)
            ((e.view fieldOverBlock (.new .exe)).directory .baseRelocationTable).size =
              [7, 0, 0, 0, 8, 0, 0, 0] := exists_encodeImage (by decide +kernel)
    refine ⟨e, he, by decide +kernel, by decide,
      FileView.room_of_imageBase_le (by rw [hbase]; decide), ?_⟩
    rintro ⟨h, p, c, -, hhas⟩
    obtain ⟨i, b, b', ⟨tables, htables, -, hb⟩, hfix, hin, -⟩ :=
      hhas.each .baseRelocationTable (by rw [Image.Generates, hrelocations]; rfl)
    rw [hrelocations, Option.some.injEq] at htables
    subst htables
    rw [hhas.encoder] at hb
    have hi := hin.index
    rw [hcount, Nat.lt_one_iff] at hi
    subst hi
    cases hb
    cases hfix
    exact absurd (hfound.symm.trans hin.found) (by decide)
  · obtain ⟨e, he, hrelocations, hcount, hmeets⟩ :
        ∃ e, (encodeImage lastPage (.new .exe) 0).result = .ok e ∧
          e.image.relocations.isSome ∧ (e.view lastPage (.new .exe)).sectionCount = 2 ∧
          ∀ j : Nat, j < 2 →
            ¬ ((e.view lastPage (.new .exe)).directory .baseRelocationTable).ApartFrom
              ((e.view lastPage (.new .exe)).row j).rva
              ((e.view lastPage (.new .exe)).row j).virtSize :=
      exists_encodeImage (by decide +kernel)
    refine ⟨e, he, by decide +kernel, by decide,
      List.forall_mem_singleton.2 (fieldsInside_of_noFields rfl), ?_⟩
    rintro ⟨h, p, c, -, hhas⟩
    obtain ⟨i, b, b', -, -, hin, -⟩ := hhas.each .baseRelocationTable hrelocations
    have hi := hin.index
    have honly := hin.only
    rw [hcount] at hi honly
    exact hmeets (1 - i) (by omega) (honly (1 - i) (by omega) (by omega))

end PortableImage
