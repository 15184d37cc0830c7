import PortableImage.Proofs.Directory.ExportView
import PortableImage.Proofs.Encode.LabelPlaces
import PortableImage.Proofs.GeneratedDirectories

/-!
# Looking up exports in a file

The export directory of a file may be a section of its own or stand behind other content.  A loader
takes its address from the headers, finds the section that is mapped there, and looks a name up in the
tables of the directory.

* `FileView.memoryAt` — what is in memory from an address on.
* `FileView.SectionsApart` — no address is in two sections; `Encoding.sectionsApart_of_room` says when.
* `FileView.exportDirectory`, `FileView.exportNames`, `FileView.findExport` — the reader.
* `Encoding.perm_exportNames`, `Encoding.findExport_eq_some` — it finds the exports of the image, and no
  others.
-/

set_option autoImplicit false

namespace PortableImage

open Buffer

/-! ## The reader -/

namespace FileView

/-- What is in memory from an address on: `len` bytes of the first section that the address is in. -/
def memoryAt (v : FileView) (rva len : Nat) : List UInt8 :=
  let covers i := (v.row i).rva ≤ rva && rva < (v.row i).rva + (v.row i).virtSize
  match (List.range v.sectionCount).find? covers with
  | some i => bytesAt (v.memory i) (rva - (v.row i).rva) len
  | none => []

/-- No address is in two sections. -/
def SectionsApart (v : FileView) : Prop :=
  v.sections.Pairwise fun r s => r.rva + r.virtSize ≤ s.rva ∨ s.rva + s.virtSize ≤ r.rva

instance (v : FileView) : Decidable v.SectionsApart :=
  inferInstanceAs (Decidable (List.Pairwise _ _))

/-- The export directory in memory. -/
def exportDirectory (v : FileView) : DirectoryView :=
  let place := v.directory .exportTable
  ⟨v.memoryAt place.rva place.size, v.order, place.rva⟩

/-- The names that are exported. -/
def exportNames (v : FileView) : List (List UInt8) := v.exportDirectory.nameTable.map (·.1)

/-- The address of an export, relative to the start of the image. -/
def findExport (v : FileView) (name : List UInt8) : Option Nat :=
  (v.exportDirectory.find name).map v.exportDirectory.slot

/-- Where the sections lie apart, an address is found in the section that it is in. -/
theorem memoryAt_eq {v : FileView} (hapart : v.SectionsApart) {i rva : Nat}
    (hi : i < v.sectionCount) (hle : (v.row i).rva ≤ rva)
    (hlt : rva < (v.row i).rva + (v.row i).virtSize) (len : Nat) :
    v.memoryAt rva len = bytesAt (v.memory i) (rva - (v.row i).rva) len := by
  rw [memoryAt]
  cases hfind : (List.range v.sectionCount).find? fun i =>
      (v.row i).rva ≤ rva && rva < (v.row i).rva + (v.row i).virtSize with
  | none =>
    have hnot := List.find?_eq_none.1 hfind i (List.mem_range.2 hi)
    simp [hle, hlt] at hnot
  | some j =>
    have hcovers := List.find?_some hfind
    have hj := List.mem_range.1 (List.mem_of_find?_eq_some hfind)
    rw [Bool.and_eq_true, decide_eq_true_eq, decide_eq_true_eq] at hcovers
    -- another section would share the address
    have hij : j = i := by
      by_contra hne
      have hrow : ∀ {k}, k < v.sectionCount → v.sections[k]? = some (v.row k) := fun hk => by
        show ((List.range v.sectionCount).map v.row)[_]? = _
        rw [List.getElem?_map, List.getElem?_range hk]
        rfl
      have hrel := rel_or_rel_of_getElem? hapart (hrow hj) (hrow hi) hne
      omega
    rw [hij]

/-- A directory without size has no names. -/
theorem exportNames_eq_nil {v : FileView} (h : (v.directory .exportTable).size = 0) :
    v.exportNames = [] := by
  have hdata : v.exportDirectory.data = [] := by
    show v.memoryAt _ _ = []
    rw [h, memoryAt]
    split
    · exact List.take_zero
    · rfl
  have hcount : v.exportDirectory.nameCount = 0 := by
    rw [DirectoryView.nameCount, DirectoryView.number, hdata]
    cases v.exportDirectory.order <;> rfl
  rw [exportNames, DirectoryView.nameTable, hcount]
  rfl

end FileView

/-! ## What is found -/

namespace Encoding

variable {image : Image} {options : EncodeOptions} {clock : UInt32} {a : Assembly}
  {h : HeadedImage} {q p : Placement} {e : EncodedImage} {size : Nat}
  (enc : Encoding image options clock a h q p e size)

include enc

/-- Where there is room for the image, no address is in two sections. -/
theorem sectionsApart_of_room (hlen : e.bytes.length < UInt64.size)
    (hroom : (e.view image options).Room) : (e.view image options).SectionsApart := by
  rw [FileView.SectionsApart, enc.view_sections hlen, List.pairwise_map]
  exact (enc.ascending hlen hroom).imp fun hle => .inl hle

/-- An image without exports has no names. -/
theorem exportNames_of_none (hcount : 16 ≤ image.directoryCount)
    (hdirectories : image.directories = []) (hnone : image.exports = none) :
    (e.view image options).exportNames = [] := by
  have hplace : a.image.directory? .exportTable = none := by
    rw [Assembly.directory?_of_exports_none enc.assembled hnone]
    show List.lookup _ image.directories = none
    rw [hdirectories]
    rfl
  refine FileView.exportNames_eq_nil ?_
  rw [enc.view_directory_none (Nat.lt_of_lt_of_le (by decide) hcount) hplace]

variable (hlen : e.bytes.length < UInt64.size) (htables : a.tablesInPlace = [])
  (hcount : 16 ≤ image.directoryCount)
  (hinside : ∀ s ∈ image.sections, s.content.FieldsInside)
  (hapart : (e.view image options).SectionsApart) {dir : ExportDirectory}
  (hdir : image.exports = some dir)

include hlen htables hcount hinside hapart hdir

/-- **The export directory of the image is in memory where the headers say.** -/
theorem exists_exportDirectory : ∃ c c' b b' rva,
    encodeExports c dir (options.timestamp.getD clock) = .ok (b, c') ∧
      c.encoder = image.encoder ∧ c.start = a.context.start ∧
      b.PlacedAt p.binding a.context.start rva ∧ b.fixup p.binding = .ok b' ∧
      (e.view image options).exportDirectory = ⟨b'.contents, image.order, rva⟩ := by
  obtain ⟨l, hd, -⟩ := Assembly.directories_withDirectories enc.assembled
  have hexports : a.image.exports = some dir := hd.same.exports.trans hdir
  obtain ⟨x, hx, hslot⟩ := hd.complete .exportTable (by decide)
    (by rw [Image.Generates, hexports]; rfl)
  obtain ⟨r, b, b', hr, hrow, -, hdirectory, -, hfits, hlabelled, hencodes, hfix, hpos, hbytes⟩ :=
    enc.exists_generated hlen htables hcount hinside hd hx
  rw [hslot] at hencodes hdirectory
  obtain ⟨dir', c, c', hdir', hkeeps, hencode⟩ := hencodes
  cases hexports.symm.trans hdir'
  have hplaced := enc.placedAt_generated hlen hinside hd hx hlabelled hr
  refine ⟨c, c', b, b', r.rva + x.offset, hencode, hkeeps.1, ?_, hplaced, hfix, ?_⟩
  · rw [hkeeps.2, hd.continues.context.2]
  · have hindex : x.index < (e.view image options).sectionCount := by
      rw [enc.view_sectionCount, ← enc.length_placed]
      exact (List.getElem?_eq_some_iff.1 hr).1
    have hle : ((e.view image options).row x.index).rva ≤ r.rva + x.offset := by
      rw [hrow]
      exact Nat.le_add_right _ _
    have hlt : r.rva + x.offset < ((e.view image options).row x.index).rva +
        ((e.view image options).row x.index).virtSize := by
      rw [hrow, PlacedSection.seen]
      dsimp only
      omega
    have hmemory := FileView.memoryAt_eq hapart hindex hle hlt b'.contents.length
    rw [hrow, show r.rva + x.offset - r.seen.rva = x.offset from Nat.add_sub_cancel_left _ _,
      hbytes] at hmemory
    rw [FileView.exportDirectory, hdirectory]
    exact congrArg (DirectoryView.mk · _ _) hmemory

variable (hnames : ∀ x ∈ dir.exports, ∀ name ∈ x.name, '\x00' ∉ name.toList)
  (hdefined : ∀ x ∈ dir.exports, ∀ target, x.target = .address target →
    ∀ l ∈ target.labelLeaves, (p.binding.get? l).isSome)

include hnames hdefined

/-- The names stand in order, each with the place of an export, and the entry of a place is the address
of its export. -/
theorem exists_slots : ∃ slots : Slots, slots.placed.Perm dir.exports ∧
    (e.view image options).exportNames.Pairwise (· ≤ ·) ∧
    (e.view image options).exportDirectory.nameTable.Perm slots.names ∧
    ∀ i x target, slots[i]? = some (some x) → x.target = .address target →
      (e.view image options).exportDirectory.slot i =
        (target.eval p.binding.env - p.binding.env a.context.start).toNat := by
  obtain ⟨c, c', b, b', rva, hencode, hencoder, hstart, hplaced, hfix, hview⟩ :=
    enc.exists_exportDirectory hlen htables hcount hinside hapart hdir
  obtain ⟨slots, t, hslots, hforms, htableNames, hkeeps, -, hexports⟩ :=
    exportsAt_encodeExports hencode
  have hperm := perm_assignSlots hslots
  have horder : t.context.encoder.order = image.order := by
    rw [hkeeps.1, hencoder]
    rfl
  rw [← hstart, ← hkeeps.2] at hplaced ⊢
  rw [← horder] at hview
  rw [FileView.exportNames, hview]
  have hat := hexports p.binding _ _ ⟨hplaced.constant, hplaced.get?_start, hforms.located hplaced⟩
    fun x hx target htarget =>
      hdefined x (hperm.subset (List.mem_filterMap.2 ⟨some x, hx, rfl⟩)) target htarget
  obtain ⟨hsorted, hnameTable⟩ := hat.ordered hforms htableNames hplaced hfix hnames hperm
  refine ⟨slots, hperm, hsorted, hnameTable, fun i x target hi htarget => ?_⟩
  obtain ⟨v, hv, hentry⟩ := hat.slotValue hforms htableNames hplaced hfix hi
  rw [SlotValue, Option.map_some, htarget] at hv
  rw [hentry, hv]

/-- **A file exports the names of the image, and no others.** -/
theorem perm_exportNames : (e.view image options).exportNames.Perm
    (dir.exports.filterMap fun x => x.name.map Text.utf8) := by
  obtain ⟨slots, hperm, -, htable, -⟩ :=
    enc.exists_slots hlen htables hcount hinside hapart hdir hnames hdefined
  rw [FileView.exportNames]
  refine (htable.map _).trans ?_
  rw [Slots.map_names]
  exact hperm.filterMap _

/-- **An address that one export has by its name is found by the name.** -/
theorem findExport_eq_some {x : Export} {name : String} {target : Expr} (hx : x ∈ dir.exports)
    (hname : x.name = some name) (htarget : x.target = .address target)
    (hunique : dir.exports.countP (·.name == some name) = 1) :
    (e.view image options).findExport (Text.utf8 name) =
      some (target.eval p.binding.env - p.binding.env a.context.start).toNat := by
  obtain ⟨slots, hperm, hsorted, htable, hentries⟩ :=
    enc.exists_slots hlen htables hcount hinside hapart hdir hnames hdefined
  obtain ⟨slot, hslot, rfl⟩ := List.mem_filterMap.1 (hperm.symm.subset hx)
  obtain ⟨i, hi⟩ := List.mem_iff_getElem?.1 hslot
  rw [FileView.findExport,
    DirectoryView.find_eq_some hsorted htable hperm hi hname hunique, Option.map_some,
    hentries i x target hi htarget]

end Encoding

end PortableImage
