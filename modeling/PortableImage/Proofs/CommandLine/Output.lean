import PortableImage.Proofs.CommandLine.Description
import PortableImage.Proofs.ExportLookup
import PortableImage.Proofs.HeaderFields

/-!
# The file that the arguments ask for

An export of the command line becomes a label in a section, an export of the image, an entry of a table
in a directory that may be part of that section, and in the end a name that a loader finds in a file.

* `Arguments.At` — the address of a position in a file.
* `Arguments.Links` — the file has what the arguments ask for.
* `plan_links` — every file that the program writes has.
* `exists_findExport_eq_none` — the end of the address space, where exports are lost.
-/

set_option autoImplicit false

namespace PortableImage.CommandLine

open Buffer

/-! ## What the arguments ask for -/

/-- A file of the kind that the arguments ask for. -/
def Arguments.view (a : Arguments) (bytes : List UInt8) : FileView :=
  ⟨bytes, a.order, a.pe64, a.target == .obj⟩

/-- The address of a position: so far behind the section of the name, and at most at the end of what
came from its file. -/
def Arguments.At (a : Arguments) (read : Reader) (v : FileView) (p : Position) (rva : Nat) : Prop :=
  ∃ (i : Nat) (s : SectionValue) (data : List UInt8), a.sections[i]? = some s ∧
    s.name = p.sectionName ∧ read s.file = .ok data ∧ p.offset.toNat ≤ data.length ∧
    rva = (v.row i).rva + p.offset.toNat

/-- The exports can be found by their names: no address is in two sections, and no name has the
character in it that ends a name. -/
structure Arguments.Findable (a : Arguments) (v : FileView) : Prop where
  apart : v.SectionsApart
  names : ∀ x ∈ a.exports, '\x00' ∉ x.name.toList

/-- The file has what the arguments ask for. -/
structure Arguments.Links (a : Arguments) (read : Reader) (v : FileView) : Prop where
  /-- A name stands for one section. -/
  names : (a.sections.map (·.name)).Nodup
  /-- The sections come first, with the bytes of their files in front. -/
  sections : ∀ (i : Nat) s, a.sections[i]? = some s → ∃ data, read s.file = .ok data ∧
    i < v.sectionCount ∧ v.sectionName i = (Text.utf8 s.name ++ List.replicate 8 0).take 8 ∧
    bytesAt v.data (v.row i).rawAddress data.length = data
  entry : ∀ p, a.entry = some p → a.At read v p v.entryPoint
  noEntry : a.entry = none → v.entryPoint = 0
  exports : ∀ x ∈ a.exports, ∃ rva, a.At read v x.position rva ∧
    (a.Findable v → v.findExport (Text.utf8 x.name) = some rva)
  /-- Nothing else is exported. -/
  exportNames : a.Findable v → v.exportNames.Perm (a.exports.map fun x => Text.utf8 x.name)
  /-- Only at the end of the address space are there addresses in two sections. -/
  apart : v.Room → v.SectionsApart

/-! ## From the description to the file -/

/-- What the program writes is the encoding of the image that it builds. -/
theorem plan_eq_write {read : Reader} {clock : UInt32} {a : Arguments} {path : String}
    {bytes : List UInt8} {report : List Event}
    (h : (plan read clock a).result = .ok (.write path bytes report)) :
    ∃ image e, (buildImage read a).result = .ok image ∧
      (encodeImage image a.options clock).result = .ok e ∧ bytes = e.bytes := by
  unfold plan at h
  split at h
  · simp only [Logged.bind_eq_ok, Logged.result_liftM, Logged.result_pure] at h
    obtain ⟨text, -, h⟩ := h
    exact nomatch h
  · split at h
    · exact nomatch h
    · split at h
      · exact nomatch h
      · simp only [Logged.bind_eq_ok] at h
        obtain ⟨image, himage, e, he, h⟩ := h
        cases h
        refine ⟨image, e, himage, ?_, rfl⟩
        rw [Logged.mapError] at he
        cases hresult : (encodeImage image a.options clock).result with
        | error fault =>
          rw [hresult] at he
          exact nomatch he
        | ok e' =>
          rw [hresult] at he
          cases he
          rfl

/-- What is evaluated of the encoding of the image that the program builds holds of the bytes that it
writes. -/
theorem exists_plan_eq_write {read : Reader} {clock : UInt32} {a : Arguments} {path : String}
    {P : List UInt8 → Prop} [DecidablePred P] (hchecksum : a.checksum = none)
    (houtput : a.output = some path) (hsections : a.sections.isEmpty = false)
    (h : ((buildImage read a).result.toOption.any fun image =>
      (encodeOnce image a.options clock).toOption.any fun e => P e.bytes) = true) :
    ∃ bytes report, (plan read clock a).result = .ok (.write path bytes report) ∧ P bytes := by
  obtain ⟨image, himage, h⟩ := (Option.any_eq_true _ _).1 h
  obtain ⟨e, he, hP⟩ := exists_encodeImage h
  refine ⟨e.bytes, writtenEvents path e, ?_, hP⟩
  simp only [plan, hchecksum, houtput, hsections, Bool.false_eq_true, if_false, Logged.bind_eq_ok]
  exact ⟨image, toOption_eq_some.1 himage, e, by rw [Logged.mapError, he]; rfl, rfl⟩

namespace Arguments.Describes

variable {a : Arguments} {read : Reader} {image : Image} (hd : a.Describes read image)

include hd

/-- A section of the image has the bytes of a file, no sizes, and nothing pending. -/
theorem exists_value {i : Nat} {s : Section} (hs : image.sections[i]? = some s) :
    ∃ v data, a.sections[i]? = some v ∧ read v.file = .ok data ∧ s.name = v.name ∧
      s.content.data = data ∧ s.content.virtSize = data.length ∧ s.content.fields = .empty ∧
      s.virtSize = none := by
  obtain ⟨v, hv, data, hread, content, ⟨added, rfl⟩, rfl⟩ := exists_left_of_forall₂ hd.sections hs
  exact ⟨v, data, hv, hread, rfl, rfl, rfl, rfl, rfl⟩

/-- What all sections have. -/
theorem exists_value_of_mem {s : Section} (hs : s ∈ image.sections) :
    s.content.fields = .empty ∧ s.virtSize = none := by
  obtain ⟨i, hi⟩ := List.mem_iff_getElem?.1 hs
  obtain ⟨v, data, -, -, -, -, -, hfields, hsize⟩ := hd.exists_value hi
  exact ⟨hfields, hsize⟩

theorem fieldsWritten : ∀ s ∈ image.sections, s.content.FieldsWritten := fun _ hs =>
  fieldsWritten_of_noFields (hd.exists_value_of_mem hs).1

theorem view_eq (e : EncodedImage) : a.view e.bytes = e.view image a.options := by
  rw [Arguments.view, EncodedImage.view, hd.order, hd.pe64]
  rfl

variable {clock : UInt32} {b : Assembly} {h : HeadedImage} {q p : Placement} {e : EncodedImage}
  {size : Nat} (enc : Encoding image a.options clock b h q p e size)

include enc

theorem length_lt : e.bytes.length < UInt64.size :=
  enc.length_lt fun _ hs => (hd.exists_value_of_mem hs).2

theorem tablesInPlace : b.tablesInPlace = [] :=
  Assembly.tablesInPlace_eq_nil enc.assembled rfl rfl hd.imports

/-- **A label stands for the address of its position.** -/
theorem exists_at {m : String × Position} (hm : m ∈ a.marks) :
    ∃ rva, a.At read (e.view image a.options) m.2 rva ∧ rva < 2 ^ 33 ∧
      p.binding.get? m.1 = some (.ofSize (h.numbers.base + rva)) := by
  obtain ⟨i, s, hs, hname, hle, hmem⟩ := hd.holds m hm
  obtain ⟨v, data, hv, hread, hname', -, hsize, -, -⟩ := hd.exists_value hs
  have hrow : ((e.view image a.options).row i).rva < 256 ^ 4 := FileView.number_lt _ _ _
  have hoffset := m.2.offset.toNat_lt
  exact ⟨_, ⟨i, v, data, hv, hname'.symm.trans hname, hread, hsize ▸ hle, rfl⟩, by omega,
    enc.get?_label (hd.length_lt enc) hs hmem⟩

/-- No two exports have the same name. -/
theorem nodup_names : (a.exports.map (·.name)).Nodup := by
  have hall := hd.labels.nodup_iff.1 enc.nodup_definedLabels_given
  rw [Arguments.marks, List.map_append, List.map_map] at hall
  exact hall.of_append_left

/-- **The entry point is read at its position.** -/
theorem view_entryPoint : (∀ pos, a.entry = some pos →
      a.At read (e.view image a.options) pos (e.view image a.options).entryPoint) ∧
    (a.entry = none → (e.view image a.options).entryPoint = 0) := by
  rw [enc.view_entryPoint, hd.entryPoint]
  refine ⟨fun pos hpos => ?_, fun hnone => by rw [hnone]; rfl⟩
  have hmem : (entryLabel, pos) ∈ a.marks :=
    List.mem_append_right _ (List.mem_map.2 ⟨pos, by rw [hpos]; exact .head _, rfl⟩)
  obtain ⟨rva, hat, hlt, hget⟩ := hd.exists_at enc hmem
  rw [hpos, Option.map_some, entryRva, if_neg (by decide), enc.eval_rva (by omega) hget]
  exact hat

/-- **Every export is found at its position, and nothing else is exported.** -/
theorem view_exports (hfind : a.Findable (e.view image a.options)) :
    (∀ x ∈ a.exports, ∀ rva, rva < 2 ^ 33 →
      p.binding.get? x.name = some (.ofSize (h.numbers.base + rva)) →
      (e.view image a.options).findExport (Text.utf8 x.name) = some rva) ∧
    (e.view image a.options).exportNames.Perm (a.exports.map fun x => Text.utf8 x.name) := by
  have hexports := hd.exports
  have hcount : 16 ≤ image.directoryCount := Nat.le_of_eq hd.directoryCount.symm
  cases hdir : image.exports with
  | none =>
    rw [exported, hdir] at hexports
    have hnil : a.exports = [] := List.map_eq_nil_iff.1 hexports.symm
    rw [hnil, enc.exportNames_of_none hcount hd.directories hdir]
    refine ⟨fun x hx => ?_, .refl _⟩
    cases hx
  | some dir =>
    rw [exported, hdir] at hexports
    change dir.exports = _ at hexports
    have hinside : ∀ s ∈ image.sections, s.content.FieldsInside := fun s hs =>
      (hd.fieldsWritten s hs).inside
    have hnames : ∀ x ∈ dir.exports, ∀ name ∈ x.name, '\x00' ∉ name.toList := by
      rw [hexports, List.forall_mem_map]
      rintro x hx _ ⟨⟩
      exact hfind.names x hx
    have hdefined : ∀ x ∈ dir.exports, ∀ target, x.target = .address target →
        ∀ l ∈ target.labelLeaves, (p.binding.get? l).isSome := by
      rw [hexports, List.forall_mem_map]
      rintro x hx _ ⟨⟩ l hl
      cases List.mem_singleton.1 hl
      obtain ⟨rva, -, -, hget⟩ := hd.exists_at enc
        (List.mem_append_left _ (List.mem_map_of_mem hx) : (x.name, x.position) ∈ a.marks)
      rw [hget]
      rfl
    refine ⟨fun x hx rva hlt hget => ?_, ?_⟩
    · have hunique : dir.exports.countP (·.name == some x.name) = 1 := by
        rw [hexports, List.countP_map]
        have hone := List.count_eq_one_of_mem (hd.nodup_names enc) (List.mem_map_of_mem hx)
        rw [List.count, List.countP_map] at hone
        exact hone
      rw [enc.findExport_eq_some (hd.length_lt enc) (hd.tablesInPlace enc) hcount hinside hfind.apart
        hdir hnames hdefined (hexports ▸ List.mem_map_of_mem hx) rfl rfl hunique]
      exact congrArg some (enc.eval_rva (by omega) hget)
    · have hperm := enc.perm_exportNames (hd.length_lt enc) (hd.tablesInPlace enc) hcount hinside
        hfind.apart hdir hnames hdefined
      rw [hexports, List.filterMap_map] at hperm
      exact (List.filterMap_eq_map ▸ hperm : _)

end Arguments.Describes

/-- **Every file that the program writes has what the arguments ask for.** -/
theorem plan_links {read : Reader} {clock : UInt32} {a : Arguments} {path : String}
    {bytes : List UInt8} {report : List Event}
    (h : (plan read clock a).result = .ok (.write path bytes report)) :
    a.Links read (a.view bytes) := by
  obtain ⟨image, e, himage, he, rfl⟩ := plan_eq_write h
  have hd := describes_buildImage himage
  obtain ⟨b, headed, q, p, size, enc⟩ := encodeImage_eq_ok he
  have hfinish : finish headed p = .ok e := by
    rw [result_encodeImage, enc.placedImage_eq] at he
    exact he
  have hlen := hd.length_lt enc
  rw [hd.view_eq]
  obtain ⟨hentry, hnoEntry⟩ := hd.view_entryPoint enc
  exact {
    names := hd.names
    sections := fun i v hv => by
      obtain ⟨s, hs, -⟩ := exists_right_of_forall₂ hd.sections hv
      obtain ⟨v', data, hv', hread, hname, rfl, -, hfields, -⟩ := hd.exists_value hs
      cases hv.symm.trans hv'
      obtain ⟨s', r, address, hs', -⟩ := enc.exists_placed hs
      refine ⟨_, hread, ?_, ?_, ?_⟩
      · rw [enc.view_sectionCount]
        exact (List.getElem?_eq_some_iff.1 hs').1
      · rw [enc.view_sectionName hfinish hs, hname]
      · exact enc.bytesAt_given hlen (hd.tablesInPlace enc) hd.fieldsWritten hs fun k => by
          rw [hfields]
          rfl
    entry := hentry
    noEntry := hnoEntry
    exports := fun x hx => by
      obtain ⟨rva, hat, hlt, hget⟩ := hd.exists_at enc
        (List.mem_append_left _ (List.mem_map_of_mem hx) : (x.name, x.position) ∈ a.marks)
      exact ⟨rva, hat, fun hfind => (hd.view_exports enc hfind).1 x hx rva hlt hget⟩
    exportNames := fun hfind => (hd.view_exports enc hfind).2
    apart := enc.sectionsApart_of_room hlen }

/-- A program of two sections, of which the second has a fixed address, that offers a place in each. -/
def twoExports : Arguments :=
  { Arguments.default with
    output := some "two.exe"
    sections := [⟨".text", .read ||| .execute, "code", none⟩,
      ⟨".data", .read ||| .write, "data", some 0x10000⟩]
    exports := [⟨"stop", ⟨".text", 2⟩⟩, ⟨"start", ⟨".data", 0⟩⟩]
    entry := some ⟨".text", 1⟩
    timestamp := some 0 }

/-- The files of the sections. -/
def twoFiles : Reader
  | "code" => .ok [0x90, 0xc3]
  | "data" => .ok [1, 2, 3]
  | _ => .error .notFound

theorem plan_links_twoExports : ∃ path bytes report,
    (plan twoFiles 0 twoExports).result = .ok (.write path bytes report) ∧
      twoExports.Links twoFiles (twoExports.view bytes) ∧
      twoExports.Findable (twoExports.view bytes) ∧
      ((twoExports.view bytes).row 0).rva = 0x1000 ∧
      ((twoExports.view bytes).row 1).rva = 0x10000 := by
  obtain ⟨bytes, report, hplan, hapart, hrows⟩ : ∃ bytes report,
      (plan twoFiles 0 twoExports).result = .ok (.write "two.exe" bytes report) ∧
        (twoExports.view bytes).SectionsApart ∧ ((twoExports.view bytes).row 0).rva = 0x1000 ∧
        ((twoExports.view bytes).row 1).rva = 0x10000 :=
    exists_plan_eq_write rfl rfl rfl (by decide +kernel)
  exact ⟨_, bytes, report, hplan, plan_links hplan, ⟨hapart, by decide⟩, hrows⟩

/-! ## Where an export is not found -/

/-- A program at the end of the address space, with a section that nothing is merged into. -/
def exportFromLastPage : Arguments :=
  { Arguments.default with
    output := some "last.exe"
    pe64 := true
    imageBase := some 0xFFFFFFFFFFFFF000
    sections := [⟨".init", .read ||| .discardable, "code", none⟩]
    exports := [⟨"stop", ⟨".init", 2⟩⟩]
    timestamp := some 0 }

/-- **Not every export can be found by its name.**  At the end of the address space, the section of the
exports gets the address of the section in front of it. -/
theorem exists_findExport_eq_none : ∃ path bytes report,
    (plan twoFiles 0 exportFromLastPage).result = .ok (.write path bytes report) ∧
      (exportFromLastPage.view bytes).sections.map (·.rva) = [0, 0] ∧
      (exportFromLastPage.view bytes).findExport (Text.utf8 "stop") = none := by
  obtain ⟨bytes, report, hplan, hrows, hnames⟩ : ∃ bytes report,
      (plan twoFiles 0 exportFromLastPage).result = .ok (.write "last.exe" bytes report) ∧
        (exportFromLastPage.view bytes).sections.map (·.rva) = [0, 0] ∧
        (exportFromLastPage.view bytes).exportDirectory.nameCount = 0 :=
    exists_plan_eq_write rfl rfl rfl (by decide +kernel)
  refine ⟨_, bytes, report, hplan, hrows, ?_⟩
  rw [FileView.findExport, DirectoryView.find, hnames, bisect, if_neg (Nat.lt_irrefl 0)]
  rfl

end PortableImage.CommandLine
