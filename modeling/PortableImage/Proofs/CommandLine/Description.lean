import PortableImage.CommandLine.Link
import PortableImage.Proofs.Encode.AddressTables
import PortableImage.Proofs.Header.Layout
import PortableImage.Proofs.Labels.Assembly

/-!
# The image that the arguments describe

The program adds the sections first, then the exports and the entry point; each of these labels a place
in a section by name.  A label may be used again, and is then there twice.

* `Holds` — a label is at a position.
* `Marked` — a list of sections gets a label at a position.
* `Arguments.Describes` — what an image has that the arguments describe; `Describes.addSection`,
  `addExport`, `addImport`, `enter` say that this stays so with one argument more.
* `describes_buildImage` — the image that the program builds is such an image.
-/

set_option autoImplicit false

namespace PortableImage.CommandLine

open Buffer

/-! ## Labels at positions -/

/-- The label is at the position: in the section of the name, at most at its end. -/
def Holds (sections : List Section) (label : String) (p : Position) : Prop :=
  ∃ (i : Nat) (s : Section), sections[i]? = some s ∧ s.name = p.sectionName ∧
    p.offset.toNat ≤ s.content.virtSize ∧ (label, p.offset.toNat) ∈ s.content.exports

/-- A label stays where it is when others are added. -/
theorem Holds.labelled {sections sections' : List Section} {label : String} {p : Position}
    (h : Holds sections label p) (hl : List.Forall₂ Section.Labelled sections sections') :
    Holds sections' label p := by
  obtain ⟨i, s, hs, hname, hle, hmem⟩ := h
  obtain ⟨s', hs', content, ⟨added, rfl⟩, rfl⟩ := exists_right_of_forall₂ hl hs
  exact ⟨i, _, hs', hname, hle, List.mem_append_left _ hmem⟩

/-- The second list has the sections of the first, with one label more, at its position. -/
structure Marked (sections sections' : List Section) (label : String) (p : Position) : Prop where
  labelled : List.Forall₂ Section.Labelled sections sections'
  labels : (definedLabels sections').Perm (definedLabels sections ++ [label])
  holds : Holds sections' label p

/-- A section with one label more brings this label. -/
theorem perm_definedLabels_modify {sections : List Section} {i : Nat} {s : Section}
    {change : Section → Section} {label : String} (hs : sections[i]? = some s)
    (hchange : (change s).content.labels = s.content.labels ++ [label]) :
    (definedLabels (sections.modify i change)).Perm (definedLabels sections ++ [label]) := by
  obtain ⟨hi, rfl⟩ := List.getElem?_eq_some_iff.1 hs
  have hsplit : sections.take i ++ sections[i] :: sections.drop (i + 1) = sections := by
    rw [List.getElem_cons_drop, List.take_append_drop]
  have hall := congrArg definedLabels hsplit
  simp only [definedLabels_eq, List.flatMap_append, List.flatMap_cons] at hall ⊢
  rw [List.modify_eq_take_cons_drop hi, List.flatMap_append, List.flatMap_cons, hchange, ← hall]
  simp only [List.append_assoc]
  exact .append_left _ (.append_left _ List.perm_append_comm)

/-- **Labelling a place puts the label there**, and changes nothing else. -/
theorem marked_defineLabel {image image' : Image} {label : String} {p : Position}
    (h : defineLabel image label p = .ok image') : ∃ sections,
      image' = { image with sections } ∧ Marked image.sections sections label p := by
  unfold defineLabel at h
  split at h
  · exact nomatch h
  · next s hs =>
    dsimp only at h
    split at h
    · exact nomatch h
    · next hle =>
      cases h
      let named (s : Section) : Bool := s.name == p.sectionName
      let change (s : Section) : Section :=
        { s with content := s.content.addExport label p.offset.toNat }
      have hs : image.sections[image.sections.findIdx named]? = some s :=
        List.find?_eq_getElem?_findIdx.symm.trans hs
      have hname : named s = true := List.findIdx_of_getElem?_eq_some hs
      have hset := List.modify_eq_set_getElem? change (image.sections.findIdx named) image.sections
      rw [hs] at hset
      have hlabelled : s.Labelled (change s) := ⟨_, ⟨_, rfl⟩, rfl⟩
      refine ⟨image.sections.modify (image.sections.findIdx named) change, rfl, ?_,
        perm_definedLabels_modify hs (List.map_append ..), ?_⟩
      · rw [hset]
        exact forall₂_set Section.Labelled.refl hs hlabelled
      · refine ⟨image.sections.findIdx named, change s, ?_, eq_of_beq hname, Nat.not_lt.1 hle,
          List.mem_append_right _ (.head _)⟩
        rw [hset]
        exact List.getElem?_set_self (List.getElem?_eq_some_iff.1 hs).1

/-! ## The image, step by step -/

/-- The export that a value describes. -/
def ExportValue.toExport (v : ExportValue) : Export := ⟨some v.name, .address (.label v.name), none⟩

/-- The symbols that an image offers. -/
def exported (image : Image) : List Export := (image.exports.map (·.exports)).getD []

/-- The section is the one that a value describes: it has the bytes of its file, and labels at most. -/
def SectionValue.Gives (read : Reader) (v : SectionValue) (s : Section) : Prop :=
  ∃ data, read v.file = .ok data ∧ (v.toSection data).Labelled s

/-- Sections that values describe have the names that these give them. -/
theorem map_name_of_gives {read : Reader} {values : List SectionValue} {sections : List Section}
    (h : List.Forall₂ (SectionValue.Gives read) values sections) :
    sections.map (·.name) = values.map (·.name) := by
  induction h with
  | nil => rfl
  | cons hgives _ ih =>
    obtain ⟨data, -, content, -, rfl⟩ := hgives
    exact congrArg (_ :: ·) ih

/-- The labels that the arguments ask for, each with its position. -/
def Arguments.marks (a : Arguments) : List (String × Position) :=
  a.exports.map (fun v => (v.name, v.position)) ++ a.entry.toList.map fun p => (entryLabel, p)

/-- The image is the one that the arguments describe. -/
structure Arguments.Describes (a : Arguments) (read : Reader) (image : Image) : Prop where
  order : image.order = a.order
  pe64 : image.pe64 = a.pe64
  names : (a.sections.map (·.name)).Nodup
  sections : List.Forall₂ (SectionValue.Gives read) a.sections image.sections
  labels : (definedLabels image.sections).Perm (a.marks.map (·.1))
  holds : ∀ m ∈ a.marks, Holds image.sections m.1 m.2
  exports : exported image = a.exports.map (·.toExport)
  imports : ∀ dir ∈ image.imports.getD [], dir.tableAddress = none
  entryPoint : image.optionalHeader.entryPoint = a.entry.map fun _ => .label entryLabel
  directoryCount : image.directoryCount = 16
  directories : image.directories = []

namespace Arguments.Describes

variable {a : Arguments} {read : Reader} {image image' : Image}

/-- The arguments without sections and without what refers to them describe the frame. -/
theorem frame (a : Arguments) (read : Reader) :
    { a with sections := [], exports := [], entry := none }.Describes read a.frame where
  order := rfl
  pe64 := rfl
  names := List.nodup_nil
  sections := .nil
  labels := .nil
  holds _ hm := nomatch hm
  exports := rfl
  imports _ hdir := nomatch hdir
  entryPoint := rfl
  directoryCount := rfl
  directories := rfl

/-- One section more. -/
theorem addSection (h : a.Describes read image) {v : SectionValue} {data : List UInt8}
    (hnew : image.section? v.name = none) (hread : read v.file = .ok data) :
    { a with sections := a.sections ++ [v] }.Describes read
      { image with sections := image.sections ++ [v.toSection data] } where
  order := h.order
  pe64 := h.pe64
  names := by
    rw [List.map_append]
    refine h.names.append (List.nodup_singleton _) (List.disjoint_singleton.2 fun hmem => ?_)
    rw [← map_name_of_gives h.sections] at hmem
    obtain ⟨s, hs, hname⟩ := List.mem_map.1 hmem
    exact List.find?_eq_none.1 hnew s hs (beq_iff_eq.2 hname)
  sections := List.rel_append h.sections (.cons ⟨data, hread, .refl _⟩ .nil)
  labels := by
    rw [definedLabels, List.flatMap_append]
    exact (List.append_nil _).symm ▸ h.labels
  holds m hm := by
    obtain ⟨i, s, hs, hrest⟩ := h.holds m hm
    exact ⟨i, s, List.getElem?_append_left (List.getElem?_eq_some_iff.1 hs).1 ▸ hs, hrest⟩
  exports := h.exports
  imports := h.imports
  entryPoint := h.entryPoint
  directoryCount := h.directoryCount
  directories := h.directories

/-- Labelled sections are still the ones that the arguments describe. -/
theorem gives_marked (h : a.Describes read image) {sections : List Section} {label : String}
    {p : Position} (hm : Marked image.sections sections label p) :
    List.Forall₂ (SectionValue.Gives read) a.sections sections :=
  forall₂_trans (fun _ _ _ ⟨data, hread, hgives⟩ hl => ⟨data, hread, hgives.trans hl⟩) h.sections
    hm.labelled

/-- One export more. -/
theorem addExport (h : a.Describes read image) {v : ExportValue} {sections : List Section}
    (hm : Marked image.sections sections v.name v.position) :
    { a with exports := a.exports ++ [v] }.Describes read
      (Image.addExport { image with sections } v.toExport) where
  order := h.order
  pe64 := h.pe64
  names := h.names
  sections := h.gives_marked hm
  labels := by
    refine hm.labels.trans ((h.labels.append_right _).trans ?_)
    simp only [marks, List.map_append, List.map_cons, List.map_nil, List.append_assoc]
    exact .append_left _ List.perm_append_comm
  holds m hmem := by
    simp only [marks, List.map_append, List.map_cons, List.map_nil, List.mem_append,
      List.mem_singleton] at hmem
    have hold (hmem : m ∈ a.marks) : Holds sections m.1 m.2 := (h.holds m hmem).labelled hm.labelled
    rcases hmem with (hmem | rfl) | hmem
    · exact hold (List.mem_append_left _ hmem)
    · exact hm.holds
    · exact hold (List.mem_append_right _ hmem)
  exports := by
    rw [List.map_append, ← h.exports]
    unfold exported Image.addExport
    cases image.exports <;> rfl
  imports := h.imports
  entryPoint := h.entryPoint
  directoryCount := h.directoryCount
  directories := h.directories

/-- The name of the library. -/
theorem nameLibrary (h : a.Describes read image) (name : Option String) :
    a.Describes read (nameLibrary name image) := by
  unfold CommandLine.nameLibrary
  split
  · next dir hexports =>
    refine { h with exports := ?_ }
    rw [← h.exports, exported, exported, hexports]
    rfl
  · exact h

/-- One import more. -/
theorem addImport (h : a.Describes read image) (library : String) (symbol : Import) :
    a.Describes read (image.addImport library symbol) := by
  refine { h with imports := fun dir hdir => ?_ }
  obtain hdir | ⟨dir', rfl | hdir', rfl⟩ := mem_updateFirst hdir
  · exact h.imports dir hdir
  · rfl
  · exact h.imports dir' hdir'

/-- The entry point. -/
theorem enter (h : a.Describes read image) (hnone : a.entry = none) {p : Position}
    {sections : List Section} (hm : Marked image.sections sections entryLabel p) :
    { a with entry := some p }.Describes read { image with
      sections
      optionalHeader := { image.optionalHeader with entryPoint := some (.label entryLabel) } } where
  order := h.order
  pe64 := h.pe64
  names := h.names
  sections := h.gives_marked hm
  labels := by
    have hlabels := hm.labels.trans (h.labels.append_right _)
    rw [marks, hnone, Option.toList_none, List.map_nil, List.append_nil] at hlabels
    rwa [marks, List.map_append]
  holds m hmem := by
    rcases List.mem_append.1 hmem with hmem | hmem
    · exact (h.holds m (List.mem_append_left _ hmem)).labelled hm.labelled
    · cases List.mem_singleton.1 hmem
      exact hm.holds
  exports := h.exports
  imports := h.imports
  entryPoint := rfl
  directoryCount := h.directoryCount
  directories := h.directories

/-! ## All steps -/

/-- **The sections are added in order.** -/
theorem addSections {l : List SectionValue} (h : a.Describes read image)
    (hadd : (addSections read l image).result = .ok image') :
    { a with sections := a.sections ++ l }.Describes read image' := by
  induction l generalizing a image with
  | nil =>
    cases hadd
    rwa [List.append_nil]
  | cons v rest ih =>
    rw [CommandLine.addSections] at hadd
    split at hadd
    · exact nomatch hadd
    · next hnew =>
      simp only [Logged.bind_eq_ok, Logged.result_liftM, Logged.result_note] at hadd
      obtain ⟨data, hdata, -, -, hadd⟩ := hadd
      have hread : read v.file = .ok data := by
        cases hfile : read v.file with
        | error e =>
          rw [hfile] at hdata
          exact nomatch hdata
        | ok bytes =>
          rw [hfile] at hdata
          cases hdata
          rfl
      have hnone : image.section? v.name = none := by simpa using hnew
      have hall := ih (h.addSection hnone hread) hadd
      rwa [List.append_assoc] at hall

/-- **The exports are added in order.** -/
theorem addExports {l : List ExportValue} (h : a.Describes read image)
    (hadd : addExports l image = .ok image') :
    { a with exports := a.exports ++ l }.Describes read image' := by
  induction l generalizing a image with
  | nil =>
    cases hadd
    rwa [List.append_nil]
  | cons v rest ih =>
    rw [CommandLine.addExports, bind_eq_ok] at hadd
    obtain ⟨image₁, hlabel, hadd⟩ := hadd
    obtain ⟨sections, rfl, hm⟩ := marked_defineLabel hlabel
    have hall := ih (h.addExport hm) hadd
    rwa [List.append_assoc] at hall

/-- **The imports are added in order.** -/
theorem addImports (l : List ImportValue) (h : a.Describes read image) : a.Describes read
    (l.foldl (fun image v => image.addImport v.library v.symbol.toImport) image) :=
  List.foldlRecOn l _ h fun _ hd v _ => hd.addImport v.library v.symbol.toImport

theorem setEntry {entry : Option Position} (h : a.Describes read image) (hnone : a.entry = none)
    (hset : setEntry entry image = .ok image') :
    { a with entry }.Describes read image' := by
  cases entry with
  | none =>
    cases hset
    rwa [← hnone]
  | some p =>
    rw [CommandLine.setEntry, bind_eq_ok] at hset
    obtain ⟨image₁, hlabel, hset⟩ := hset
    obtain ⟨sections, rfl, hm⟩ := marked_defineLabel hlabel
    cases hset
    exact h.enter hnone hm

end Arguments.Describes

/-- **The image that the program builds is the one that the arguments describe.** -/
theorem describes_buildImage {read : Reader} {a : Arguments} {image : Image}
    (h : (buildImage read a).result = .ok image) : a.Describes read image := by
  simp only [buildImage, Logged.bind_eq_ok, Logged.result_liftM] at h
  obtain ⟨image₁, h₁, image₂, h₂, h₃⟩ := h
  have hnamed := (((Arguments.Describes.frame a read).addSections h₁).addExports h₂).nameLibrary
    a.libraryName
  exact (hnamed.addImports a.imports).setEntry rfl h₃

end PortableImage.CommandLine
