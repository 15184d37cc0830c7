import Mathlib.Data.Set.Function
import PortableImage.Proofs.Labels.Assembly
import PortableImage.Proofs.Renaming.Assembly

/-!
# An image with other names for its labels

* `Image.rename` — every label of an image under another name, in sections, headers, exports, imports
  and directories alike.
* `Image.ownLabels` — the labels that the sections define and that imports ask for;
  `Image.usedLabels` — those that occur in values.
* `Image.renamed_rename` — the renamed image differs from the image in names only.
* `Assembly.start_rename` — both runs start alike.
-/

set_option autoImplicit false

namespace PortableImage

/-! ## Renaming -/

/-- The map with another value for every entry. -/
def OffsetMap.map {α β : Type} (f : α → β) (m : OffsetMap α) : OffsetMap β where
  entries := m.entries.map fun e => (e.1, f e.2)
  ascending := List.pairwise_map.2 m.ascending

/-- The buffer with other names for its labels and in its fields. -/
def Buffer.rename (ρ : String → String) (b : Buffer) : Buffer where
  data := b.data
  tail := b.tail
  fields := b.fields.map fun field => { field with target := field.target.rename ρ }
  exports := b.exports.map fun e => (ρ e.1, e.2)

/-- The section with other names. -/
def Section.rename (ρ : String → String) (s : Section) : Section :=
  { s with content := s.content.rename ρ }

/-- The target of an export with other names. -/
def ExportTarget.rename (ρ : String → String) : ExportTarget → ExportTarget
  | address target => address (target.rename ρ)
  | forwarder library symbol => forwarder library symbol

/-- The export directory with other names in the targets. -/
def ExportDirectory.rename (ρ : String → String) (dir : ExportDirectory) : ExportDirectory :=
  { dir with exports := dir.exports.map fun e => { e with target := e.target.rename ρ } }

/-- The import with other names for its slot and its stub. -/
def Import.rename (ρ : String → String) (i : Import) : Import :=
  { i with thunk := i.thunk.map ρ, target := i.target.map ρ }

/-- The library with other names in its imports. -/
def ImportDirectory.rename (ρ : String → String) (dir : ImportDirectory) : ImportDirectory :=
  { dir with imports := dir.imports.map (·.rename ρ) }

/-- The thread-local storage with other names. -/
def TlsDirectory.rename (ρ : String → String) (tls : TlsDirectory) : TlsDirectory :=
  { tls with
    start := tls.start.map (·.rename ρ)
    stop := tls.stop.map (·.rename ρ)
    index := tls.index.map (·.rename ρ)
    callbacks := tls.callbacks.map (·.rename ρ) }

/-- The base relocations with other names. -/
def RelocationTable.rename (ρ : String → String) (t : RelocationTable) : RelocationTable :=
  { t with base := t.base.rename ρ }

/-- The optional header with other names. -/
def OptionalHeader.rename (ρ : String → String) (h : OptionalHeader) : OptionalHeader :=
  { h with
    entryPoint := h.entryPoint.map (·.rename ρ)
    baseOfCode := h.baseOfCode.map (·.rename ρ)
    baseOfData := h.baseOfData.map (·.rename ρ) }

/-- **The image with other names for all its labels.** -/
def Image.rename (ρ : String → String) (image : Image) : Image :=
  { image with
    optionalHeader := image.optionalHeader.rename ρ
    sections := image.sections.map (·.rename ρ)
    exports := image.exports.map (·.rename ρ)
    imports := image.imports.map fun dirs => dirs.map (·.rename ρ)
    tls := image.tls.map (·.rename ρ)
    relocations := image.relocations.map fun tables => tables.map (·.rename ρ)
    directories := image.directories.map fun e =>
      (e.1, ⟨e.2.address.rename ρ, e.2.size.rename ρ⟩) }

/-! ## Labels of an image -/

/-- The values of the pending fields of a buffer. -/
def Buffer.values (b : Buffer) : List Expr := b.fields.entries.map fun e => e.2.target

/-- The value of an export, unless it is a forwarder. -/
def ExportTarget.values : ExportTarget → List Expr
  | address target => [target]
  | forwarder _ _ => []

/-- The addresses of the thread-local storage. -/
def TlsDirectory.values (tls : TlsDirectory) : List Expr :=
  tls.start.toList ++ tls.stop.toList ++ tls.index.toList ++ tls.callbacks

/-- The addresses of the optional header that may be labels. -/
def OptionalHeader.values (h : OptionalHeader) : List Expr :=
  h.entryPoint.toList ++ h.baseOfCode.toList ++ h.baseOfData.toList

/-- The values in an image: of section fields, headers, exports, thread-local storage, base
relocations and data directories. -/
def Image.values (image : Image) : List Expr :=
  image.optionalHeader.values ++ image.sections.flatMap (·.content.values)
    ++ image.exports.toList.flatMap (fun dir => dir.exports.flatMap (·.target.values))
    ++ image.tls.toList.flatMap (·.values)
    ++ image.relocations.toList.flatMap (fun tables => tables.map (·.base))
    ++ image.directories.flatMap fun e => [e.2.address, e.2.size]

/-- The labels that occur in values. -/
def Image.usedLabels (image : Image) : List String := image.values.flatMap (·.labelLeaves)

/-- The labels that sections define, and those of the slots and stubs of imports. -/
def Image.ownLabels (image : Image) : List String :=
  definedLabels image.sections ++ Assembly.importLabels (image.imports.getD [])

theorem Image.ownLabels_rename (ρ : String → String) (image : Image) :
    (image.rename ρ).ownLabels = image.ownLabels.map ρ := by
  have himport (i : Import) : (i.rename ρ).target.toList ++ (i.rename ρ).thunk.toList =
      (i.target.toList ++ i.thunk.toList).map ρ := by
    rw [List.map_append, Import.rename, Option.toList_map, Option.toList_map]
  have hdefined : definedLabels (image.rename ρ).sections =
      (definedLabels image.sections).map ρ := by
    rw [definedLabels, definedLabels, Image.rename, List.flatMap_map, List.map_flatMap]
    simp only [Section.rename, Buffer.rename, List.map_map, Function.comp_def]
  have hlibraries : (image.rename ρ).imports.getD [] =
      (image.imports.getD []).map (·.rename ρ) := by
    rw [Image.rename]
    cases image.imports <;> rfl
  rw [Image.ownLabels, Image.ownLabels, hdefined, hlibraries, List.map_append,
    Assembly.importLabels, Assembly.importLabels, List.flatMap_map, List.map_flatMap]
  simp only [ImportDirectory.rename, List.flatMap_map, List.map_flatMap, himport]

/-! ## A renamed image differs in names only -/

variable {W : Renaming} {ρ : String → String}

/-- A value that the pairs rename. -/
abbrev RenamesTo (W : Renaming) (ρ : String → String) (values : List Expr) : Prop :=
  ∀ e ∈ values, e.Renamed W (e.rename ρ)

theorem rel_map_of_mem {α β : Type} {R : α → β → Prop} {f : α → β} {l : List α}
    (h : ∀ a ∈ l, R a (f a)) : List.Forall₂ R l (l.map f) :=
  List.forall₂_map_right_iff.2 (List.forall₂_same.2 h)

theorem optionRel_map {α β : Type} {R : α → β → Prop} {f : α → β} {x : Option α}
    (h : ∀ a ∈ x, R a (f a)) : Option.Rel R x (x.map f) := by
  cases x with
  | none => exact .none
  | some a => exact .some (h a rfl)

theorem Buffer.renamed_rename {b : Buffer} (hvalues : RenamesTo W ρ b.values)
    (hlabels : ∀ l ∈ b.labels, W.Maps l (ρ l)) : b.Renamed W (b.rename ρ) where
  data := rfl
  tail := rfl
  fields := rel_map_of_mem fun _ he => ⟨rfl, hvalues _ (List.mem_map_of_mem he), rfl, rfl⟩
  exports := rel_map_of_mem fun _ he => ⟨hlabels _ (List.mem_map_of_mem he), rfl⟩

theorem ExportTarget.renamed_rename {target : ExportTarget}
    (h : RenamesTo W ρ target.values) : target.Renamed W (target.rename ρ) := by
  cases target with
  | address e => exact .address (h e (List.mem_singleton.2 rfl))
  | forwarder library symbol => exact .forwarder library symbol

theorem ExportDirectory.renamed_rename {dir : ExportDirectory}
    (h : RenamesTo W ρ (dir.exports.flatMap (·.target.values))) :
    dir.Renamed W (dir.rename ρ) where
  exports := rel_map_of_mem fun e he =>
    ⟨rfl, rfl, ExportTarget.renamed_rename fun _ hv => h _ (List.mem_flatMap.2 ⟨e, he, hv⟩)⟩
  fields := rfl

theorem ImportDirectory.renamed_rename {dir : ImportDirectory}
    (h : ∀ i ∈ dir.imports, ∀ l ∈ i.target.toList ++ i.thunk.toList, W.Maps l (ρ l)) :
    dir.Renamed W (dir.rename ρ) where
  imports := rel_map_of_mem fun i hi =>
    ⟨rfl, rfl, rfl,
      optionRel_map fun l hl => h i hi l (List.mem_append_right _ (Option.mem_toList.2 hl)),
      optionRel_map fun l hl => h i hi l (List.mem_append_left _ (Option.mem_toList.2 hl))⟩
  fields := rfl

theorem TlsDirectory.renamed_rename {tls : TlsDirectory} (h : RenamesTo W ρ tls.values) :
    tls.Renamed W (tls.rename ρ) where
  start := optionRel_map fun e he => h e (by simp [TlsDirectory.values, Option.mem_def.1 he])
  stop := optionRel_map fun e he => h e (by simp [TlsDirectory.values, Option.mem_def.1 he])
  index := optionRel_map fun e he => h e (by simp [TlsDirectory.values, Option.mem_def.1 he])
  callbacks := rel_map_of_mem fun e he => h e (List.mem_append_right _ he)
  zeroFill := rfl
  characteristics := rfl

theorem OptionalHeader.renamed_rename {h : OptionalHeader} (hh : RenamesTo W ρ h.values) :
    h.Renamed W (h.rename ρ) where
  entryPoint := optionRel_map fun e he =>
    hh e (by simp [OptionalHeader.values, Option.mem_def.1 he])
  baseOfCode := optionRel_map fun e he =>
    hh e (by simp [OptionalHeader.values, Option.mem_def.1 he])
  baseOfData := optionRel_map fun e he =>
    hh e (by simp [OptionalHeader.values, Option.mem_def.1 he])
  fields := rfl

/-- **The renamed image differs from the image in the names of labels only.** -/
theorem Image.renamed_rename {image : Image} (hleftover : leftoverLabels image.sections = [])
    (hvalues : RenamesTo W ρ image.values) (hlabels : ∀ l ∈ image.ownLabels, W.Maps l (ρ l)) :
    image.Renamed W (image.rename ρ) := by
  simp only [RenamesTo, Image.values, List.mem_append, or_imp, forall_and] at hvalues
  obtain ⟨⟨⟨⟨⟨hheader, hsections⟩, hexports⟩, htls⟩, hrelocations⟩, hdirectories⟩ := hvalues
  refine ⟨rfl, rfl, rfl, rfl, OptionalHeader.renamed_rename hheader, ?_, ?_, ?_, ?_, rfl, ?_, ?_⟩
  · refine rel_map_of_mem fun s hs => ⟨Buffer.renamed_rename ?_ fun l hl => ?_, fun hsize => ?_, rfl⟩
    · exact fun e he => hsections e (List.mem_flatMap.2 ⟨s, hs, he⟩)
    · exact hlabels l (List.mem_append_left _ (List.mem_flatMap.2 ⟨s, hs, hl⟩))
    · have hnone := Section.rawSizeLabel_eq_none (List.flatMap_eq_nil_iff.1 hleftover s hs) hsize
      exact ⟨hnone, hnone⟩
  · refine optionRel_map fun dir hdir => ExportDirectory.renamed_rename fun e he => ?_
    exact hexports e (List.mem_flatMap.2 ⟨dir, Option.mem_toList.2 hdir, he⟩)
  · refine optionRel_map fun dirs hdirs => rel_map_of_mem fun dir hdir => ?_
    refine ImportDirectory.renamed_rename fun i hi l hl => hlabels l (List.mem_append_right _ ?_)
    rw [Option.mem_def.1 hdirs]
    exact List.mem_flatMap.2 ⟨dir, hdir, List.mem_flatMap.2 ⟨i, hi, hl⟩⟩
  · refine optionRel_map fun tls ht => TlsDirectory.renamed_rename fun e he => ?_
    exact htls e (List.mem_flatMap.2 ⟨tls, Option.mem_toList.2 ht, he⟩)
  · refine optionRel_map fun tables ht => rel_map_of_mem fun table htable => ⟨?_, rfl⟩
    exact hrelocations _ (List.mem_flatMap.2
      ⟨tables, Option.mem_toList.2 ht, List.mem_map_of_mem htable⟩)
  · refine rel_map_of_mem fun e he => ⟨rfl, hdirectories _ ?_, hdirectories _ ?_⟩
    · exact List.mem_flatMap.2 ⟨e, he, List.mem_cons_self⟩
    · exact List.mem_flatMap.2 ⟨e, he, List.mem_cons_of_mem _ List.mem_cons_self⟩

/-! ## Starting -/

/-- Different labels under different names: the labels in use are those of the first run, renamed. -/
theorem LabelPool.known_reserveAll_map {names : List String} {p q : LabelPool}
    (hρ : Set.InjOn ρ {l | l ∈ p.known ++ names}) (h : q.known = p.known.map ρ) :
    (q.reserveAll (names.map ρ)).known = ((p.reserveAll names).known).map ρ := by
  induction names generalizing p q with
  | nil => exact h
  | cons name rest ih =>
    have hmem : ρ name ∈ q.known ↔ name ∈ p.known := by
      rw [h]
      refine ⟨fun hρmem => ?_, List.mem_map_of_mem⟩
      obtain ⟨l, hl, heq⟩ := List.mem_map.1 hρmem
      have hsame := hρ (List.mem_append_left _ hl)
        (List.mem_append_right _ List.mem_cons_self) heq
      exact hsame ▸ hl
    refine ih (p := (p.reserve name).2) (q := (q.reserve (ρ name)).2) (hρ.mono fun l hl => ?_) ?_
    · rcases List.mem_append.1 hl with hl | hl
      · rw [reserve] at hl
        split at hl
        · exact List.mem_append_left _ hl
        · rcases List.mem_cons.1 hl with rfl | hl
          · exact List.mem_append_right _ List.mem_cons_self
          · exact List.mem_append_left _ hl
      · exact List.mem_append_right _ (List.mem_cons_of_mem _ hl)
    · rw [reserve, reserve]
      by_cases hknown : name ∈ p.known
      · rw [if_pos hknown, if_pos (hmem.2 hknown), h]
      · rw [if_neg hknown, if_neg (hknown ∘ hmem.1), List.map_cons, h]

/-- The labels with their other names. -/
def Renaming.ofInjOn (known : List String) (ρ : String → String)
    (hρ : Set.InjOn ρ {l | l ∈ known}) : Renaming where
  pairs := known.map fun l => (l, ρ l)
  matching p hp q hq := by
    obtain ⟨l, hl, rfl⟩ := List.mem_map.1 hp
    obtain ⟨m, hm, rfl⟩ := List.mem_map.1 hq
    exact (hρ.eq_iff hl hm).symm

theorem Renaming.map_fst_ofInjOn {known : List String} (hρ : Set.InjOn ρ {l | l ∈ known}) :
    (ofInjOn known ρ hρ).pairs.map (·.1) = known := by
  simp [ofInjOn, Function.comp_def]

theorem Renaming.map_snd_ofInjOn {known : List String} (hρ : Set.InjOn ρ {l | l ∈ known}) :
    (ofInjOn known ρ hρ).pairs.map (·.2) = known.map ρ := by
  simp [ofInjOn, Function.comp_def]

/-- **Both runs start alike**: the labels of the caller are paired off with their other names, and so
are the labels of the start. -/
theorem Assembly.start_rename {image : Image} (hleftover : leftoverLabels image.sections = [])
    (hρ : Set.InjOn ρ {l | l ∈ image.ownLabels})
    (hused : ∀ l ∈ image.usedLabels, l ∈ image.ownLabels) (now : UInt32) :
    ∃ W, Assembly.Renamed W (start image now) (start (image.rename ρ) now) := by
  have hknown : ∀ l, l ∈ (LabelPool.empty.reserveAll image.ownLabels).known ↔
      l ∈ image.ownLabels := fun l => by
    rw [LabelPool.mem_known_reserveAll]
    simp [LabelPool.empty]
  have hnames : (LabelPool.empty.reserveAll (image.ownLabels.map ρ)).known =
      (LabelPool.empty.reserveAll image.ownLabels).known.map ρ :=
    LabelPool.known_reserveAll_map hρ rfl
  let W₀ := Renaming.ofInjOn (LabelPool.empty.reserveAll image.ownLabels).known ρ
    (hρ.mono fun l hl => (hknown l).1 hl)
  have hpool : LabelPool.Renamed W₀ (LabelPool.empty.reserveAll image.ownLabels)
      (LabelPool.empty.reserveAll (image.rename ρ).ownLabels) := by
    rw [Image.ownLabels_rename]
    exact ⟨(Renaming.map_fst_ofInjOn _).symm, hnames.trans (Renaming.map_snd_ofInjOn _).symm⟩
  have hmaps : ∀ l ∈ image.ownLabels, W₀.Maps l (ρ l) := fun l hl =>
    List.mem_map_of_mem ((hknown l).2 hl)
  obtain ⟨V, hle, hstart, hfinal⟩ := hpool.fresh "coff_start" "coff_start"
  refine ⟨V, Image.Renamed.mono ?_ hle, ⟨hfinal, rfl, hstart⟩, .nil, rfl⟩
  refine Image.renamed_rename hleftover (fun e he => Expr.renamed_rename fun l hl => ?_) hmaps
  exact hmaps l (hused l (List.mem_flatMap.2 ⟨e, he, hl⟩))

end PortableImage
