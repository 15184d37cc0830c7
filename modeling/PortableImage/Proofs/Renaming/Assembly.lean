import PortableImage.Encode.Assembly
import PortableImage.Proofs.Renaming.Exports
import PortableImage.Proofs.Renaming.Sections

/-!
# Images under different names

* `Image.Renamed`, `Assembly.Renamed` — images that differ in the names of labels only.
* `appendSection_renamed` — a generated section goes to the same place.
* `Assembly.Renamed.setDirectory` — the table of data directories stays alike.
-/

set_option autoImplicit false

namespace PortableImage

variable {W V : Renaming}

/-! ## Images -/

/-- The headers differ in the names of labels only. -/
structure OptionalHeader.Renamed (W : Renaming) (h h' : OptionalHeader) : Prop where
  entryPoint : Option.Rel (Expr.Renamed W) h.entryPoint h'.entryPoint
  baseOfCode : Option.Rel (Expr.Renamed W) h.baseOfCode h'.baseOfCode
  baseOfData : Option.Rel (Expr.Renamed W) h.baseOfData h'.baseOfData
  fields : h' = { h with
    entryPoint := h'.entryPoint
    baseOfCode := h'.baseOfCode
    baseOfData := h'.baseOfData }

/-- The data directories are the same, up to names. -/
abbrev DirectoriesRenamed (W : Renaming) (l l' : List (DirectorySlot × DataDirectory)) : Prop :=
  List.Forall₂ (fun e e' => e'.1 = e.1 ∧ e.2.address.Renamed W e'.2.address ∧
    e.2.size.Renamed W e'.2.size) l l'

/-- The images differ in the names of labels only. -/
structure Image.Renamed (W : Renaming) (image image' : Image) : Prop where
  order : image'.order = image.order
  pe64 : image'.pe64 = image.pe64
  pic : image'.pic = image.pic
  header : image'.header = image.header
  optionalHeader : image.optionalHeader.Renamed W image'.optionalHeader
  sections : SectionsRenamed W image.sections image'.sections
  exports : Option.Rel (ExportDirectory.Renamed W) image.exports image'.exports
  imports : Option.Rel (LibrariesRenamed W) image.imports image'.imports
  tls : Option.Rel (TlsDirectory.Renamed W) image.tls image'.tls
  resources : image'.resources = image.resources
  relocations : Option.Rel (List.Forall₂ (RelocationTable.Renamed W)) image.relocations
    image'.relocations
  directories : DirectoriesRenamed W image.directories image'.directories

/-- A relation that holds under more pairs holds for what may be missing. -/
theorem optionRel_mono {α β : Type} {R S : α → β → Prop} {x : Option α} {y : Option β}
    (h : Option.Rel R x y) (hRS : ∀ a b, R a b → S a b) : Option.Rel S x y := by
  cases h with
  | some h => exact .some (hRS _ _ h)
  | none => exact .none

theorem OptionalHeader.Renamed.mono {h h' : OptionalHeader} (hh : h.Renamed W h') (hle : W ≤ V) :
    h.Renamed V h' where
  entryPoint := optionRel_mono hh.entryPoint fun _ _ he => he.mono hle
  baseOfCode := optionRel_mono hh.baseOfCode fun _ _ he => he.mono hle
  baseOfData := optionRel_mono hh.baseOfData fun _ _ he => he.mono hle
  fields := hh.fields

theorem ExportDirectory.Renamed.mono {dir dir' : ExportDirectory} (h : dir.Renamed W dir')
    (hle : W ≤ V) : dir.Renamed V dir' where
  exports := h.exports.imp fun _ _ he => ⟨he.name, he.ordinal, he.target.mono hle⟩
  fields := h.fields

theorem Image.Renamed.mono {image image' : Image} (h : image.Renamed W image') (hle : W ≤ V) :
    image.Renamed V image' where
  order := h.order
  pe64 := h.pe64
  pic := h.pic
  header := h.header
  optionalHeader := h.optionalHeader.mono hle
  sections := SectionsRenamed.mono h.sections hle
  exports := optionRel_mono h.exports fun _ _ he => he.mono hle
  imports := optionRel_mono h.imports fun _ _ hd => LibrariesRenamed.mono hd hle
  tls := optionRel_mono h.tls fun _ _ ht => ht.mono hle
  resources := h.resources
  relocations := optionRel_mono h.relocations fun _ _ ht => ht.imp fun _ _ hx => hx.mono hle
  directories := h.directories.imp fun _ _ he => ⟨he.1, he.2.1.mono hle, he.2.2.mono hle⟩

/-- Address tables with a fixed address. -/
abbrev TablesInPlaceRenamed (W : Renaming) (l l' : List (Nat × Buffer)) : Prop :=
  List.Forall₂ (fun e e' => e'.1 = e.1 ∧ e.2.Renamed W e'.2) l l'

/-- The images that directories are added to differ in the names of labels only. -/
structure Assembly.Renamed (W : Renaming) (a a' : Assembly) : Prop where
  image : a.image.Renamed W a'.image
  context : a.context.Renamed W a'.context
  tablesInPlace : TablesInPlaceRenamed W a.tablesInPlace a'.tablesInPlace
  now : a'.now = a.now

theorem Assembly.Renamed.withContext {a a' : Assembly} (h : a.Renamed W a') (hle : W ≤ V)
    {c c' : Context} (hc : c.Renamed V c') :
    Assembly.Renamed V { a with context := c } { a' with context := c' } where
  image := h.image.mono hle
  context := hc
  tablesInPlace := h.tablesInPlace.imp fun _ _ he => ⟨he.1, he.2.mono hle⟩
  now := h.now

/-! ## Adding sections -/

theorem Section.Renamed.accepts {s s' : Section} (h : s.Renamed W s') (flags : SectionFlags) :
    s'.accepts flags = s.accepts flags := by
  rw [h.fields]
  rfl

theorem Section.Renamed.address {s s' : Section} (h : s.Renamed W s') :
    s'.address = s.address := by rw [h.fields]

theorem Section.Renamed.sizeInMemory {s s' : Section} (h : s.Renamed W s') :
    s'.sizeInMemory = s.sizeInMemory := by
  rw [h.fields, Section.sizeInMemory, Section.sizeInMemory]
  dsimp only
  rw [h.content.virtSize]

theorem mergeIndex_renamed {sections sections' : List Section}
    (h : SectionsRenamed W sections sections') (flags : SectionFlags) :
    mergeIndex flags sections' = mergeIndex flags sections := by
  have hall : ∀ {l l' : List Section}, SectionsRenamed W l l' →
      l'.all (·.address.isNone) = l.all (·.address.isNone) := by
    intro l l' hl
    induction hl with
    | nil => rfl
    | cons hs _ ih => rw [List.all_cons, List.all_cons, ih, hs.address]
  induction h with
  | nil => rfl
  | cons hs hrest ih => rw [mergeIndex, mergeIndex, hs.accepts, hall hrest, ih]

/-- **A generated section goes to the same place.** -/
theorem appendSection_renamed {sections sections' : List Section}
    (h : SectionsRenamed W sections sections') {s s' : Section} (hs : s.Renamed W s') :
    SectionsRenamed W (appendSection sections s).1 (appendSection sections' s').1 := by
  have hflags : s'.flags = s.flags := by rw [hs.fields]
  rw [appendSection, appendSection, mergeTarget, mergeTarget, hs.sizeInMemory, hflags,
    mergeIndex_renamed h]
  split
  · refine rel_modify h _ fun x x' hx =>
      ⟨(hx.content.align 8).append hs.content, hx.leftover, ?_⟩
    rw [hx.fields]
    rfl
  · exact List.rel_append h (.cons hs .nil)

theorem renamed_new (name : String) (flags : SectionFlags) {b b' : Buffer} (h : b.Renamed W b') :
    (Section.new name flags b).Renamed W (Section.new name flags b') :=
  ⟨h, fun hsome => (nomatch hsome), rfl⟩

namespace Assembly

variable {a a' : Assembly}

theorem Renamed.addSection (h : a.Renamed W a') {s s' : Section} (hs : s.Renamed W s') :
    Runs (Grown W Assembly.Renamed) (a.addSection s).result (a'.addSection s').result := by
  simp only [Assembly.addSection, Logged.result_bind, Logged.result_note]
  exact ⟨W, le_refl W, { h.image with sections := appendSection_renamed h.image.sections hs },
    h.context, h.tablesInPlace, h.now⟩

theorem setDirectory_image_renamed {image image' : Image} (h : image.Renamed W image')
    (slot : DirectorySlot) {place place' : DataDirectory}
    (haddress : place.address.Renamed W place'.address) (hsize : place.size.Renamed W place'.size) :
    (image.setDirectory slot place).Renamed W (image'.setDirectory slot place') := by
  refine { h with directories := ?_ }
  refine (rel_updateFirst (S := fun _ _ => True) ?_ ?_ ?_ h.directories).1
  · intro e e' he
    rw [he.1]
  · exact ⟨rfl, haddress, hsize⟩
  · exact fun _ _ _ => ⟨⟨rfl, haddress, hsize⟩, trivial⟩

theorem Renamed.setDirectory (h : a.Renamed W a') (slot : DirectorySlot) {b b' : Buffer}
    (hb : b.Renamed W b') (hint : String) :
    Grown W (fun V x x' => x.1.Renamed V x'.1 ∧ x.2.Renamed V x'.2) (a.setDirectory slot b hint)
      (a'.setDirectory slot b' hint) := by
  obtain ⟨V, hle, hl, hc, hlabelled⟩ := h.context.labelAt hb 0 hint hint
  have hsize : (Expr.ofSize b.virtSize).Renamed V (Expr.ofSize b'.virtSize) := by
    rw [hb.virtSize]
    exact Expr.renamed_ofSize V _
  have hcontext := h.withContext hle hc
  exact ⟨V, hle, ⟨setDirectory_image_renamed hcontext.image slot
    (Context.rva_renamed hc.start (Expr.renamed_label hl)) hsize, hcontext.context,
    hcontext.tablesInPlace, hcontext.now⟩, hlabelled⟩

end Assembly

end PortableImage
