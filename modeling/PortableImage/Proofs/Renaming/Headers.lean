import PortableImage.Proofs.Header.Layout
import PortableImage.Proofs.Renaming.Assembly

/-!
# Headers under different names

* `sectionRva_renamed` — the label of the start of a section, given or invented, is the same place.
* `encodeSectionTable_renamed`, `encodeOptionalHeader_renamed` — the headers have the same fields up
  to names.
* `HeadedImage.Renamed`, `Assembly.Renamed.withHeaders` — an image gets alike headers in both runs,
  or fails in both.
-/

set_option autoImplicit false

namespace PortableImage

variable {W V : Renaming} {c c' : Context}

/-! ## Defaults that follow from the kind of image -/

theorem directory?_renamed {image image' : Image} (h : image.Renamed W image')
    (slot : DirectorySlot) :
    Option.Rel (fun d d' => d.address.Renamed W d'.address ∧ d.size.Renamed W d'.size)
      (image.directory? slot) (image'.directory? slot) := by
  have hdirectories := h.directories
  rw [Image.directory?, Image.directory?]
  generalize image.directories = l at hdirectories
  generalize image'.directories = l' at hdirectories
  induction hdirectories with
  | nil => exact .none
  | @cons e e' rest rest' he _ ih =>
    obtain ⟨key, d⟩ := e
    obtain ⟨key', d'⟩ := e'
    obtain ⟨rfl, hd⟩ := he
    rw [List.lookup_cons, List.lookup_cons]
    cases slot == key' with
    | true => exact .some hd
    | false => exact ih

theorem Image.Renamed.withTargetDefaults {image image' : Image} (h : image.Renamed W image')
    (target : Target) :
    (image.withTargetDefaults target).Renamed W (image'.withTargetDefaults target) := by
  have hplace : (image'.directory? .baseRelocationTable).isSome =
      (image.directory? .baseRelocationTable).isSome := by
    have hrel := directory?_renamed h .baseRelocationTable
    generalize image.directory? .baseRelocationTable = d at hrel ⊢
    generalize image'.directory? .baseRelocationTable = d' at hrel ⊢
    cases hrel <;> rfl
  refine { h with
    header := ?_
    optionalHeader := ⟨h.optionalHeader.entryPoint, h.optionalHeader.baseOfCode,
      h.optionalHeader.baseOfData, ?_⟩ }
  · simp only [Image.withTargetDefaults, h.header, h.pe64, hplace]
  · simp only [Image.withTargetDefaults, hplace]
    rw [h.optionalHeader.fields]

theorem Section.Renamed.withContentFlags {s s' : Section} (h : s.Renamed W s') :
    s.withContentFlags.Renamed W s'.withContentFlags := by
  rw [Section.withContentFlags, Section.withContentFlags, h.fields]
  dsimp only
  rw [h.content.rawSize]
  split <;> exact ⟨h.content, h.leftover, rfl⟩

/-! ## The section table -/

/-- The address of a section relative to the start of the image is the same place. -/
theorem sectionRva_renamed (hc : c.Renamed W c') {s s' : Section} (hs : s.Renamed W s') :
    Grown W (fun V x x' => x.1.Renamed V x'.1 ∧ x.2.1.Renamed V x'.2.1 ∧ x.2.2.Renamed V x'.2.2)
      (sectionRva c s) (sectionRva c' s') := by
  rw [sectionRva, sectionRva, hs.address]
  split
  · exact ⟨W, le_refl W, Expr.renamed_ofSize W _, hs, hc⟩
  · obtain ⟨V, hle, hl, hcontext, hcontent⟩ := hc.labelAt hs.content 0 "sect_start" "sect_start"
    refine ⟨V, hle, Context.rva_renamed hcontext.start (Expr.renamed_label hl),
      ⟨hcontent, hs.leftover, ?_⟩, hcontext⟩
    rw [hs.fields]

/-- The labels that an encoding has given to the place and the size in the file stand for each
other. -/
structure Section.LabelsRenamed (W : Renaming) (s s' : Section) : Prop where
  rawAddress :
    W.MapsOption (s.rawAddressLabel.map (·.name)) (s'.rawAddressLabel.map (·.name))
  rawSize : W.MapsOption (s.rawSizeLabel.map (·.name)) (s'.rawSizeLabel.map (·.name))

theorem Section.LabelsRenamed.mono {s s' : Section} (h : s.LabelsRenamed W s') (hle : W ≤ V) :
    s.LabelsRenamed V s' :=
  ⟨Renaming.mapsOption_mono h.rawAddress hle, Renaming.mapsOption_mono h.rawSize hle⟩

/-- Labels that are added to the content make no difference. -/
theorem Section.LabelsRenamed.labelled {s s' t t' : Section} (h : s.LabelsRenamed W s')
    (ht : s.Labelled t) (ht' : s'.Labelled t') : t.LabelsRenamed W t' := by
  obtain ⟨content, -, rfl⟩ := ht
  obtain ⟨content', -, rfl⟩ := ht'
  exact ⟨h.rawAddress, h.rawSize⟩

theorem labelsRenamed_labelled {sections sections' labelled labelled' : List Section}
    (h : List.Forall₂ (Section.LabelsRenamed W) sections sections')
    (hl : List.Forall₂ Section.Labelled sections labelled)
    (hl' : List.Forall₂ Section.Labelled sections' labelled') :
    List.Forall₂ (Section.LabelsRenamed W) labelled labelled' := by
  induction h generalizing labelled labelled' with
  | nil =>
    cases hl
    cases hl'
    exact .nil
  | cons hs _ ih =>
    obtain _ | ⟨ht, hl⟩ := hl
    obtain _ | ⟨ht', hl'⟩ := hl'
    exact .cons (hs.labelled ht ht') (ih hl hl')

/-- The size of a section in the file is the same number, or gets a label in both runs. -/
theorem sectionRawSize_renamed (hc : c.Renamed W c') {s s' : Section} (hs : s.Renamed W s') :
    Grown W (fun V x x' => x.1.Renamed V x'.1 ∧ (x.2.1.Renamed V x'.2.1 ∧
        V.MapsOption (x.2.1.rawSizeLabel.map (·.name)) (x'.2.1.rawSizeLabel.map (·.name))) ∧
        x.2.2.Renamed V x'.2.2)
      (sectionRawSize c s) (sectionRawSize c' s') := by
  have hsize : s'.rawSize = s.rawSize := by rw [hs.fields]
  cases h : s.rawSize with
  | some size =>
    rw [sectionRawSize_fixed h, sectionRawSize_fixed (hsize.trans h)]
    obtain ⟨hnone, hnone'⟩ := hs.leftover (by rw [h]; rfl)
    refine ⟨W, le_refl W, Expr.renamed_ofSize W _, ⟨hs, ?_⟩, hc⟩
    dsimp only
    rw [hnone, hnone']
    exact .none
  | none =>
    rw [sectionRawSize_floating h, sectionRawSize_floating (hsize.trans h)]
    obtain ⟨V, hle, hl, hcontext⟩ := hc.fresh "sect_rawsize" "sect_rawsize"
    refine ⟨V, hle, Expr.renamed_label hl, ⟨⟨hs.content.mono hle, fun hsome => ?_, ?_⟩, .some hl⟩,
      hcontext⟩
    · exact absurd (show s.rawSize.isSome from hsome) (by rw [h]; exact Bool.false_ne_true)
    · rw [hs.fields]

/-- The place of a section in the file gets a label in both runs. -/
theorem sectionRawAddress_renamed (hc : c.Renamed W c') {s s' : Section} (hs : s.Renamed W s')
    (hsize : W.MapsOption (s.rawSizeLabel.map (·.name)) (s'.rawSizeLabel.map (·.name))) :
    Grown W (fun V x x' => x.1.Renamed V x'.1 ∧ (x.2.1.Renamed V x'.2.1 ∧
        x.2.1.LabelsRenamed V x'.2.1) ∧ x.2.2.Renamed V x'.2.2)
      (sectionRawAddress c s) (sectionRawAddress c' s') := by
  obtain ⟨V, hle, hl, hcontext⟩ := hc.fresh "sect_rawaddr" "sect_rawaddr"
  refine ⟨V, hle, Expr.renamed_label hl, ⟨⟨hs.content.mono hle, hs.leftover, ?_⟩, .some hl,
    Renaming.mapsOption_mono hsize hle⟩, hcontext⟩
  rw [hs.fields]
  rfl

theorem sizeSection_renamed {s s' : Section} (hs : s.Renamed W s') :
    Runs (Section.Renamed W) (sizeSection s) (sizeSection s') := by
  have hsize : s'.virtSize = s.virtSize := by rw [hs.fields]
  rw [sizeSection, sizeSection, hsize, hs.content.virtSize]
  split
  · exact hs
  · refine (Runs.self _).bind fun size _ heq => ?_
    subst heq
    refine ⟨hs.content, hs.leftover, ?_⟩
    rw [hs.fields]

/-- A row, with the section and its labels. -/
structure SectionRow.Renamed (W : Renaming) (r r' : SectionRow) : Prop where
  row : r.row.Renamed W r'.row
  entry : r.entry.Renamed W r'.entry
  labels : r.entry.LabelsRenamed W r'.entry
  context : r.context.Renamed W r'.context

theorem rowFields_renamed {s s' : Section} (hs : s.Renamed W s') {rva rva' rawSize rawSize'
    rawAddress rawAddress' : Expr} (hrva : rva.Renamed W rva') (hsize : rawSize.Renamed W rawSize')
    (haddress : rawAddress.Renamed W rawAddress') :
    Record.Renamed W (rowFields s rva rawSize rawAddress)
      (rowFields s' rva' rawSize' rawAddress') := by
  rw [hs.fields]
  have hself (n : Nat) : (Expr.ofSize n).Renamed W (.ofSize n) := Expr.renamed_ofSize W n
  exact .cons ⟨rfl, hself _⟩ <| .cons ⟨rfl, hrva⟩ <| .cons ⟨rfl, hsize⟩ <|
    .cons ⟨rfl, haddress⟩ <| .cons ⟨rfl, hself _⟩ <| .cons ⟨rfl, hself _⟩ <|
    .cons ⟨rfl, hself _⟩ <| .cons ⟨rfl, hself _⟩ <| .cons ⟨rfl, hself _⟩ .nil

/-- **A row of the section table has the same fields, up to names.** -/
theorem encodeSectionHeader_renamed (hc : c.Renamed W c') {s s' : Section}
    (hs : s.Renamed W s') :
    Runs (Grown W SectionRow.Renamed) (encodeSectionHeader c s) (encodeSectionHeader c' s') := by
  rw [encodeSectionHeader, encodeSectionHeader]
  refine (sizeSection_renamed hs).bind fun s s' hs => ?_
  obtain ⟨V₁, rva, x, rva', x', hle₁, heq₁, heq₁', hrva, hs₁, hc₁⟩ :=
    (sectionRva_renamed hc hs).pair
  obtain ⟨V₂, rawSize, y, rawSize', y', hle₂, heq₂, heq₂', hsize, ⟨hs₂, hlabel⟩, hc₂⟩ :=
    (sectionRawSize_renamed hc₁ hs₁).pair
  obtain ⟨V₃, rawAddress, z, rawAddress', z', hle₃, heq₃, heq₃', haddress, ⟨hs₃, hlabels⟩, hc₃⟩ :=
    (sectionRawAddress_renamed hc₂ hs₂ hlabel).pair
  have hencoder : z'.2.encoder = z.2.encoder := hc₃.encoder
  have hname : z'.1.name = z.1.name := by rw [hs₃.fields]
  simp only [heq₁, heq₁', heq₂, heq₂', heq₃, heq₃', hencoder, hname]
  refine Runs.grown ?_ (le_trans hle₁ (le_trans hle₂ hle₃))
  refine (FieldEncoder.record_renamed _ (rowFields_renamed hs₃ (hrva.mono (le_trans hle₂ hle₃))
    (hsize.mono hle₃) haddress)).bind fun fields fields' hfields => ?_
  exact ⟨V₃, le_refl V₃, (Buffer.renamed_ofBytes V₃ _).append hfields, hs₃, hlabels, hc₃⟩

/-- The section table, with the sections and their labels. -/
structure SectionTable.Renamed (W : Renaming) (t t' : SectionTable) : Prop where
  rows : t.rows.Renamed W t'.rows
  sections : SectionsRenamed W t.sections t'.sections
  labels : List.Forall₂ (Section.LabelsRenamed W) t.sections t'.sections
  context : t.context.Renamed W t'.context

/-- The section table is the same in both runs up to names, or fails in both. -/
theorem encodeSectionTable_renamed (hc : c.Renamed W c') {sections sections' : List Section}
    (h : SectionsRenamed W sections sections') :
    Runs (Grown W SectionTable.Renamed) (encodeSectionTable c sections)
      (encodeSectionTable c' sections') := by
  induction sections generalizing W sections' c c' with
  | nil =>
    cases h
    exact ⟨W, le_refl W, Buffer.renamed_empty W, .nil, .nil, hc⟩
  | cons s rest ih =>
    obtain _ | ⟨hs, hrest⟩ := h
    rw [encodeSectionTable, encodeSectionTable]
    refine (encodeSectionHeader_renamed hc hs.withContentFlags).bindGrown
      fun V r r' hle hr => ?_
    refine (ih hr.context (SectionsRenamed.mono hrest hle)).bindGrown fun U t t' hle' ht => ?_
    exact ⟨U, le_refl U, (hr.row.mono hle').append ht.rows,
      .cons (hr.entry.mono hle') ht.sections, .cons (hr.labels.mono hle') ht.labels, ht.context⟩

/-! ## Defaults that follow from the sections -/

theorem sizeOr_renamed {sections sections' : List Section}
    (h : SectionsRenamed W sections sections') (given : Option UInt32) (flag : SectionFlags)
    (alignment : Nat) (quantity : Quantity) :
    sizeOr given sections' flag alignment quantity =
      sizeOr given sections flag alignment quantity := by
  have htotal : totalSize sections' flag alignment = totalSize sections flag alignment := by
    rw [totalSize, totalSize]
    refine (List.rel_foldl (P := Eq) (R := Section.Renamed W) ?_ rfl
      (List.rel_filter ?_ h)).symm
    · rintro n _ rfl s s' hs
      rw [hs.fields]
    · intro s s' hs
      rw [hs.fields]
  cases given with
  | some size => rfl
  | none => rw [sizeOr, sizeOr, htotal]

/-- The address of the first section with the flag is the same place. -/
theorem firstRva_renamed (flag : SectionFlags) (hc : c.Renamed W c')
    {sections sections' : List Section} (h : SectionsRenamed W sections sections') :
    Grown W (fun V x x' => x.1.Renamed V x'.1 ∧ SectionsRenamed V x.2.1 x'.2.1 ∧
      x.2.2.Renamed V x'.2.2) (firstRva flag sections c) (firstRva flag sections' c') := by
  induction h with
  | nil => exact ⟨W, le_refl W, Expr.renamed_const W 0, .nil, hc⟩
  | @cons s s' rest rest' hs hrest ih =>
    have hflags : s'.flags = s.flags := by rw [hs.fields]
    rw [firstRva, firstRva, hflags]
    split
    · obtain ⟨V, hle, hrva, hs, hc⟩ := sectionRva_renamed hc hs
      exact ⟨V, hle, hrva, .cons hs (SectionsRenamed.mono hrest hle), hc⟩
    · obtain ⟨V, hle, hrva, hothers, hc⟩ := ih
      exact ⟨V, hle, hrva, .cons (hs.mono hle) hothers, hc⟩

theorem rvaOr_renamed {given given' : Option Expr} (hgiven : Option.Rel (Expr.Renamed W) given
    given') (flag : SectionFlags) (hc : c.Renamed W c') {sections sections' : List Section}
    (h : SectionsRenamed W sections sections') :
    Grown W (fun V x x' => x.1.Renamed V x'.1 ∧ SectionsRenamed V x.2.1 x'.2.1 ∧
      x.2.2.Renamed V x'.2.2) (rvaOr given flag sections c) (rvaOr given' flag sections' c') := by
  cases hgiven with
  | some hrva => exact ⟨W, le_refl W, hrva, h, hc⟩
  | none => exact firstRva_renamed flag hc h

/-- The optional header with its defaults. -/
structure Defaults.Renamed (W : Renaming) (d d' : Defaults) : Prop where
  header : d.header.Renamed W d'.header
  sections : SectionsRenamed W d.sections d'.sections
  context : d.context.Renamed W d'.context

/-- The defaults are the same up to names, or fail in both runs. -/
theorem fillDefaults_renamed (hc : c.Renamed W c') {h h' : OptionalHeader} (hh : h.Renamed W h')
    {sections sections' : List Section} (hs : SectionsRenamed W sections sections') :
    Runs (Grown W Defaults.Renamed) (fillDefaults c h sections)
      (fillDefaults c' h' sections') := by
  rw [hh.fields]
  simp only [fillDefaults, sizeOr_renamed hs]
  refine (Runs.self _).bind fun _ _ _ => ?_
  refine (Runs.self _).bind fun _ _ _ => ?_
  refine (Runs.self _).bind fun codeSize _ heq => ?_
  subst heq
  refine (Runs.self _).bind fun dataSize _ heq => ?_
  subst heq
  refine (Runs.self _).bind fun uninitializedSize _ heq => ?_
  subst heq
  obtain ⟨V, code, x, code', x', hle, heq, heq', hcode, hs₁, hc₁⟩ :=
    (rvaOr_renamed hh.baseOfCode .containsCode hc hs).pair
  obtain ⟨U, data, y, data', y', hle', heqd, heqd', hdata, hs₂, hc₂⟩ :=
    (rvaOr_renamed (rel_mono hh.baseOfData hle) .containsData hc₁ hs₁).pair
  have hencoder : y'.2.encoder = y.2.encoder := hc₂.encoder
  simp only [heq, heq', heqd, heqd', hencoder]
  refine Grown.mono ⟨U, hle', ⟨?_, ?_, ?_, rfl⟩, hs₂, hc₂⟩ hle
  · exact rel_mono hh.entryPoint (le_trans hle hle')
  · exact .some (hcode.mono hle')
  · exact .some hdata

/-! ## The optional header -/

/-- The labels of the pending fields stand for each other. -/
structure PendingHeader.Renamed (W : Renaming) (p p' : PendingHeader) : Prop where
  imageSize : W.Maps p.imageSize p'.imageSize
  headersSize : W.Maps p.headersSize p'.headersSize
  checksum : W.MapsOption p.checksum p'.checksum

theorem pendingHeader_renamed (hc : c.Renamed W c') {h h' : OptionalHeader}
    (hchecksum : h'.checksum = h.checksum) :
    Grown W (fun V x x' => x.1.Renamed V x'.1 ∧ x.2.Renamed V x'.2) (pendingHeader c h)
      (pendingHeader c' h') := by
  obtain ⟨V₁, imageSize, x, imageSize', x', hle₁, heq₁, heq₁', himage, hc₁⟩ :=
    (hc.fresh "image_size" "image_size").pair
  obtain ⟨V₂, headersSize, y, headersSize', y', hle₂, heq₂, heq₂', hheaders, hc₂⟩ :=
    (hc₁.fresh "headers_size" "headers_size").pair
  simp only [pendingHeader, heq₁, heq₁', heq₂, heq₂', hchecksum]
  refine Grown.mono ?_ (le_trans hle₁ hle₂)
  split
  · exact ⟨V₂, le_refl V₂, ⟨himage.mono hle₂, hheaders, .none⟩, hc₂⟩
  · obtain ⟨V₃, hle₃, hchecksum, hc₃⟩ := hc₂.fresh "checksum" "checksum"
    exact ⟨V₃, hle₃, ⟨himage.mono (le_trans hle₂ hle₃), hheaders.mono hle₃, .some hchecksum⟩, hc₃⟩

theorem entryRva_renamed (hc : c.Renamed W c') {entry entry' : Option Expr}
    (h : Option.Rel (Expr.Renamed W) entry entry') :
    (entryRva c entry).Renamed W (entryRva c' entry') := by
  cases h with
  | none => exact Expr.renamed_const W 0
  | some he =>
    rw [entryRva, entryRva, he.constant]
    split
    · exact he
    · exact Context.rva_renamed hc.start he

theorem renamed_numberOr (W : Renaming) (n : Option Nat) : (numberOr n).Renamed W (numberOr n) :=
  Expr.renamed_ofSize W _

section Fields

variable {h h' : OptionalHeader} {p p' : PendingHeader}

theorem codeFields_renamed (hc : c.Renamed W c') (hh : h.Renamed W h') :
    Record.Renamed W (codeFields c h) (codeFields c' h') := by
  have hself := renamed_numberOr W
  rw [codeFields, codeFields, hc.encoder]
  refine List.rel_append ?_ ?_
  · rw [hh.fields]
    exact .cons ⟨rfl, hself _⟩ <| .cons ⟨rfl, hself _⟩ <| .cons ⟨rfl, hself _⟩ <|
      .cons ⟨rfl, hself _⟩ <| .cons ⟨rfl, hself _⟩ <| .cons ⟨rfl, hself _⟩ <|
      .cons ⟨rfl, entryRva_renamed hc hh.entryPoint⟩ <|
      .cons ⟨rfl, rel_getD hh.baseOfCode (Expr.renamed_const W 0)⟩ .nil
  · split
    · exact .nil
    · exact .cons ⟨rfl, rel_getD hh.baseOfData (Expr.renamed_const W 0)⟩ .nil

theorem imageBaseExpr_renamed (hc : c.Renamed W c') (hh : h.Renamed W h') :
    (imageBaseExpr c h).Renamed W (imageBaseExpr c' h') := by
  have hbase : h'.imageBase = h.imageBase := by rw [hh.fields]
  rw [imageBaseExpr, imageBaseExpr, hbase]
  split
  · exact Expr.renamed_ofSize W _
  · exact Expr.renamed_label hc.start

theorem layoutFields_renamed (hh : h.Renamed W h') (hp : p.Renamed W p') :
    Record.Renamed W (layoutFields h p) (layoutFields h' p') := by
  have hself := renamed_numberOr W
  rw [layoutFields, layoutFields, hh.fields]
  exact .cons ⟨rfl, hself _⟩ <| .cons ⟨rfl, hself _⟩ <| .cons ⟨rfl, hself _⟩ <|
    .cons ⟨rfl, hself _⟩ <| .cons ⟨rfl, hself _⟩ <| .cons ⟨rfl, hself _⟩ <|
    .cons ⟨rfl, hself _⟩ <| .cons ⟨rfl, hself _⟩ <| .cons ⟨rfl, hself _⟩ <|
    .cons ⟨rfl, Expr.renamed_label hp.imageSize⟩ <|
    .cons ⟨rfl, Expr.renamed_label hp.headersSize⟩ .nil

theorem checksumExpr_renamed (hh : h.Renamed W h') (hp : p.Renamed W p') :
    (checksumExpr h p).Renamed W (checksumExpr h' p') := by
  have hlabel := hp.checksum
  rw [checksumExpr, checksumExpr, hh.fields]
  generalize p.checksum = label at hlabel
  generalize p'.checksum = label' at hlabel
  cases hlabel with
  | some hl => exact Expr.renamed_label hl
  | none => exact renamed_numberOr W _

/-- The fields of the optional header are the same up to names. -/
theorem optionalFields_renamed (hc : c.Renamed W c') (hh : h.Renamed W h')
    (hp : p.Renamed W p') :
    Record.Renamed W (optionalFields c h p) (optionalFields c' h' p') := by
  rw [optionalFields, optionalFields]
  refine List.rel_append (List.rel_append (codeFields_renamed hc hh) ?_) ?_
  · exact .cons ⟨by rw [hc.encoder], imageBaseExpr_renamed hc hh⟩ (layoutFields_renamed hh hp)
  · refine .cons ⟨rfl, checksumExpr_renamed hh hp⟩ ?_
    rw [hh.fields, runtimeFields, runtimeFields, hc.encoder]
    exact Record.renamed_self rfl

end Fields

theorem directoryFields_renamed {image image' : Image} (h : image.Renamed W image')
    (count : Nat) :
    Record.Renamed W (directoryFields image count) (directoryFields image' count) := by
  rw [directoryFields, directoryFields]
  generalize DirectorySlot.all.take count = slots
  induction slots with
  | nil => exact .nil
  | cons slot rest ih =>
    have hrel := directory?_renamed h slot
    rw [List.flatMap_cons, List.flatMap_cons]
    generalize image.directory? slot = d at hrel
    generalize image'.directory? slot = d' at hrel
    refine List.rel_append ?_ ih
    cases hrel with
    | some hd => exact .cons ⟨rfl, hd.1⟩ (.cons ⟨rfl, hd.2⟩ .nil)
    | none => exact Record.renamed_self rfl

/-- An optional header with the image it belongs to. -/
structure OptionalHeaderResult.Renamed (W : Renaming) (r r' : OptionalHeaderResult) : Prop where
  header : r.header.Renamed W r'.header
  image : r.image.Renamed W r'.image
  pending : r.pending.Renamed W r'.pending
  context : r.context.Renamed W r'.context

/-- **The optional header is the same in both runs up to names, or fails in both.** -/
theorem encodeOptionalHeader_renamed (hc : c.Renamed W c') {image image' : Image}
    (h : image.Renamed W image') :
    Runs (Grown W OptionalHeaderResult.Renamed) (encodeOptionalHeader c image)
      (encodeOptionalHeader c' image') := by
  rw [encodeOptionalHeader, encodeOptionalHeader]
  refine (fillDefaults_renamed hc h.optionalHeader h.sections).bindGrown
    fun V d d' hle hd => ?_
  have hchecksum : d'.header.checksum = d.header.checksum := by rw [hd.header.fields]
  have hcount : d'.header.directoryCount = d.header.directoryCount := by rw [hd.header.fields]
  obtain ⟨U, pending, x, pending', x', hle', heq, heq', hpending, hx⟩ :=
    (pendingHeader_renamed hd.context hchecksum).pair
  have hencoder : x'.encoder = x.encoder := hx.encoder
  have himage := h.mono (le_trans hle hle')
  have hheader := hd.header.mono hle'
  simp only [heq, heq', hcount, hencoder]
  refine Runs.grown ?_ hle'
  refine (Runs.self _).bind fun _ _ _ => ?_
  refine (FieldEncoder.record_renamed _ (List.rel_append
    (optionalFields_renamed hx hheader hpending) (directoryFields_renamed himage _))).bind
    fun b b' hb => ?_
  exact ⟨U, le_refl U, hb, { himage with
    optionalHeader := hheader, sections := SectionsRenamed.mono hd.sections hle' }, hpending, hx⟩

/-! ## All headers -/

theorem encodeStub_renamed (W : Renaming) (f : FieldEncoder) (target : Target) :
    Runs (Buffer.Renamed W) (encodeStub f target) (encodeStub f target) := by
  rw [encodeStub]
  split
  · exact Buffer.renamed_empty W
  · refine (f.encode_renamed .u32 (Expr.renamed_ofSize W _)).bind fun b b' hb => ?_
    exact ((Buffer.renamed_ofBytes W _).append hb).extend _

theorem encodeFileHeader_renamed (W : Renaming) (f : FieldEncoder) (h : FileHeader)
    (sections optionalSize : Nat) (now : UInt32) :
    Runs (fun x x' => x.1.Renamed W x'.1) (encodeFileHeader f h sections optionalSize now)
      (encodeFileHeader f h sections optionalSize now) := by
  rw [encodeFileHeader]
  refine (Runs.self _).bind fun sectionCount _ heq => ?_
  subst heq
  refine (Runs.self _).bind fun size _ heq => ?_
  subst heq
  refine (f.record_renamed (Record.renamed_self (W := W) rfl)).bind fun b b' hb => ?_
  exact hb

/-- The images with their headers differ in the names of labels only. -/
structure HeadedImage.Renamed (W : Renaming) (h h' : HeadedImage) : Prop where
  optionalHeader : h.image.optionalHeader.Renamed W h'.image.optionalHeader
  sections : SectionsRenamed W h.image.sections h'.image.sections
  context : h.context.Renamed W h'.context
  headers : h.headers.Renamed W h'.headers
  labels : List.Forall₂ (Section.LabelsRenamed W) h.image.sections h'.image.sections
  pending : h.pending.Renamed W h'.pending

/-- **The headers are put together in both runs, or fail in both.** -/
theorem Assembly.Renamed.withHeaders {a a' : Assembly} (h : a.Renamed W a') (target : Target) :
    Runs (Grown W HeadedImage.Renamed) (a.withHeaders target) (a'.withHeaders target) := by
  have himage := h.image.withTargetDefaults target
  rw [Assembly.withHeaders, Assembly.withHeaders]
  refine (encodeSectionTable_renamed h.context himage.sections).bindGrown
    fun V t t' hle ht => ?_
  have hsections : Image.Renamed V
      { a.image.withTargetDefaults target with sections := t.sections }
      { a'.image.withTargetDefaults target with sections := t'.sections } :=
    { himage.mono hle with sections := ht.sections }
  refine (encodeOptionalHeader_renamed ht.context hsections).known.bindGrown
    fun U r r' hle' hruns => ?_
  obtain ⟨hr, hrun, hrun'⟩ := hruns
  simp only [hr.context.encoder, himage.header, ← hr.image.sections.length_eq, hr.header.virtSize,
    h.now]
  refine (encodeStub_renamed U _ target).bind fun stub stub' hstub => ?_
  refine (encodeFileHeader_renamed U _ _ _ _ _).bind fun x x' hx => ?_
  have hstart := (Buffer.renamed_empty U).addExport hr.context.start 0
  refine ⟨U, le_refl U, hr.image.optionalHeader, hr.image.sections, hr.context, ?_,
    labelsRenamed_labelled (ht.labels.imp fun _ _ hl => hl.mono hle')
      (lays_encodeOptionalHeader hrun).sections (lays_encodeOptionalHeader hrun').sections,
    hr.pending⟩
  exact (((hstart.append hstub).append hx).append hr.header).append (ht.rows.mono hle')

end PortableImage
