import PortableImage.Encode.Image
import PortableImage.Proofs.Renaming.Headers

/-!
# Placing sections under different names

No label is invented any more once the headers are there: every label gets its value, which is the
same for labels that stand for each other, and all pending fields are written.

* `Placement.Renamed`, `place_renamed` — the sections are placed alike, or placing them fails in both
  runs.
* `finish_renamed` — the files have the same bytes, or writing the last fields fails in both runs.
-/

set_option autoImplicit false

namespace PortableImage

variable {W : Renaming}

/-! ## Placing sections -/

/-- The sections are at the same places, and the output is the same up to names. -/
structure Placement.Renamed (W : Renaming) (p p' : Placement) : Prop where
  output : p.output.Renamed W p'.output
  binding : p.binding.Renamed W p'.binding
  cursor : p'.cursor = p.cursor
  placed : p'.placed = p.placed

theorem Binding.Renamed.bindOption {b b' : Binding} (hb : b.Renamed W b') {l l' : Option String}
    (hl : W.MapsOption l l') (value : Nat) :
    Runs (Binding.Renamed W) (b.bindOption l value) (b'.bindOption l' value) := by
  cases hl with
  | none => exact hb
  | some hl => exact hb.bind hl (Expr.renamed_ofSize W value)

/-- **A section is placed alike in both runs, or placing it fails in both.** -/
theorem placeSection_renamed (n : LayoutNumbers) {s s' : Section} (hs : s.Renamed W s')
    (hl : s.LabelsRenamed W s') {p p' : Placement} (hp : p.Renamed W p') :
    Runs (Placement.Renamed W) (placeSection n s p).result (placeSection n s' p').result := by
  have hname : s'.name = s.name := by rw [hs.fields]
  have hsize : s'.virtSize = s.virtSize := by rw [hs.fields]
  simp only [placeSection, Logged.result_bind, Logged.result_liftM, Logged.result_note, hname,
    hsize, hs.address, hs.content.rawSize, hp.output.virtSize, hp.cursor, hp.placed]
  refine (hp.binding.bindOption hl.rawAddress _).bind fun b b' hb => ?_
  refine (Runs.self _).bind fun address _ heq => ?_
  subst heq
  refine (hs.content.binding (Expr.renamed_ofSize W _)).bind fun x x' hx => ?_
  refine (hb.merge hx).bind fun b b' hb => ?_
  have houtput := (hp.output.append (hs.content.slice 0 s.content.rawSize)).align n.fileAlignment
  rw [houtput.virtSize]
  refine (hb.bindOption hl.rawSize _).bind fun b b' hb => ?_
  exact ⟨houtput, hb, rfl, rfl⟩

theorem placeSections_renamed (n : LayoutNumbers) {sections sections' : List Section}
    (h : SectionsRenamed W sections sections')
    (hl : List.Forall₂ (Section.LabelsRenamed W) sections sections')
    {p p' : Placement} (hp : p.Renamed W p') :
    Runs (Placement.Renamed W) (placeSections n sections p).result
      (placeSections n sections' p').result := by
  induction h generalizing p p' with
  | nil => exact hp
  | cons hs _ ih =>
    obtain _ | ⟨hlabels, hl⟩ := hl
    simp only [placeSections, Logged.result_bind]
    exact (placeSection_renamed n hs hlabels hp).bind fun q q' hq => ih hl hq

/-! ## Address tables with a fixed address -/

theorem writeTable_renamed (base : Nat) {p p' : Placement} (hp : p.Renamed W p') (rva : Nat)
    {table table' : Buffer} (ht : table.Renamed W table') :
    Runs (Placement.Renamed W) (writeTable base p rva table) (writeTable base p' rva table') := by
  rw [writeTable, writeTable, hp.placed]
  split
  · trivial
  · dsimp only
    rw [ht.virtSize]
    split
    · trivial
    · refine (ht.binding (Expr.renamed_ofSize W _)).bind fun x x' hx => ?_
      refine (hp.binding.merge hx).bind fun b b' hb => ?_
      exact ⟨hp.output.patch _ ht, hb, hp.cursor, rfl⟩

theorem writeTables_renamed (base : Nat) {tables tables' : List (Nat × Buffer)}
    (h : TablesInPlaceRenamed W tables tables') {p p' : Placement} (hp : p.Renamed W p') :
    Runs (Placement.Renamed W) (writeTables base tables p) (writeTables base tables' p') := by
  induction h generalizing p p' with
  | nil => exact hp
  | @cons e e' rest rest' he _ ih =>
    obtain ⟨rva, table⟩ := e
    obtain ⟨rva', table'⟩ := e'
    obtain ⟨rfl, ht⟩ := he
    rw [writeTables, writeTables]
    exact (writeTable_renamed base hp _ ht).bind fun q q' hq => ih hq

/-! ## Placing everything -/

theorem OptionalHeader.Renamed.layoutNumbers {h h' : OptionalHeader} (hh : h.Renamed W h') :
    LayoutNumbers.ofHeader h' = LayoutNumbers.ofHeader h := by
  rw [hh.fields]
  rfl

/-- **The sections are placed alike in both runs, or placing them fails in both.** -/
theorem place_renamed {h h' : HeadedImage} (hh : h.Renamed W h')
    {tables tables' : List (Nat × Buffer)} (ht : TablesInPlaceRenamed W tables tables') :
    Runs (Placement.Renamed W) (place h tables).result (place h' tables').result := by
  simp only [place, Logged.result_bind, Logged.result_liftM, hh.optionalHeader.layoutNumbers]
  have houtput := hh.headers.align (LayoutNumbers.ofHeader h.image.optionalHeader).fileAlignment
  rw [houtput.virtSize]
  refine (houtput.binding (Expr.renamed_ofSize W _)).bind fun b b' hb => ?_
  refine (hb.bind hh.pending.headersSize (Expr.renamed_ofSize W _)).bind fun b b' hb => ?_
  have hfirst (cursor : AddressCursor) :
      Placement.Renamed W ⟨_, b, cursor, []⟩ ⟨_, b', cursor, []⟩ := ⟨houtput, hb, rfl, rfl⟩
  refine (placeSections_renamed _ hh.sections hh.labels (hfirst _)).bind fun p p' hp => ?_
  rw [hp.cursor]
  refine (hp.binding.bind hh.pending.imageSize (Expr.renamed_ofSize W _)).bind fun b b' hb => ?_
  have hbound : Placement.Renamed W { p with binding := b } { p' with binding := b' } :=
    { hp with binding := hb }
  refine writeTables_renamed _ (rel_sortBy (fun x x' y y' hx hy => ?_) ht) (hp.cursor ▸ hbound)
  rw [hx.1, hy.1]

/-! ## Writing the last fields -/

theorem fixupSections_renamed {b b' : Binding} (hb : b.Renamed W b') {sections sections' :
    List Section} (h : SectionsRenamed W sections sections') :
    Runs (SectionsRenamed W) (fixupSections b sections) (fixupSections b' sections') := by
  induction h with
  | nil => exact .nil
  | cons hs _ ih =>
    rw [fixupSections, fixupSections]
    refine (hs.content.fixup hb).bind fun x x' hx => ih.bind fun l l' hl => ?_
    refine .cons ⟨hx, hs.leftover, ?_⟩ hl
    rw [hs.fields]

/-- The checksum is all that is missing in both runs, or in neither. -/
theorem onlyChecksumPending_renamed {l l' : String} (hl : W.Maps l l') {b b' : Buffer}
    (h : b.Renamed W b') : onlyChecksumPending l' b' = onlyChecksumPending l b := by
  have hfields := h.fields
  rw [OffsetMap.Rel] at hfields
  rw [onlyChecksumPending, onlyChecksumPending]
  generalize b.fields.entries = entries at hfields
  generalize b'.fields.entries = entries' at hfields
  cases hfields with
  | nil => rfl
  | cons he hrest =>
    cases hrest with
    | nil => exact (he.2.target.beq_label hl).symm
    | cons _ _ => rfl

theorem writeChecksum_renamed (order : ByteOrder) {l l' : Option String} (hl : W.MapsOption l l')
    {b b' : Buffer} (h : b.Renamed W b') :
    Runs (fun x x' => x.1.Renamed W x'.1 ∧ x'.2 = x.2) (writeChecksum order l b)
      (writeChecksum order l' b') := by
  cases hl with
  | none => exact ⟨h, rfl⟩
  | some hl =>
    rw [writeChecksum, writeChecksum, onlyChecksumPending_renamed hl h, h.data]
    split
    · refine (Runs.self _).bind fun value _ heq => ?_
      subst heq
      refine ((Binding.renamed_empty W).bind hl (Expr.renamed_ofSize W _)).bind fun c c' hc => ?_
      exact (h.fixup hc).bind fun x x' hx => ⟨hx, rfl⟩
    · exact ⟨h, rfl⟩

/-- The files have the same bytes and the same checksum. -/
structure EncodedImage.Same (e e' : EncodedImage) : Prop where
  contents : e'.output.contents = e.output.contents
  bytes : e'.bytes = e.bytes
  checksum : e'.checksum = e.checksum

/-- **The files have the same bytes, or writing the last fields fails in both runs.** -/
theorem finish_renamed {h h' : HeadedImage} (hh : h.Renamed W h') {p p' : Placement}
    (hp : p.Renamed W p') : Runs EncodedImage.Same (finish h p) (finish h' p') := by
  rw [finish, finish, hh.context.encoder]
  refine (hp.output.fill.fixup hp.binding).bind fun output output' houtput => ?_
  refine (fixupSections_renamed hp.binding hh.sections).bind fun sections sections' _ => ?_
  refine (writeChecksum_renamed _ hh.pending.checksum houtput).bind fun x x' hx => ?_
  dsimp only
  rw [← hx.1.fields.isEmpty_eq]
  split
  · exact ⟨hx.1.contents, hx.1.data, hx.2⟩
  · trivial

end PortableImage
