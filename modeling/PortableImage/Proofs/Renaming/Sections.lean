import PortableImage.Directory.BaseReloc
import PortableImage.Directory.Tls
import PortableImage.Proofs.Outcome
import PortableImage.Proofs.Renaming.Imports
import PortableImage.Thunk

/-!
# Sections under different names

* `encodeTls_renamed` — the TLS directory is the same up to names.
* `StubEncoder.encode_renamed` — so are call stubs that hold the addresses of slots.  Others need a
  label of a fixed name.
* `Section.Renamed` — sections that differ in the names of labels only.
* `relocationTables_renamed` — the same fields get base relocations.
-/

set_option autoImplicit false

namespace PortableImage

variable {W V : Renaming} {c c' : Context}

/-! ## The TLS directory -/

/-- The directories have the same fields, up to the names of labels. -/
structure TlsDirectory.Renamed (W : Renaming) (tls tls' : TlsDirectory) : Prop where
  start : Option.Rel (Expr.Renamed W) tls.start tls'.start
  stop : Option.Rel (Expr.Renamed W) tls.stop tls'.stop
  index : Option.Rel (Expr.Renamed W) tls.index tls'.index
  callbacks : List.Forall₂ (Expr.Renamed W) tls.callbacks tls'.callbacks
  zeroFill : tls'.zeroFill = tls.zeroFill
  characteristics : tls'.characteristics = tls.characteristics

theorem rel_getD {value value' : Option Expr} (h : Option.Rel (Expr.Renamed W) value value')
    {e e' : Expr} (he : e.Renamed W e') : (value.getD e).Renamed W (value'.getD e') := by
  cases h with
  | some h => exact h
  | none => exact he

theorem rel_mono {value value' : Option Expr} (h : Option.Rel (Expr.Renamed W) value value')
    (hle : W ≤ V) : Option.Rel (Expr.Renamed V) value value' := by
  cases h with
  | some h => exact .some (h.mono hle)
  | none => exact .none

theorem TlsDirectory.Renamed.mono {tls tls' : TlsDirectory} (h : tls.Renamed W tls')
    (hle : W ≤ V) : tls.Renamed V tls' where
  start := rel_mono h.start hle
  stop := rel_mono h.stop hle
  index := rel_mono h.index hle
  callbacks := h.callbacks.imp fun _ _ he => he.mono hle
  zeroFill := h.zeroFill
  characteristics := h.characteristics

/-- The record, the list of callbacks, and the context after them. -/
structure TlsRenamed (W : Renaming) (x x' : Buffer × Buffer × Context) : Prop where
  record : x.1.Renamed W x'.1
  callbacks : x.2.1.Renamed W x'.2.1
  context : x.2.2.Renamed W x'.2.2

theorem encodeTls_renamed {tls tls' : TlsDirectory} (h : tls.Renamed W tls')
    (hc : c.Renamed W c') :
    Runs (Grown W TlsRenamed) (encodeTls c tls) (encodeTls c' tls') := by
  rw [encodeTls, encodeTls, hc.encoder, h.zeroFill, h.characteristics]
  obtain ⟨V, label, x, label', x', hle, heq, heq', hlabel, hcontext, hstart⟩ :=
    (hc.labelAt (Buffer.renamed_empty W) 0 "callback_p" "callback_p").pair
  have h := h.mono hle
  simp only [heq, heq']
  refine Runs.grown ?_ hle
  have hlist : Record.Renamed V
      ((tls.callbacks.map fun e => (c.encoder.addressType, e)) ++
        [(c.encoder.addressType, .const 0)])
      ((tls'.callbacks.map fun e => (c.encoder.addressType, e)) ++
        [(c.encoder.addressType, .const 0)]) :=
    List.rel_append (List.rel_map (fun _ _ he => ⟨rfl, he⟩) h.callbacks)
      (.cons ⟨rfl, Expr.renamed_const V 0⟩ .nil)
  have hfirst := rel_getD h.start (Expr.renamed_const V 0)
  refine (FieldEncoder.record_renamed _ hlist).bind fun list list' hlist => ?_
  refine (FieldEncoder.record_renamed (W := V) _ ?_).bind fun record record' hrecord => ?_
  · exact .cons ⟨rfl, hfirst⟩ <| .cons ⟨rfl, rel_getD h.stop hfirst⟩ <|
      .cons ⟨rfl, rel_getD h.index (Expr.renamed_const V 0)⟩ <|
      .cons ⟨rfl, Expr.renamed_label hlabel⟩ <| .cons ⟨rfl, Expr.renamed_ofSize V _⟩ <|
      .cons ⟨rfl, Expr.renamed_ofSize V _⟩ .nil
  · exact ⟨V, le_refl V, hrecord, hstart.append hlist, hcontext⟩

/-! ## Call stubs -/

/-- Call stubs that hold the addresses of slots are alike up to names, or missing in both runs. -/
theorem StubEncoder.encode_renamed {e : StubEncoder} (he : e.pic = false) {p p' : LabelPool}
    (hp : p.Renamed W p') {plt plt' : Buffer} (hplt : plt.Renamed W plt') {i i' : Import}
    (hi : i.Renamed W i') (sections sections' : List Section) :
    Runs (fun x x' => x.1.Renamed W x'.1 ∧ x.2.Renamed W x'.2) (e.encode p plt i sections)
      (e.encode p' plt' i' sections') := by
  have hthunk := hi.thunk
  have htarget := hi.target
  rw [encode, encode, he]
  generalize i.thunk = thunk at hthunk
  generalize i'.thunk = thunk' at hthunk
  generalize i.target = target at htarget
  generalize i'.target = target' at htarget
  cases hthunk with
  | none => exact ⟨hp, hplt⟩
  | some hthunk =>
    cases htarget with
    | none => trivial
    | some htarget =>
      refine ⟨hp, ?_⟩
      show (absoluteStub plt _ _).Renamed W (absoluteStub plt' _ _)
      rw [absoluteStub, absoluteStub, hplt.virtSize]
      exact ((hplt.addExport hthunk _).extend _).append
        (Buffer.renamed_placeholder (Expr.renamed_label htarget) _ _)

/-! ## Sections -/

/-- The sections differ in the names of labels only.  Neither has a label for a size in the file that
is fixed; the other labels of an earlier encoding make no difference, for they are replaced. -/
structure Section.Renamed (W : Renaming) (s s' : Section) : Prop where
  content : s.content.Renamed W s'.content
  leftover : s.rawSize.isSome → s.rawSizeLabel = none ∧ s'.rawSizeLabel = none
  fields : s' = { s with
    content := s'.content
    rawAddressLabel := s'.rawAddressLabel
    rawSizeLabel := s'.rawSizeLabel }

/-- The sections of two images. -/
abbrev SectionsRenamed (W : Renaming) (sections sections' : List Section) : Prop :=
  List.Forall₂ (Section.Renamed W) sections sections'

theorem Section.Renamed.mono {s s' : Section} (h : s.Renamed W s') (hle : W ≤ V) :
    s.Renamed V s' := ⟨h.content.mono hle, h.leftover, h.fields⟩

theorem SectionsRenamed.mono {sections sections' : List Section}
    (h : SectionsRenamed W sections sections') (hle : W ≤ V) :
    SectionsRenamed V sections sections' :=
  List.Forall₂.imp (fun _ _ hs => hs.mono hle) h

/-! ## Base relocations -/

theorem provisionalBinding_renamed {sections sections' : List Section}
    (h : SectionsRenamed W sections sections') {e e' : Expr} (he : e.Renamed W e')
    {b b' : Binding} (hb : b.Renamed W b') :
    Runs (Binding.Renamed W) (provisionalBinding e b sections)
      (provisionalBinding e' b' sections') := by
  induction h generalizing e e' b b' with
  | nil => exact hb
  | cons hs _ ih =>
    rw [provisionalBinding, provisionalBinding, hs.content.virtSize]
    refine (hs.content.binding he).bind fun x x' hx => ?_
    refine (hb.merge hx).bind fun y y' hy => ?_
    exact ih (he.add (Expr.renamed_ofSize W _)).reduce hy

variable {b b' : Binding}

theorem needsRelocation_renamed (hc : c.Renamed W c') (hb : b.Renamed W b') {f f' : PendingField}
    (hf : f.Renamed W f') : needsRelocation c' b' f' = needsRelocation c b f := by
  rw [needsRelocation, needsRelocation, hf.order, hf.type, hc.encoder,
    isImageAddress_renamed (Expr.renamed_label hc.start) hb hf.target]

/-- **The same fields get base relocations.** -/
theorem relocatedOffsets_renamed (hc : c.Renamed W c') (hb : b.Renamed W b') {s s' : Section}
    (hs : s.Renamed W s') : relocatedOffsets c' b' s' = relocatedOffsets c b s := by
  rw [relocatedOffsets, relocatedOffsets]
  have hfields := hs.content.fields
  rw [OffsetMap.Rel] at hfields
  generalize s.content.fields.entries = l at hfields
  generalize s'.content.fields.entries = l' at hfields
  induction hfields with
  | nil => rfl
  | cons he _ ih =>
    rw [List.filter_cons, List.filter_cons, needsRelocation_renamed hc hb he.2]
    split
    · rw [List.map_cons, List.map_cons, ih, he.1]
    · exact ih

/-- The lists are about the same page and have the same entries. -/
structure RelocationTable.Renamed (W : Renaming) (t t' : RelocationTable) : Prop where
  base : t.base.Renamed W t'.base
  relocs : t'.relocs = t.relocs

/-- The sections, their lists, and the context after that. -/
structure Relocated.Renamed (W : Renaming) (r r' : Relocated) : Prop where
  sections : SectionsRenamed W r.sections r'.sections
  tables : List.Forall₂ (RelocationTable.Renamed W) r.tables r'.tables
  context : r.context.Renamed W r'.context

theorem RelocationTable.Renamed.mono {t t' : RelocationTable} (h : t.Renamed W t')
    (hle : W ≤ V) : t.Renamed V t' := ⟨h.base.mono hle, h.relocs⟩

theorem sectionTables_renamed (hc : c.Renamed W c') (hb : b.Renamed W b') {s s' : Section}
    (hs : s.Renamed W s') :
    Grown W (fun V x x' => x.1.1.Renamed V x'.1.1 ∧
      List.Forall₂ (RelocationTable.Renamed V) x.1.2 x'.1.2 ∧ x.2.Renamed V x'.2)
      (sectionTables b s c) (sectionTables b' s' c') := by
  rw [sectionTables, sectionTables, relocatedOffsets_renamed hc hb hs]
  dsimp only
  split
  · exact ⟨W, le_refl W, hs, .nil, hc⟩
  · obtain ⟨V, hle, hl, hcontext, hcontent⟩ := hc.labelAt hs.content 0 "sect_start" "sect_start"
    refine ⟨V, hle, ⟨hcontent, hs.leftover, by rw [hs.fields]⟩, ?_, hcontext⟩
    refine List.forall₂_map_left_iff.2 (List.forall₂_map_right_iff.2 ?_)
    refine List.forall₂_same.2 fun page _ => ⟨?_, ?_⟩
    · exact ((Expr.renamed_label hl).sub (Expr.renamed_label hcontext.start)).add
        (Expr.renamed_ofSize V _)
    · rw [pageTable, pageTable, hcontext.encoder]

theorem collectTables_renamed {sections sections' : List Section}
    (h : SectionsRenamed W sections sections') (hc : c.Renamed W c') (hb : b.Renamed W b') :
    Grown W Relocated.Renamed (collectTables b sections c) (collectTables b' sections' c') := by
  induction sections generalizing W sections' c c' with
  | nil =>
    cases h
    exact ⟨W, le_refl W, .nil, .nil, hc⟩
  | cons s rest ih =>
    obtain _ | ⟨hs, hrest⟩ := h
    obtain ⟨V, hle, hsection, htables, hcontext⟩ := sectionTables_renamed hc hb hs
    obtain ⟨U, hle', hothers⟩ := ih (SectionsRenamed.mono hrest hle) hcontext (hb.mono hle)
    exact ⟨U, le_trans hle hle', .cons (hsection.mono hle') hothers.sections,
      List.rel_append (htables.imp fun _ _ ht => ht.mono hle') hothers.tables, hothers.context⟩

theorem relocationTables_renamed {sections sections' : List Section}
    (h : SectionsRenamed W sections sections') (hc : c.Renamed W c') :
    Runs (Grown W Relocated.Renamed) (relocationTables c sections).result
      (relocationTables c' sections').result := by
  simp only [relocationTables, Logged.result_bind, Logged.result_liftM, Logged.result_note]
  refine (provisionalBinding_renamed h (Expr.renamed_label hc.start)
    (Binding.renamed_empty W)).bind fun b b' hb => ?_
  exact collectTables_renamed h hc hb

theorem encodeRelocationTable_renamed (f : FieldEncoder) {t t' : RelocationTable}
    (h : t.Renamed W t') :
    Runs (Buffer.Renamed W) (encodeRelocationTable f t) (encodeRelocationTable f t') := by
  rw [encodeRelocationTable, encodeRelocationTable, h.relocs]
  refine FieldEncoder.record_renamed f (List.rel_append ?_ ?_)
  · exact .cons ⟨rfl, h.base⟩ (.cons ⟨rfl, Expr.renamed_ofSize W _⟩ .nil)
  · exact List.forall₂_map_left_iff.2 <| List.forall₂_map_right_iff.2 <|
      List.forall₂_same.2 fun _ _ => ⟨rfl, Expr.renamed_ofSize W _⟩

end PortableImage
