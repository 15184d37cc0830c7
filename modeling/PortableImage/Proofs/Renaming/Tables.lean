import PortableImage.Directory.Tables
import PortableImage.Proofs.Renaming.Buffer
import PortableImage.Proofs.Renaming.Lists

/-!
# Records and tables under different names

* `FieldEncoder.record_renamed` — fields with the same values up to names give alike buffers, or
  fail in both runs.
* `Tables.Renamed` — tables that are alike up to names; places in them are the same values.
-/

set_option autoImplicit false

namespace PortableImage

variable {W V : Renaming}

/-! ## Records -/

/-- The fields have the same types and values, up to names. -/
abbrev Record.Renamed (W : Renaming) (r r' : Record) : Prop :=
  List.Forall₂ (fun x x' => x'.1 = x.1 ∧ x.2.Renamed W x'.2) r r'

/-- Fields that do not depend on labels. -/
theorem Record.renamed_self {r : Record} (h : r.flatMap (·.2.labelLeaves) = []) :
    r.Renamed W r :=
  List.forall₂_same.2 fun x hx => ⟨rfl, Expr.renamed_self (List.flatMap_eq_nil_iff.1 h x hx)⟩

namespace FieldEncoder

theorem encode_renamed (f : FieldEncoder) (type : FieldType) {e e' : Expr} (h : e.Renamed W e') :
    Runs (Buffer.Renamed W) (f.encode type e) (f.encode type e') := by
  have hconstant : e.reduce.constant? = e'.reduce.constant? := by
    rw [Expr.constant?_reduce, Expr.constant?_reduce, h.sum.constant?_eq]
  rw [encode, encode, ← hconstant]
  split
  · refine (Runs.self _).bind fun bytes _ heq => ?_
    cases heq
    exact Buffer.renamed_ofBytes W bytes
  · exact Buffer.renamed_placeholder h.reduce type f.order

theorem address_renamed (f : FieldEncoder) {e e' : Expr} (h : e.Renamed W e') :
    Runs (Buffer.Renamed W) (f.address e) (f.address e') :=
  f.encode_renamed f.addressType h

/-- **Fields with the same values up to names give alike buffers, or fail in both runs.** -/
theorem record_renamed (f : FieldEncoder) {r r' : Record} (h : r.Renamed W r') :
    Runs (Buffer.Renamed W) (f.record r) (f.record r') := by
  induction h with
  | nil => exact Buffer.renamed_empty W
  | @cons x x' rest rest' hx _ ih =>
    obtain ⟨type, e⟩ := x
    obtain ⟨type', e'⟩ := x'
    obtain ⟨rfl, he⟩ := hx
    rw [record, record]
    exact (f.encode_renamed _ he).bind fun a a' ha => ih.bind fun b b' hb => ha.append hb

end FieldEncoder

theorem Context.rva_renamed {c c' : Context} (h : W.Maps c.start c'.start) {e e' : Expr}
    (he : e.Renamed W e') : (c.rva e).Renamed W (c'.rva e') :=
  he.sub (Expr.renamed_label h)

/-! ## Tables -/

/-- The tables have the same names and are alike up to the names of labels. -/
structure Tables.Renamed (W : Renaming) (t t' : Tables) : Prop where
  context : t.context.Renamed W t'.context
  entries : List.Forall₂ (fun e e' => e'.1 = e.1 ∧ e.2.Renamed W e'.2) t.entries t'.entries

namespace Tables

variable {t t' : Tables}

theorem renamed_new {c c' : Context} (h : c.Renamed W c') (names : List String) :
    (Tables.new c names).Renamed W (Tables.new c' names) where
  context := h
  entries := by
    refine List.forall₂_map_left_iff.2 (List.forall₂_map_right_iff.2 ?_)
    exact List.forall₂_same.2 fun _ _ => ⟨rfl, Buffer.renamed_empty W⟩

theorem Renamed.encoder (h : t.Renamed W t') : t'.context.encoder = t.context.encoder :=
  h.context.encoder

theorem Renamed.withContext (h : t.Renamed W t') {c c' : Context} (hle : W ≤ V)
    (hc : c.Renamed V c') : Tables.Renamed V { t with context := c } { t' with context := c' } :=
  ⟨hc, h.entries.imp fun _ _ he => ⟨he.1, he.2.mono hle⟩⟩

theorem Renamed.table (h : t.Renamed W t') (name : String) :
    (t.table name).Renamed W (t'.table name) := by
  rw [Tables.table, Tables.table]
  have hentries := h.entries
  generalize t.entries = l at hentries
  generalize t'.entries = l' at hentries
  induction hentries with
  | nil => exact Buffer.renamed_empty W
  | @cons e e' rest rest' he _ ih =>
    obtain ⟨key, b⟩ := e
    obtain ⟨key', b'⟩ := e'
    obtain ⟨rfl, hb⟩ := he
    rw [List.lookup_cons, List.lookup_cons]
    cases name == key' with
    | true => exact hb
    | false => exact ih

theorem Renamed.modify (h : t.Renamed W t') (name : String) {change change' : Buffer → Buffer}
    (hchange : ∀ b b', b.Renamed W b' → (change b).Renamed W (change' b')) :
    (t.modify name change).Renamed W (t'.modify name change') where
  context := h.context
  entries := by
    refine (rel_updateFirst (S := fun _ _ => True) ?_ ?_ ?_ h.entries).1
    · intro e e' he
      rw [he.1]
    · exact ⟨rfl, Buffer.renamed_empty W⟩
    · exact fun e e' he => ⟨⟨he.1, hchange _ _ he.2⟩, trivial⟩

theorem Renamed.append (h : t.Renamed W t') (name : String) {b b' : Buffer}
    (hb : b.Renamed W b') : (t.append name b).Renamed W (t'.append name b') :=
  h.modify name fun _ _ ha => ha.append hb

theorem Renamed.extend (h : t.Renamed W t') (name : String) (bytes : List UInt8) :
    (t.extend name bytes).Renamed W (t'.extend name bytes) :=
  h.modify name fun _ _ ha => ha.extend bytes

theorem Renamed.text (h : t.Renamed W t') (name : String) (s : List UInt8) :
    (t.text name s).Renamed W (t'.text name s) := (h.extend name s).extend name [0]

/-- Two results of a step that changes tables. -/
abbrev Results {α : Type} (R : Renaming → α → α → Prop) (W : Renaming) (x x' : α × Tables) :
    Prop := R W x.1 x'.1 ∧ x.2.Renamed W x'.2

/-- The labels of the starts of two tables stand for each other. -/
theorem Renamed.label (h : t.Renamed W t') (name : String) :
    Grown W (Results Renaming.Maps) (t.label name) (t'.label name) := by
  obtain ⟨V, hle, hl, hc, hb⟩ := h.context.labelAt (h.table name) 0 name name
  exact ⟨V, hle, hl, (h.withContext hle hc).modify name fun _ _ _ => hb⟩

/-- The places of the next bytes are the same values. -/
theorem Renamed.rvaEnd (h : t.Renamed W t') (name : String) :
    Grown W (Results Expr.Renamed) (t.rvaEnd name) (t'.rvaEnd name) := by
  obtain ⟨V, hle, hl, ht⟩ := h.label name
  refine ⟨V, hle, (Context.rva_renamed ht.context.start (Expr.renamed_label hl)).add ?_, ht⟩
  show (Expr.ofSize ((t.label name).2.table name).virtSize).Renamed V
    (Expr.ofSize ((t'.label name).2.table name).virtSize)
  rw [(ht.table name).virtSize]
  exact Expr.renamed_ofSize V _

theorem Renamed.offsetEnd (h : t.Renamed W t') (name base : String) :
    Grown W (Results Expr.Renamed) (t.offsetEnd name base) (t'.offsetEnd name base) := by
  obtain ⟨V, hle, hl, ht⟩ := h.label name
  obtain ⟨U, hle', hl', ht'⟩ := ht.label base
  have hdistance := (Expr.renamed_label (hl.mono hle')).sub (Expr.renamed_label hl')
  refine ⟨U, le_trans hle hle', hdistance.add ?_, ht'⟩
  show (Expr.ofSize (((t.label name).2.label base).2.table name).virtSize).Renamed U
    (Expr.ofSize (((t'.label name).2.label base).2.table name).virtSize)
  rw [(ht'.table name).virtSize]
  exact Expr.renamed_ofSize U _

theorem Renamed.concat (h : t.Renamed W t') : t.concat.Renamed W t'.concat :=
  List.rel_foldl (fun _ _ ha _ _ he => ha.append he.2) (Buffer.renamed_empty W) h.entries

end Tables

end PortableImage
