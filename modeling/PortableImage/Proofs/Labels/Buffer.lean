import PortableImage.Proofs.Buffer.Written
import PortableImage.Proofs.Labels.Pool
import PortableImage.Thunk

/-!
# Labels of buffers

The labels of a buffer, each as often as it is one; an offset that gets a label gets one that the
pool has noted.

* `LabelPool.Brings` — what a step does to the labels that are used.
* `encoderHints` — what the labels that an encoding makes for itself are named after.
* `Buffer.labels` — the labels of a buffer.
* `Context.pays_labelAt` — an offset without a label gets one that is noted.
-/

set_option autoImplicit false

namespace PortableImage

open LabelPool

/-- What the places that an encoding labels for itself are named after. -/
def encoderHints : List String :=
  ["coff_start", "libname", "addrtable", "namptable", "ord_table", "nametable", "export_table",
    "iat", "ilt", "idata", "iat_end", "names", "table", "dataentries", "data", "rsrc_curoff",
    "resource_table", "callback_p", "tls_table", "sect_start", "reloc_table", "sect_rawsize",
    "sect_rawaddr", "image_size", "headers_size", "checksum", helperLabel]

/-- A place that an encoding labels for itself is named after one of its hints. -/
def IsEncoderHint (hint : String) : Prop := hint ∈ encoderHints

instance (hint : String) : Decidable (IsEncoderHint hint) :=
  inferInstanceAs (Decidable (hint ∈ encoderHints))

/-- The labels that an encoding can make for itself: a hint, or a hint with a number behind it. -/
def IsEncoderLabel (l : String) : Prop :=
  ∃ hint ∈ encoderHints, l = hint ∨ ∃ n, l = LabelPool.numbered hint n

theorem sanitize_encoderHint : ∀ hint ∈ encoderHints, sanitize hint = hint := by decide +kernel

theorem isEncoderLabel_of_namedAfter {hint l : String} (hhint : IsEncoderHint hint)
    (hl : NamedAfter hint l) : IsEncoderLabel l := by
  rw [NamedAfter, sanitize_encoderHint hint hhint] at hl
  exact ⟨hint, hhint, hl⟩

/-- A step turns what has the labels `used` into what has the labels `used'`.  Each of them is used
as often as before, or noted as much more often; those of the kind `X` are noted, but may be used
more often. -/
structure LabelPool.Brings (X : String → Prop) (p : LabelPool) (used : List String)
    (p' : LabelPool) (used' : List String) : Prop where
  notes : Notes IsEncoderHint p p'
  pays : ∀ l, ¬X l → p.Pays p' used used' l
  noted : ∀ l ∈ used', l ∈ used ∨ l ∈ p'.known

namespace LabelPool

variable {X Y : String → Prop} {p q r : LabelPool} {used used' used'' : List String}

/-- What is used more often than before has been noted. -/
theorem Pays.noted {l : String} (h : p.Pays q used used' l) (hl : l ∈ used') :
    l ∈ used ∨ l ∈ q.known := by
  have hpos := List.count_pos_iff.2 hl
  rw [← List.count_pos_iff, ← List.count_pos_iff (l := q.known)]
  unfold Pays at h
  omega

theorem brings_of_pays (hn : Notes IsEncoderHint p q) (h : ∀ l, p.Pays q used used' l) :
    Brings X p used q used' :=
  ⟨hn, fun l _ => h l, fun l hl => (h l).noted hl⟩

theorem Brings.refl (p : LabelPool) (used : List String) : Brings X p used p used :=
  brings_of_pays (.refl p) (.refl p used)

theorem Brings.trans (h : Brings X p used q used') (h' : Brings X q used' r used'') :
    Brings X p used r used'' where
  notes := h.notes.trans h'.notes
  pays l hl := (h.pays l hl).trans (h'.pays l hl)
  noted l hl := by
    rcases h'.noted l hl with hl | hl
    · exact (h.noted l hl).imp_right fun hl => h'.notes.known.subset hl
    · exact .inr hl

theorem Brings.mono (h : Brings X p used q used') (hXY : ∀ l, X l → Y l) :
    Brings Y p used q used' :=
  ⟨h.notes, fun l hl => h.pays l fun hx => hl (hXY l hx), h.noted⟩

/-- More labels before, fewer labels after: the order does not count. -/
theorem Brings.of_le {more fewer : List String} (h : Brings X p used q used')
    (hmore : ∀ l, used.count l ≤ more.count l) (hfewer : ∀ l, fewer.count l ≤ used'.count l) :
    Brings X p more q fewer where
  notes := h.notes
  pays l hl := by
    have hpays := h.pays l hl
    have hle := hmore l
    have hge := hfewer l
    unfold Pays at *
    omega
  noted l hl := by
    have hpos := List.count_pos_iff.2 hl
    have hge := hfewer l
    rcases h.noted l (List.count_pos_iff.1 (by omega)) with hl | hl
    · have hpos := List.count_pos_iff.2 hl
      have hle := hmore l
      exact .inl (List.count_pos_iff.1 (by omega))
    · exact .inr hl

/-- Other labels beside those of the step. -/
theorem Brings.frame (h : Brings X p used q used') (others : List String) :
    Brings X p (used ++ others) q (used' ++ others) where
  notes := h.notes
  pays l hl := by
    have hpays := h.pays l hl
    unfold Pays at *
    rw [List.count_append, List.count_append]
    omega
  noted l hl := by
    rcases List.mem_append.1 hl with hl | hl
    · exact (h.noted l hl).imp_left (List.mem_append_left _)
    · exact .inl (List.mem_append_right _ hl)

end LabelPool

namespace Buffer

/-- The labels of a buffer. -/
def labels (b : Buffer) : List String := b.exports.map (·.1)

@[simp]
theorem labels_empty : empty.labels = [] := rfl

@[simp]
theorem labels_align (b : Buffer) (boundary : Nat) : (b.align boundary).labels = b.labels := rfl

@[simp]
theorem labels_append (a b : Buffer) : (a ++ b).labels = a.labels ++ b.labels := by
  rw [labels, exports_append, List.map_append, List.map_map]
  rfl

@[simp]
theorem labels_extend (b : Buffer) (bytes : List UInt8) : (b.extend bytes).labels = b.labels := rfl

@[simp]
theorem labels_addExport (b : Buffer) (name : String) (offset : Nat) :
    (b.addExport name offset).labels = b.labels ++ [name] := by
  rw [labels, exports_addExport, List.map_append]
  rfl

@[simp]
theorem labels_placeholder (target : Expr) (t : FieldType) (order : ByteOrder) :
    (placeholder target t order).labels = [] := rfl

theorem labels_fixup {b b' : Buffer} {binding : Binding} (h : b.fixup binding = .ok b') :
    b'.labels = b.labels := by
  rw [labels, exports_fixup h, labels]

theorem Plain.labels_eq {b : Buffer} (h : b.Plain) : b.labels = [] := by
  rw [labels, h.exports, List.map_nil]

theorem FieldsWritten.labelAt {b : Buffer} (h : b.FieldsWritten) (c : Context) (offset : Nat)
    (hint : String) : (c.labelAt b offset hint).2.2.FieldsWritten := by
  unfold Context.labelAt LabelPool.labelAt
  cases b.exportAt offset with
  | some name => exact h
  | none => exact h.addExport _ offset

end Buffer

namespace Context

theorem notes_fresh (c : Context) {hints : String → Prop} {hint : String} (h : hints hint) :
    Notes hints c.pool (c.fresh hint).2.pool := LabelPool.notes_fresh c.pool h

theorem pays_fresh (c : Context) (hint : String) (used : List String) (l : String) :
    c.pool.Pays (c.fresh hint).2.pool used (used ++ [(c.fresh hint).1]) l :=
  LabelPool.pays_fresh c.pool hint used l

/-- An offset that has no label gets one that is noted. -/
theorem notes_labelAt (c : Context) (b : Buffer) (offset : Nat) {hints : String → Prop}
    {hint : String} (h : hints hint) :
    Notes hints c.pool (c.labelAt b offset hint).2.1.pool := by
  unfold labelAt LabelPool.labelAt
  cases b.exportAt offset with
  | some name => exact .refl _
  | none => exact LabelPool.notes_fresh c.pool h

theorem pays_labelAt (c : Context) (b : Buffer) (offset : Nat) (hint l : String) :
    c.pool.Pays (c.labelAt b offset hint).2.1.pool b.labels
      (c.labelAt b offset hint).2.2.labels l := by
  unfold labelAt LabelPool.labelAt
  cases b.exportAt offset with
  | some name => exact .refl _ _ _
  | none =>
    dsimp only
    rw [Buffer.labels_addExport]
    exact LabelPool.pays_fresh c.pool hint b.labels l

theorem brings_labelAt {X : String → Prop} (c : Context) (b : Buffer) (offset : Nat)
    {hint : String} (h : IsEncoderHint hint) :
    Brings X c.pool b.labels (c.labelAt b offset hint).2.1.pool
      (c.labelAt b offset hint).2.2.labels :=
  brings_of_pays (c.notes_labelAt b offset h) (c.pays_labelAt b offset hint)

end Context

end PortableImage
