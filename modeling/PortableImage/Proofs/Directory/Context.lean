import PortableImage.Directory.BaseReloc
import PortableImage.Directory.Export
import PortableImage.Directory.Import
import PortableImage.Directory.Resource
import PortableImage.Directory.Tls
import PortableImage.Proofs.Field.Record
import PortableImage.Proofs.Growth
import PortableImage.Proofs.Labels.Buffer

/-!
# What writing a directory keeps

Writing a directory takes fresh labels, and changes nothing else of the context: the way fields are
written and the label of the start of the image are the same for all directories.  What is written
keeps its pending fields inside.

* `Context.Keeps` — only the labels in use differ.
* `Tables.Continues` — what one step of writing keeps; it is transitive.
* `continues_encodeExports`, `continues_encodeImports`, `continues_encodeResources`,
  `continues_encodeTls` — the directories.
-/

set_option autoImplicit false

namespace PortableImage

open Buffer LabelPool

namespace Context

/-- The contexts differ at most in the labels in use. -/
def Keeps (c c' : Context) : Prop := c'.encoder = c.encoder ∧ c'.start = c.start

theorem Keeps.refl (c : Context) : c.Keeps c := ⟨rfl, rfl⟩

theorem Keeps.trans {c d e : Context} (hcd : c.Keeps d) (hde : d.Keeps e) : c.Keeps e :=
  ⟨hde.1.trans hcd.1, hde.2.trans hcd.2⟩

theorem keeps_fresh (c : Context) (hint : String) : c.Keeps (c.fresh hint).2 := ⟨rfl, rfl⟩

theorem keeps_labelAt (c : Context) (b : Buffer) (offset : Nat) (hint : String) :
    c.Keeps (c.labelAt b offset hint).2.1 := ⟨rfl, rfl⟩

/-- Buffers are written with the given labels and with fresh ones, which are noted. -/
structure Writes (c : Context) (given : List String) (bs : List Buffer) (c' : Context) : Prop where
  keeps : c.Keeps c'
  notes : Notes IsEncoderHint c.pool c'.pool
  written : ∀ b ∈ bs, b.FieldsWritten
  pays : ∀ l, c.pool.Pays c'.pool given (bs.flatMap labels) l

theorem Writes.brings {X : String → Prop} {c c' : Context} {given : List String} {bs : List Buffer}
    (h : c.Writes given bs c') : Brings X c.pool given c'.pool (bs.flatMap labels) :=
  brings_of_pays h.notes h.pays

end Context

/-! ## Tables -/

theorem mem_updateFirst {α β : Type} {p : α → Bool} {new : α} {change : α → α × β} {l : List α}
    {x : α} (hx : x ∈ (updateFirst p new change l).1) :
    x ∈ l ∨ ∃ y, (y = new ∨ y ∈ l) ∧ x = (change y).1 := by
  induction l with
  | nil => exact .inr ⟨new, .inl rfl, List.mem_singleton.1 hx⟩
  | cons a rest ih =>
    rw [updateFirst] at hx
    split at hx
    · rcases List.mem_cons.1 hx with rfl | hx
      · exact .inr ⟨a, .inr List.mem_cons_self, rfl⟩
      · exact .inl (List.mem_cons_of_mem _ hx)
    · rcases List.mem_cons.1 hx with rfl | hx
      · exact .inl List.mem_cons_self
      · rcases ih hx with hx | ⟨y, hy, heq⟩
        · exact .inl (List.mem_cons_of_mem _ hx)
        · exact .inr ⟨y, hy.imp_right (List.mem_cons_of_mem _), heq⟩

/-- Changing the first match changes what the elements add up to by what the match does. -/
theorem count_flatMap_updateFirst {α β γ : Type} [DecidableEq γ] (p : α → Bool) (new : α)
    (change : α → α × β) (l : List α) (f : α → List γ) (hnew : f new = []) (x : γ) :
    ((updateFirst p new change l).1.flatMap f).count x + (f ((l.find? p).getD new)).count x =
      (l.flatMap f).count x + (f (change ((l.find? p).getD new)).1).count x := by
  induction l with
  | nil => simp [updateFirst, hnew]
  | cons a rest ih =>
    rw [updateFirst, List.find?_cons]
    cases hp : p a with
    | true =>
      simp only [if_true, List.flatMap_cons, List.count_append, Option.getD_some]
      omega
    | false =>
      simp only [Bool.false_eq_true, if_false, List.flatMap_cons, List.count_append]
      omega

namespace Tables

/-- Every table has its pending fields in its bytes. -/
def Written (t : Tables) : Prop := ∀ e ∈ t.entries, e.2.FieldsWritten

/-- The labels of all tables. -/
def labels (t : Tables) : List String := t.entries.flatMap fun e => e.2.labels

theorem written_new (c : Context) (names : List String) : (Tables.new c names).Written := by
  intro e he
  obtain ⟨name, -, rfl⟩ := List.mem_map.1 he
  exact fieldsWritten_empty

theorem labels_new (c : Context) (names : List String) : (Tables.new c names).labels = [] := by
  rw [labels, List.flatMap_eq_nil_iff]
  intro e he
  obtain ⟨name, -, rfl⟩ := List.mem_map.1 he
  rfl

/-- The second tables continue the first: fresh labels are noted and become labels of them. -/
structure Continues (t t' : Tables) : Prop where
  context : t.context.Keeps t'.context
  notes : Notes IsEncoderHint t.context.pool t'.context.pool
  written : t.Written → t'.Written
  pays : ∀ l, t.context.pool.Pays t'.context.pool t.labels t'.labels l

theorem Continues.refl (t : Tables) : t.Continues t :=
  ⟨.refl _, .refl _, id, fun l => .refl _ _ l⟩

theorem Continues.trans {t u v : Tables} (htu : t.Continues u) (huv : u.Continues v) :
    t.Continues v :=
  ⟨htu.context.trans huv.context, htu.notes.trans huv.notes, fun h => huv.written (htu.written h),
    fun l => (htu.pays l).trans (huv.pays l)⟩

theorem continues_context (t : Tables) {c : Context} (h : t.context.Keeps c)
    (hn : Notes IsEncoderHint t.context.pool c.pool) : t.Continues { t with context := c } :=
  ⟨h, hn, id, fun l => hn.pays t.labels l⟩

theorem table_eq (t : Tables) (name : String) :
    t.table name = ((t.entries.find? fun e => e.1 == name).getD (name, .empty)).2 := by
  rw [table]
  induction t.entries with
  | nil => rfl
  | cons e rest ih =>
    rw [List.lookup_cons, List.find?_cons, Bool.beq_comm]
    cases e.1 == name with
    | true => rfl
    | false => exact ih

/-- Changing a table changes the labels by those of this table. -/
theorem count_labels_modify (t : Tables) (name : String) (change : Buffer → Buffer) (l : String) :
    (t.modify name change).labels.count l + (t.table name).labels.count l =
      t.labels.count l + (change (t.table name)).labels.count l := by
  rw [table_eq]
  exact count_flatMap_updateFirst _ _ _ _ (fun e : String × Buffer => e.2.labels) rfl l

theorem Written.table {t : Tables} (h : t.Written) (name : String) :
    (t.table name).FieldsWritten := by
  rw [table_eq]
  cases he : t.entries.find? fun e => e.1 == name with
  | none => exact fieldsWritten_empty
  | some e => exact h e (List.mem_of_find?_eq_some he)

theorem Written.modify {t : Tables} (h : t.Written) (name : String) {change : Buffer → Buffer}
    (hchange : ∀ b : Buffer, b.FieldsWritten → (change b).FieldsWritten) :
    (t.modify name change).Written := by
  intro e he
  rcases mem_updateFirst he with he | ⟨y, rfl | hy, rfl⟩
  · exact h e he
  · exact hchange _ fieldsWritten_empty
  · exact hchange _ (h y hy)

/-- Changing what is in a table, but not its labels. -/
theorem continues_modify (t : Tables) (name : String) {change : Buffer → Buffer}
    (h : ∀ b : Buffer, b.FieldsWritten → (change b).FieldsWritten)
    (hlabels : ∀ b : Buffer, (change b).labels = b.labels) :
    t.Continues (t.modify name change) := by
  refine ⟨.refl _, .refl _, fun ht => ht.modify name h, fun l => ?_⟩
  have hcount := t.count_labels_modify name change l
  rw [hlabels] at hcount
  exact Nat.add_le_add_right (Nat.le_of_eq (Nat.add_right_cancel hcount)) _

theorem continues_append (t : Tables) (name : String) {b : Buffer} (hb : b.Plain) :
    t.Continues (t.append name b) :=
  t.continues_modify name (fun _ h => h.append hb.written) fun c => by
    rw [labels_append, hb.labels_eq, List.append_nil]

theorem continues_extend (t : Tables) (name : String) (bytes : List UInt8) :
    t.Continues (t.extend name bytes) :=
  t.continues_modify name (fun _ h => h.extend bytes) fun b => b.labels_extend bytes

theorem continues_text (t : Tables) (name : String) (s : List UInt8) :
    t.Continues (t.text name s) :=
  (t.continues_extend name s).trans ((t.extend name s).continues_extend name [0])

/-- The start of a table gets a label. -/
theorem continues_label (t : Tables) {name : String} (h : IsEncoderHint name) :
    t.Continues (t.label name).2 := by
  refine ⟨t.context.keeps_labelAt _ 0 name, t.context.notes_labelAt _ 0 h, fun ht => ?_,
    fun l => ?_⟩
  · have hb := (ht.table name).labelAt t.context 0 name
    exact ht.modify name fun _ _ => hb
  · have hpays := t.context.pays_labelAt (t.table name) 0 name l
    have hcount := t.count_labels_modify name
      (fun _ => (t.context.labelAt (t.table name) 0 name).2.2) l
    have hlabels : (t.label name).2.labels = (t.modify name fun _ =>
      (t.context.labelAt (t.table name) 0 name).2.2).labels := rfl
    have hpool : (t.label name).2.context =
      (t.context.labelAt (t.table name) 0 name).2.1 := rfl
    rw [hlabels, hpool]
    unfold Pays at *
    omega

theorem continues_rvaEnd (t : Tables) {name : String} (h : IsEncoderHint name) :
    t.Continues (t.rvaEnd name).2 :=
  t.continues_label h

theorem continues_offsetEnd (t : Tables) {name base : String} (h : IsEncoderHint name)
    (hbase : IsEncoderHint base) : t.Continues (t.offsetEnd name base).2 :=
  (t.continues_label h).trans ((t.label name).2.continues_label hbase)

theorem Written.concat {t : Tables} (h : t.Written) : t.concat.FieldsWritten := by
  have hfold : ∀ (l : List (String × Buffer)) (b : Buffer), (∀ e ∈ l, e.2.FieldsWritten) →
      b.FieldsWritten → (l.foldl (fun acc e => acc ++ e.2) b).FieldsWritten := by
    intro l
    induction l with
    | nil => exact fun _ _ hb => hb
    | cons e rest ih =>
      intro b hl hb
      exact ih _ (fun x hx => hl x (List.mem_cons_of_mem _ hx))
        (hb.append (hl e List.mem_cons_self))
  exact hfold t.entries .empty h fieldsWritten_empty

theorem labels_concat (t : Tables) : t.concat.labels = t.labels := by
  have hfold : ∀ (l : List (String × Buffer)) (b : Buffer),
      (l.foldl (fun acc e => acc ++ e.2) b).labels = b.labels ++ l.flatMap fun e => e.2.labels := by
    intro l
    induction l with
    | nil => exact fun b => (List.append_nil _).symm
    | cons e rest ih =>
      intro b
      rw [List.foldl_cons, ih, labels_append, List.flatMap_cons, List.append_assoc]
  exact hfold t.entries .empty

/-- The directory that the tables make up. -/
theorem Continues.writes {c : Context} {names : List String} {t : Tables}
    (h : (Tables.new c names).Continues t) : c.Writes [] [t.concat] t.context where
  keeps := h.context
  notes := h.notes
  written b hb := by
    rw [List.mem_singleton.1 hb]
    exact (h.written (written_new c names)).concat
  pays l := by
    have hpays := h.pays l
    rw [labels_new, ← labels_concat] at hpays
    rw [List.flatMap_singleton]
    exact hpays

end Tables

/-! ## Exports -/

theorem continues_encodeSlot {slot : Option Export} {t t' : Tables} {b : Buffer}
    (h : encodeSlot slot t = .ok (b, t')) : b.Plain ∧ t.Continues t' := by
  rw [encodeSlot.eq_def] at h
  dsimp only at h
  split at h
  · simp only [bind_eq_ok, pure_eq_ok, Prod.mk.injEq] at h
    obtain ⟨_, hb, rfl, rfl⟩ := h
    exact ⟨FieldEncoder.plain_encode hb, .refl _⟩
  · split at h
    · simp only [bind_eq_ok, pure_eq_ok, Prod.mk.injEq] at h
      obtain ⟨_, hb, rfl, rfl⟩ := h
      exact ⟨FieldEncoder.plain_encode hb, .refl _⟩
    · simp only [bind_eq_ok, pure_eq_ok, Prod.mk.injEq] at h
      obtain ⟨_, hb, rfl, rfl⟩ := h
      exact ⟨FieldEncoder.plain_encode hb,
        (t.continues_rvaEnd (by decide)).trans (Tables.continues_text _ "nametable" _)⟩

theorem continues_encodeSlots {slots : Slots} {t t' : Tables} {bs : List Buffer}
    (h : encodeSlots slots t = .ok (bs, t')) :
    (∀ b ∈ bs, b.Plain) ∧ t.Continues t' := by
  induction slots generalizing t bs with
  | nil =>
    cases h
    exact ⟨fun _ hb => (nomatch hb), .refl _⟩
  | cons slot slots ih =>
    simp only [encodeSlots, bind_eq_ok, pure_eq_ok, Prod.exists, Prod.mk.injEq] at h
    obtain ⟨_, t₁, h₁, _, t₂, h₂, rfl, rfl⟩ := h
    obtain ⟨hentry, hfirst⟩ := continues_encodeSlot h₁
    obtain ⟨hentries, hrest⟩ := ih h₂
    exact ⟨List.forall_mem_cons.2 ⟨hentry, hentries⟩, hfirst.trans hrest⟩

theorem continues_encodeNames {names : List (String × Nat)} {t t' : Tables}
    (h : encodeNames names t = .ok t') : t.Continues t' := by
  induction names generalizing t with
  | nil =>
    cases h
    exact .refl _
  | cons e names ih =>
    simp only [encodeNames, bind_eq_ok] at h
    obtain ⟨ordinal, hordinal, name, hname, h⟩ := h
    refine .trans ?_ (ih h)
    refine .trans ?_ (Tables.continues_text _ "nametable" _)
    refine .trans ?_ (Tables.continues_append _ "namptable" (FieldEncoder.plain_encode hname))
    refine .trans ?_ (Tables.continues_rvaEnd _ (by decide))
    exact t.continues_append "ord_table" (FieldEncoder.plain_encode hordinal)

theorem writes_encodeExports {c c' : Context} {dir : ExportDirectory} {now : UInt32} {b : Buffer}
    (h : encodeExports c dir now = .ok (b, c')) : c.Writes [] [b] c' := by
  simp only [encodeExports, bind_eq_ok, pure_eq_ok, Prod.exists, Prod.mk.injEq] at h
  obtain ⟨slots, -, header, hheader, entries, t₁, h₁, t₂, h₂, rfl, rfl⟩ := h
  obtain ⟨hentries, hslots⟩ := continues_encodeSlots h₁
  have hall : (Tables.new c exportTables).Continues t₂ := by
    refine .trans ?_ (continues_encodeNames h₂)
    refine .trans ?_ (Tables.continues_append _ "addrtable" (plain_concat hentries))
    refine .trans ?_ hslots
    refine .trans ?_ (Tables.continues_text _ "libname" _)
    refine .trans ?_ (Tables.continues_append _ "edata" (FieldEncoder.plain_record hheader))
    refine .trans ?_ (Tables.continues_label _ (by decide))
    refine .trans ?_ (Tables.continues_label _ (by decide))
    refine .trans ?_ (Tables.continues_label _ (by decide))
    exact Tables.continues_label _ (by decide)
  exact hall.writes

/-! ## Imports -/

theorem continues_importEntry {library : String} {i : Import} {t t' : Tables} {e : Expr}
    (h : importEntry library i t = .ok (e, t')) : t.Continues t' := by
  rw [importEntry.eq_def] at h
  split at h
  · cases h
    exact .refl _
  · simp only [bind_eq_ok, pure_eq_ok, Prod.mk.injEq] at h
    obtain ⟨_, hhint, -, rfl⟩ := h
    refine .trans ?_ (Tables.continues_text _ "nametable" _)
    refine .trans ?_ (Tables.continues_append _ "nametable" (FieldEncoder.plain_encode hhint))
    refine .trans ?_ (Tables.continues_rvaEnd _ (by decide))
    exact t.continues_modify "nametable" (fun _ hb => hb.align 2) fun _ => rfl
  · exact nomatch h

/-- The entries of a library: its address table has the labels of its slots. -/
theorem continues_encodeEntries {library : String} {is : List Import} {b b' : Buffer}
    {t t' : Tables} (h : encodeEntries library is b t = .ok (b', t')) (hb : b.FieldsWritten) :
    b'.FieldsWritten ∧ b'.labels = b.labels ++ is.filterMap (·.target) ∧ t.Continues t' := by
  induction is generalizing b t with
  | nil =>
    simp only [encodeEntries, bind_eq_ok, pure_eq_ok, Prod.mk.injEq] at h
    obtain ⟨stop, hstop, rfl, rfl⟩ := h
    have hplain : stop.Plain := FieldEncoder.plain_encode hstop
    exact ⟨hb.append hplain.written, by rw [labels_append, hplain.labels_eq, List.filterMap_nil],
      t.continues_append "ilt" hplain⟩
  | cons i is ih =>
    simp only [encodeEntries, bind_eq_ok, Prod.exists] at h
    obtain ⟨_, t₁, h₁, entry, hentry, h₂⟩ := h
    have hplain : entry.Plain := FieldEncoder.plain_encode hentry
    have hrest := ((continues_importEntry h₁).trans (t₁.continues_append "ilt" hplain))
    cases htarget : i.target with
    | none =>
      rw [htarget] at h₂
      obtain ⟨haddresses, hlabels, hothers⟩ := ih h₂ (hb.append hplain.written)
      refine ⟨haddresses, ?_, hrest.trans hothers⟩
      rw [hlabels, labels_append, hplain.labels_eq, List.append_nil, List.filterMap_cons, htarget]
    | some target =>
      rw [htarget] at h₂
      obtain ⟨haddresses, hlabels, hothers⟩ :=
        ih h₂ ((hb.addExport target b.virtSize).append hplain.written)
      refine ⟨haddresses, ?_, hrest.trans hothers⟩
      rw [hlabels, labels_append, hplain.labels_eq, List.append_nil, labels_addExport,
        List.append_assoc, List.filterMap_cons, htarget]
      rfl

/-- The labels of the slots of a library. -/
def slotLabels (dir : ImportDirectory) : List String := dir.imports.filterMap (·.target)

/-- The second tables continue the first; the buffers beside them have the given labels and fresh
ones. -/
structure Tables.Provides (t : Tables) (given : List String) (bs : List Buffer) (t' : Tables) :
    Prop where
  context : t.context.Keeps t'.context
  notes : Notes IsEncoderHint t.context.pool t'.context.pool
  written : t.Written → t'.Written
  buffers : ∀ b ∈ bs, b.FieldsWritten
  pays : ∀ l, t.context.pool.Pays t'.context.pool (given ++ t.labels)
    (bs.flatMap Buffer.labels ++ t'.labels) l

theorem provides_encodeLibrary {dir : ImportDirectory} {t t' : Tables} {b : Buffer}
    (h : encodeLibrary dir t = .ok (b, t')) : t.Provides (slotLabels dir) [b] t' := by
  simp only [encodeLibrary, bind_eq_ok] at h
  obtain ⟨descriptor, hdescriptor, h⟩ := h
  obtain ⟨haddresses, hlabels, hentries⟩ :=
    continues_encodeEntries h (fieldsWritten_empty.labelAt t.context 0 "iat")
  have hstart := t.context.notes_labelAt .empty 0 (by decide : IsEncoderHint "iat")
  have hall : Tables.Continues { t with context := (t.context.labelAt .empty 0 "iat").2.1 } t' := by
    refine .trans ?_ hentries
    refine .trans ?_ (Tables.continues_text _ "nametable" _)
    refine .trans ?_ (Tables.continues_append _ "idata" (FieldEncoder.plain_record hdescriptor))
    refine .trans ?_ (Tables.continues_rvaEnd _ (by decide))
    exact Tables.continues_rvaEnd _ (by decide)
  refine ⟨(t.context.keeps_labelAt .empty 0 "iat").trans hall.context, hstart.trans hall.notes,
    hall.written, List.forall_mem_singleton.2 haddresses, fun l => ?_⟩
  have hlabel := t.context.pays_labelAt .empty 0 "iat" l
  have hpays := hall.pays l
  have hb : b.labels = (t.context.labelAt .empty 0 "iat").2.2.labels ++ slotLabels dir := hlabels
  unfold Pays at *
  rw [List.flatMap_singleton, hb]
  simp only [List.count_append, labels_empty, List.count_nil] at *
  have hsame : Tables.labels { t with context := (t.context.labelAt .empty 0 "iat").2.1 } =
    t.labels := rfl
  rw [hsame] at hpays
  omega

theorem provides_encodeLibraries {dirs : List ImportDirectory} {t t' : Tables} {bs : List Buffer}
    (h : encodeLibraries dirs t = .ok (bs, t')) : t.Provides (dirs.flatMap slotLabels) bs t' := by
  induction dirs generalizing t bs with
  | nil =>
    cases h
    exact ⟨.refl _, .refl _, id, fun _ hb => (nomatch hb), fun l => .refl _ _ l⟩
  | cons dir dirs ih =>
    simp only [encodeLibraries, bind_eq_ok, pure_eq_ok, Prod.exists, Prod.mk.injEq] at h
    obtain ⟨b, t₁, h₁, bs, t₂, h₂, rfl, rfl⟩ := h
    have hfirst := provides_encodeLibrary h₁
    have hrest := ih h₂
    refine ⟨hfirst.context.trans hrest.context, hfirst.notes.trans hrest.notes,
      fun ht => hrest.written (hfirst.written ht),
      List.forall_mem_cons.2 ⟨hfirst.buffers b List.mem_cons_self, hrest.buffers⟩, fun l => ?_⟩
    have hpays₁ := hfirst.pays l
    have hpays₂ := hrest.pays l
    unfold Pays at *
    simp only [List.flatMap_cons, List.flatMap_nil, List.count_append, List.append_nil] at *
    omega

theorem writes_encodeImports {c c' : Context} {dirs : List ImportDirectory} {b : Buffer}
    {tables : List Buffer} (h : encodeImports c dirs = .ok (b, tables, c')) :
    c.Writes (dirs.flatMap slotLabels) (b :: tables) c' := by
  simp only [encodeImports, bind_eq_ok, pure_eq_ok, Prod.exists, Prod.mk.injEq] at h
  obtain ⟨tables, t, h₁, stop, hstop, rfl, rfl, rfl⟩ := h
  have hlibraries := provides_encodeLibraries h₁
  have hend := t.continues_append "idata" (FieldEncoder.plain_record hstop)
  refine ⟨hlibraries.context.trans hend.context, hlibraries.notes.trans hend.notes,
    List.forall_mem_cons.2 ⟨(hend.written (hlibraries.written
      (Tables.written_new c importTables))).concat, hlibraries.buffers⟩, fun l => ?_⟩
  have hpays₁ := hlibraries.pays l
  have hpays₂ := hend.pays l
  rw [Tables.labels_new, show (Tables.new c importTables).context = c from rfl] at hpays₁
  unfold Pays at *
  simp only [List.flatMap_cons, List.count_append, List.count_nil, Tables.labels_concat] at *
  omega

/-! ## Resources -/

theorem continues_encodeId {id : ResourceId} {t t' : Tables} (h : encodeId id t = .ok t') :
    t.Continues t' := by
  rw [encodeId.eq_def] at h
  dsimp only at h
  split at h
  · simp only [bind_eq_ok, pure_eq_ok] at h
    obtain ⟨text, htext, place, hplace, rfl⟩ := h
    refine .trans ?_ (Tables.continues_append _ "table" (FieldEncoder.plain_encode hplace))
    refine .trans ?_ (Tables.continues_append _ "names" (FieldEncoder.plain_record htext))
    exact t.continues_offsetEnd (by decide) (by decide)
  · simp only [bind_eq_ok, pure_eq_ok] at h
    obtain ⟨number, hnumber, rfl⟩ := h
    exact t.continues_append "table" (FieldEncoder.plain_encode hnumber)

theorem continues_encodeContent {content : ResourceContent} {t t' : Tables}
    {label : Option String} (h : encodeContent content t = .ok (label, t')) :
    t.Continues t' := by
  rw [encodeContent.eq_def] at h
  dsimp only at h
  split at h
  · simp only [bind_eq_ok, pure_eq_ok, Prod.mk.injEq] at h
    obtain ⟨place, hplace, -, rfl⟩ := h
    exact (t.continues_context (t.context.keeps_fresh "rsrc_curoff")
      (t.context.notes_fresh (by decide))).trans
      (Tables.continues_append _ "table" (FieldEncoder.plain_encode hplace))
  · simp only [bind_eq_ok, pure_eq_ok, Prod.mk.injEq] at h
    obtain ⟨description, hdescription, place, hplace, -, rfl⟩ := h
    refine .trans ?_ (Tables.continues_append _ "table" (FieldEncoder.plain_encode hplace))
    refine .trans ?_ (Tables.continues_extend _ "data" _)
    refine .trans ?_ (Tables.continues_append _ "dataentries"
      (FieldEncoder.plain_record hdescription))
    refine .trans ?_ (Tables.continues_rvaEnd _ (by decide))
    exact t.continues_offsetEnd (by decide) (by decide)

theorem continues_encodeLevelEntries {entries : List (ResourceId × ResourceContent)}
    {t t' : Tables} {labels : List (Option String)}
    (h : encodeLevelEntries entries t = .ok (labels, t')) : t.Continues t' := by
  induction entries generalizing t labels with
  | nil =>
    cases h
    exact .refl _
  | cons e entries ih =>
    simp only [encodeLevelEntries, bind_eq_ok, pure_eq_ok, Prod.exists, Prod.mk.injEq] at h
    obtain ⟨t₁, h₁, _, t₂, h₂, _, t₃, h₃, -, rfl⟩ := h
    exact ((continues_encodeId h₁).trans (continues_encodeContent h₂)).trans (ih h₃)

theorem continues_encodeLevel {info : ResourceInfo}
    {entries : List (ResourceId × ResourceContent)} {t t' : Tables}
    {labels : List (Option String)} (h : encodeLevel info entries t = .ok (labels, t')) :
    t.Continues t' := by
  simp only [encodeLevel, bind_eq_ok] at h
  obtain ⟨header, hheader, h⟩ := h
  exact (t.continues_append "table" (FieldEncoder.plain_record hheader)).trans
    (continues_encodeLevelEntries h)

theorem continues_startLevel {label : String} {t t' : Tables} (h : startLevel label t = .ok t') :
    t.Continues t' := by
  simp only [startLevel, bind_eq_ok, pure_eq_ok] at h
  obtain ⟨here, -, table, hfix, rfl⟩ := h
  refine ⟨.refl _, .refl _, fun ht => ?_, fun l => ?_⟩
  · have htable := FieldsWritten.fixup hfix (ht.table "table")
    exact ht.modify "table" fun _ _ => htable
  · have hcount := t.count_labels_modify "table" (fun _ => table) l
    rw [labels_fixup hfix] at hcount
    exact Nat.add_le_add_right (Nat.le_of_eq (Nat.add_right_cancel hcount)) _

mutual

theorem continues_encodeBelow {content : ResourceContent} {label : Option String}
    {t t' : Tables} (h : encodeBelow content label t = .ok t') : t.Continues t' := by
  match content, label with
  | .directory info entries, some label =>
    rw [encodeBelow] at h
    simp only [bind_eq_ok, Prod.exists] at h
    obtain ⟨t₁, h₁, labels, t₂, h₂, h₃⟩ := h
    exact ((continues_startLevel h₁).trans (continues_encodeLevel h₂)).trans
      (continues_encodeAllBelow h₃)
  | .directory info entries, none =>
    rw [encodeBelow] at h
    · cases h
      exact .refl _
    · exact fun _ _ _ _ hl => nomatch hl
  | .data bytes codepage reserved, label =>
    rw [encodeBelow] at h
    · cases h
      exact .refl _
    · exact fun _ _ _ hc => nomatch hc

theorem continues_encodeAllBelow {entries : List (ResourceId × ResourceContent)}
    {labels : List (Option String)} {t t' : Tables}
    (h : encodeAllBelow entries labels t = .ok t') : t.Continues t' := by
  match entries, labels with
  | (id, content) :: rest, label :: labels =>
    rw [encodeAllBelow, bind_eq_ok] at h
    obtain ⟨t₁, h₁, h₂⟩ := h
    exact (continues_encodeBelow h₁).trans (continues_encodeAllBelow h₂)
  | [], labels =>
    rw [encodeAllBelow] at h
    · cases h
      exact .refl _
    · exact fun _ _ _ _ _ he => nomatch he
  | (id, content) :: rest, [] =>
    rw [encodeAllBelow] at h
    · cases h
      exact .refl _
    · exact fun _ _ _ _ _ _ hl => nomatch hl

end

theorem writes_encodeResources {c c' : Context} {root : ResourceDirectory} {b : Buffer}
    (h : encodeResources c root = .ok (b, c')) : c.Writes [] [b] c' := by
  simp only [encodeResources, bind_eq_ok, pure_eq_ok, Prod.exists, Prod.mk.injEq] at h
  obtain ⟨_, t₁, h₁, t₂, h₂, rfl, rfl⟩ := h
  have hall := ((continues_encodeLevel h₁).trans (continues_encodeAllBelow h₂)).trans
    (t₂.continues_modify "names" (fun _ hb => hb.align 4) fun _ => rfl)
  exact hall.writes

/-! ## Thread-local storage and base relocations -/

theorem writes_encodeTls {c c' : Context} {tls : TlsDirectory} {b callbacks : Buffer}
    (h : encodeTls c tls = .ok (b, callbacks, c')) :
    c.Writes [] [b, callbacks] c' := by
  simp only [encodeTls, bind_eq_ok, pure_eq_ok, Prod.mk.injEq] at h
  obtain ⟨list, hlist, record, hrecord, rfl, rfl, rfl⟩ := h
  have hrecord := FieldEncoder.plain_record hrecord
  have hlist := FieldEncoder.plain_record hlist
  refine ⟨c.keeps_labelAt .empty 0 "callback_p", c.notes_labelAt .empty 0 (by decide),
    List.forall_mem_cons.2 ⟨hrecord.written, List.forall_mem_singleton.2
      ((fieldsWritten_empty.labelAt c 0 "callback_p").append hlist.written)⟩, fun l => ?_⟩
  have hlabel := c.pays_labelAt .empty 0 "callback_p" l
  rw [List.flatMap_cons, List.flatMap_singleton, hrecord.labels_eq, labels_append, hlist.labels_eq,
    List.append_nil]
  exact hlabel

theorem keeps_sectionTables (b : Binding) (s : Section) (c : Context) :
    c.Keeps (sectionTables b s c).2 := by
  rw [sectionTables]
  dsimp only
  split
  · exact .refl _
  · exact c.keeps_labelAt _ 0 "sect_start"

theorem keeps_collectTables (b : Binding) (sections : List Section) (c : Context) :
    c.Keeps (collectTables b sections c).context := by
  induction sections generalizing c with
  | nil => exact .refl _
  | cons s rest ih => exact (keeps_sectionTables b s c).trans (ih _)

end PortableImage
