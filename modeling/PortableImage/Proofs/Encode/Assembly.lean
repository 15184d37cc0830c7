import PortableImage.Encode.Assembly
import PortableImage.Proofs.Directory.Context
import PortableImage.Proofs.Field.Record
import PortableImage.Proofs.Growth

/-!
# What generating the directories keeps

Each step of the assembly adds content behind what is there.  The sections that the caller
described continue to hold their bytes and pending fields where they were, and the optional header
is left alone.

* `Assembly.Continues` — what one step keeps; it is transitive.
* `Assembly.continues_withDirectories` — all steps together keep it.
* `Assembly.beforeRelocations` — the image at the moment base relocations are looked for.
-/

set_option autoImplicit false

namespace PortableImage

/-! ## Address tables -/

namespace Assembly

theorem fieldsWritten_labelIn {tables tables' : List Buffer} {index : Nat} {offset : Buffer → Nat}
    {hint label : String} {c c' : Context}
    (hl : labelIn tables index offset hint c = (label, tables', c'))
    (h : ∀ b ∈ tables, b.FieldsWritten) : ∀ b ∈ tables', b.FieldsWritten := by
  intro b hb
  have htables : (labelIn tables index offset hint c).2.1 = tables' := by rw [hl]
  rw [← htables] at hb
  unfold labelIn at hb
  rcases List.mem_or_eq_of_mem_set hb with hb | rfl
  · exact h b hb
  · refine Buffer.FieldsWritten.labelAt ?_ c _ hint
    cases hi : tables[index]? with
    | none => exact Buffer.fieldsWritten_empty
    | some b => exact h b (List.mem_of_getElem? hi)

theorem keeps_labelIn {tables tables' : List Buffer} {index : Nat} {offset : Buffer → Nat}
    {hint label : String} {c c' : Context}
    (hl : labelIn tables index offset hint c = (label, tables', c')) : c.Keeps c' := by
  have hcontext : (labelIn tables index offset hint c).2.2 = c' := by rw [hl]
  rw [← hcontext]
  exact c.keeps_labelAt _ _ hint

/-- The data directory of the address tables only adds labels to them. -/
theorem setTableDirectory_cases (a : Assembly) (order : List Nat) (tables : List Buffer) :
    a.setTableDirectory order tables = (a, tables) ∨
    ∃ first last start stop tables₁ tables₂ c₁ c₂ place,
      labelIn tables first (fun _ => 0) "iat" a.context = (start, tables₁, c₁) ∧
      labelIn tables₁ last (·.virtSize) "iat_end" c₁ = (stop, tables₂, c₂) ∧
      a.setTableDirectory order tables =
        ({ a with context := c₂, image := a.image.setDirectory .importAddressTable place },
          tables₂) := by
  unfold setTableDirectory
  split
  · next first last _ _ =>
    rcases h₁ : labelIn tables first (fun _ => 0) "iat" a.context with ⟨start, tables₁, c₁⟩
    rcases h₂ : labelIn tables₁ last (·.virtSize) "iat_end" c₁ with ⟨stop, tables₂, c₂⟩
    simp only [h₂]
    exact .inr ⟨first, last, start, stop, tables₁, tables₂, c₁, c₂, _, h₁, h₂, rfl⟩
  · exact .inl rfl

/-! ## Call stubs -/

end Assembly

namespace StubEncoder

theorem fieldsWritten_withHelper (pool : LabelPool) {plt : Buffer} (h : plt.FieldsWritten)
    (sections : List Section) : (withHelper pool plt sections).2.FieldsWritten := by
  rw [withHelper]
  split
  · exact (h.addExport helperLabel 0).extend helper
  · exact h

theorem fieldsWritten_absoluteStub {plt : Buffer} (h : plt.FieldsWritten) (thunk target : String) :
    (absoluteStub plt thunk target).FieldsWritten :=
  ((h.addExport thunk plt.virtSize).extend jumpSlot).append (Buffer.fieldsWritten_placeholder _ _ _)

theorem fieldsWritten_relativeStub {plt : Buffer} (h : plt.FieldsWritten) (thunk target : String) :
    (relativeStub plt thunk target).FieldsWritten := by
  have hcalled := ((h.addExport thunk plt.virtSize).extend call).append
    (Buffer.fieldsWritten_placeholder (.label helperLabel - (.label thunk + .const 5)) .i32 .little)
  exact (hcalled.extend jumpRelative).append (Buffer.fieldsWritten_placeholder _ _ _)

theorem fieldsWritten_encode {e : StubEncoder} {pool pool' : LabelPool} {plt plt' : Buffer}
    {symbol : Import} {sections : List Section}
    (he : e.encode pool plt symbol sections = .ok (pool', plt')) (h : plt.FieldsWritten) :
    plt'.FieldsWritten := by
  rw [encode.eq_def] at he
  dsimp only at he
  split at he
  · cases he
    exact h
  · exact nomatch he
  · split at he
    · cases he
      exact fieldsWritten_relativeStub (fieldsWritten_withHelper pool h sections) _ _
    · cases he
      exact fieldsWritten_absoluteStub h _ _

end StubEncoder

namespace Assembly

/-- The pending fields of all parts lie in their bytes. -/
structure ImportParts.Written (parts : ImportParts) : Prop where
  inPlace : ∀ t ∈ parts.inPlace, t.2.FieldsWritten
  table : ∀ b ∈ parts.table, b.FieldsWritten
  stubs : parts.stubs.FieldsWritten

theorem written_addStubs {stubs : Option StubEncoder} {sections : List Section} {is : List Import}
    {parts parts' : ImportParts} (h : addStubs stubs sections is parts = .ok parts')
    (hin : parts.Written) : parts'.Written := by
  induction is generalizing parts with
  | nil =>
    cases h
    exact hin
  | cons i rest ih =>
    rw [addStubs.eq_def] at h
    cases stubs with
    | none =>
      cases h
      exact hin
    | some e =>
      simp only [bind_eq_ok, Prod.exists] at h
      obtain ⟨pool, plt, hencode, h⟩ := h
      exact ih h ⟨hin.inPlace, hin.table, StubEncoder.fieldsWritten_encode hencode hin.stubs⟩

theorem written_collectParts {stubs : Option StubEncoder} {sections : List Section}
    {l : List (ImportDirectory × Buffer)} {parts parts' : ImportParts}
    (h : collectParts stubs sections l parts = .ok parts') (hl : ∀ e ∈ l, e.2.FieldsWritten)
    (hin : parts.Written) : parts'.Written := by
  induction l generalizing parts with
  | nil =>
    cases h
    exact hin
  | cons e rest ih =>
    obtain ⟨dir, table⟩ := e
    have htable : table.FieldsWritten := hl _ List.mem_cons_self
    simp only [collectParts, bind_eq_ok] at h
    obtain ⟨next, hnext, hrest⟩ := h
    refine ih hrest (fun e he => hl e (List.mem_cons_of_mem _ he)) (written_addStubs hnext ?_)
    split
    · refine ⟨fun t ht => ?_, hin.table, hin.stubs⟩
      rcases List.mem_append.1 ht with ht | ht
      · exact hin.inPlace t ht
      · rw [List.mem_singleton.1 ht]
        exact htable
    · refine ⟨hin.inPlace, fun b hb => ?_, hin.stubs⟩
      cases hb
      refine Buffer.FieldsWritten.append ?_ htable
      cases ht : parts.table with
      | none => exact Buffer.fieldsWritten_empty
      | some b => exact hin.table b ht

/-! ## Data directories -/

theorem lookup_updateFirst {α β : Type} [BEq α] [LawfulBEq α] (k : α) (v : β)
    (l : List (α × β)) : (updateFirst (fun (e : α × β) => e.1 == k) (k, v)
      (fun _ => ((k, v), ())) l).1.lookup k = some v := by
  induction l with
  | nil => simp [updateFirst]
  | cons e rest ih =>
    rw [updateFirst]
    split
    · simp
    · next h =>
      have hne : (k == e.1) = false := by
        rw [beq_eq_false_iff_ne]
        exact fun heq => h (by simp [heq])
      rw [List.lookup_cons, hne]
      exact ih

/-- A data directory is where it was put. -/
theorem directory?_setDirectory (image : Image) (slot : DirectorySlot) (place : DataDirectory) :
    (image.setDirectory slot place).directory? slot = some place :=
  lookup_updateFirst slot place image.directories

/-! ## One step -/

/-- The second assembly continues the first: its sections hold what they held, fields are written
the same way, and the headers are the same. -/
structure Continues (a a' : Assembly) : Prop where
  sections : SectionsGrow a.image.sections a'.image.sections
  context : a.context.Keeps a'.context
  header : a'.image.header = a.image.header
  optionalHeader : a'.image.optionalHeader = a.image.optionalHeader
  tables : (∀ t ∈ a.tablesInPlace, t.2.FieldsInside) → ∀ t ∈ a'.tablesInPlace, t.2.FieldsInside
  stable : ∀ {P : Section → Prop}, Section.Stable P → (∀ s ∈ a.image.sections, P s) →
    ∀ s ∈ a'.image.sections, P s

theorem Continues.refl (a : Assembly) : a.Continues a := ⟨.refl _, .refl _, rfl, rfl, id, fun _ => id⟩

theorem Continues.trans {a b c : Assembly} (hab : a.Continues b) (hbc : b.Continues c) :
    a.Continues c :=
  ⟨hab.sections.trans hbc.sections, hab.context.trans hbc.context,
    hbc.header.trans hab.header, hbc.optionalHeader.trans hab.optionalHeader,
    fun h => hbc.tables (hab.tables h), fun hP h => hbc.stable hP (hab.stable hP h)⟩

theorem Continues.inside {a a' : Assembly} (h : a.Continues a')
    (ha : ∀ s ∈ a.image.sections, s.content.FieldsInside) :
    ∀ s ∈ a'.image.sections, s.content.FieldsInside :=
  h.stable Section.stable_fieldsInside ha

/-- Assembling leaves no labels of an earlier encoding behind that were not there. -/
theorem Continues.leftoverLabels {a a' : Assembly} (h : a.Continues a') :
    leftoverLabels a'.image.sections ⊆ PortableImage.leftoverLabels a.image.sections := by
  intro l hl
  obtain ⟨s, hs, hl⟩ := List.mem_flatMap.1 hl
  refine h.stable (Section.stable_leftover (P := (· ∈ PortableImage.leftoverLabels a.image.sections)))
    (fun t ht k hk => ?_) s hs l hl
  exact List.mem_flatMap.2 ⟨t, ht, hk⟩

/-- A context with other labels in use. -/
theorem continues_context (a : Assembly) {c : Context} (h : a.context.Keeps c) :
    a.Continues { a with context := c } :=
  ⟨.refl _, h, rfl, rfl, id, fun _ => id⟩

theorem continues_setDirectory (a : Assembly) (slot : DirectorySlot) (b : Buffer) (hint : String) :
    a.Continues (a.setDirectory slot b hint).1 :=
  ⟨.refl _, a.context.keeps_labelAt b 0 hint, rfl, rfl, id, fun _ => id⟩

theorem continues_setTableDirectory (a : Assembly) (order : List Nat) (tables : List Buffer) :
    a.Continues (a.setTableDirectory order tables).1 := by
  obtain h | ⟨_, _, _, _, _, _, _, _, _, h₁, h₂, h⟩ := a.setTableDirectory_cases order tables
  · rw [h]
    exact .refl a
  · rw [h]
    exact ⟨.refl _, (keeps_labelIn h₁).trans (keeps_labelIn h₂), rfl, rfl, id, fun _ => id⟩

theorem fieldsWritten_setTableDirectory {tables : List Buffer}
    (htables : ∀ b ∈ tables, b.FieldsWritten) (a : Assembly) (order : List Nat) :
    ∀ b ∈ (a.setTableDirectory order tables).2, b.FieldsWritten := by
  obtain h | ⟨_, _, _, _, _, _, _, _, _, h₁, h₂, h⟩ := a.setTableDirectory_cases order tables
  · rw [h]
    exact htables
  · rw [h]
    exact fieldsWritten_labelIn h₂ (fieldsWritten_labelIn h₁ htables)

theorem result_addSection (a : Assembly) (s : Section) :
    (a.addSection s).result =
      .ok { a with image := { a.image with sections := (appendSection a.image.sections s).1 } } :=
  rfl

theorem continues_addSection {a a' : Assembly} {name : String} {flags : SectionFlags}
    {content : Buffer} (h : (a.addSection (.new name flags content)).result = .ok a')
    (hc : content.FieldsWritten) : a.Continues a' := by
  rw [result_addSection] at h
  cases h
  exact ⟨sectionsGrow_appendSection _ hc, .refl _, rfl, rfl, id, fun hP => hP.appendSection hc⟩

theorem continues_addAutoImports {a a' : Assembly} {catalog : Option Catalog}
    (h : (a.addAutoImports catalog).result = .ok a') : a.Continues a' := by
  rw [addAutoImports.eq_def] at h
  cases catalog with
  | none =>
    cases h
    exact .refl a
  | some catalog =>
    cases h
    exact ⟨.refl _, ⟨rfl, rfl⟩, rfl, rfl, id, fun _ => id⟩

/-- A directory is written, found, and put into a section. -/
theorem continues_addDirectory {a a' : Assembly} {c : Context} {slot : DirectorySlot} {b : Buffer}
    {hint name : String} {flags : SectionFlags} {content : Buffer} (hkeeps : a.context.Keeps c)
    (h : ((({ a with context := c } : Assembly).setDirectory slot b hint).1.addSection
      (.new name flags content)).result = .ok a') (hs : content.FieldsWritten) : a.Continues a' :=
  ((a.continues_context hkeeps).trans (continues_setDirectory _ slot b hint)).trans
    (continues_addSection h hs)

theorem continues_addExports {a a' : Assembly} (h : a.addExports.result = .ok a') :
    a.Continues a' := by
  rw [addExports.eq_def] at h
  split at h
  · cases h
    exact .refl a
  · simp only [Logged.bind_eq_ok, Logged.result_liftM, Prod.exists] at h
    obtain ⟨b, c, hb, h⟩ := h
    have hwrites := writes_encodeExports hb
    exact continues_addDirectory hwrites.keeps h
      ((hwrites.written b (by simp)).labelAt _ 0 _)

theorem continues_addResources {a a' : Assembly} (h : a.addResources.result = .ok a') :
    a.Continues a' := by
  rw [addResources.eq_def] at h
  split at h
  · cases h
    exact .refl a
  · simp only [Logged.bind_eq_ok, Logged.result_liftM, Prod.exists] at h
    obtain ⟨b, c, hb, h⟩ := h
    have hwrites := writes_encodeResources hb
    exact continues_addDirectory hwrites.keeps h
      ((hwrites.written b (by simp)).labelAt _ 0 _)

theorem continues_addTls {a a' : Assembly} (h : a.addTls.result = .ok a') : a.Continues a' := by
  rw [addTls.eq_def] at h
  split at h
  · cases h
    exact .refl a
  · simp only [Logged.bind_eq_ok, Logged.result_liftM, Prod.exists] at h
    obtain ⟨b, callbacks, c, hb, h⟩ := h
    have hwrites := writes_encodeTls hb
    exact continues_addDirectory hwrites.keeps h
      (((hwrites.written b (by simp)).labelAt _ 0 _).append (hwrites.written callbacks (by simp)))

/-! ## Imports -/

theorem keeps_mapState {α β : Type} {f : α → Context → β × Context}
    (hf : ∀ (x : α) (c : Context), c.Keeps (f x c).2) (l : List α) (c : Context) :
    c.Keeps (mapState f l c).2 := by
  induction l generalizing c with
  | nil => exact .refl c
  | cons x l ih => exact (hf x c).trans (ih _)

theorem keeps_labelSlot (i : Import) (c : Context) : c.Keeps (labelSlot i c).2 := by
  unfold labelSlot
  cases i.target with
  | some _ => exact .refl c
  | none => exact c.keeps_fresh _

theorem keeps_labelSlots (dirs : List ImportDirectory) (c : Context) :
    c.Keeps (labelSlots dirs c).2 := by
  refine keeps_mapState (fun d c => ?_) dirs c
  exact keeps_mapState keeps_labelSlot d.imports c

theorem continues_addTable {a a' : Assembly} {table : Option Buffer}
    (h : (a.addTable table).result = .ok a') (htable : ∀ b ∈ table, b.FieldsWritten) :
    a.Continues a' := by
  cases table with
  | none =>
    cases h
    exact .refl a
  | some table => exact continues_addSection h (htable table rfl)

theorem continues_addCallStubs {a a' : Assembly} {stubs : Buffer}
    (h : (a.addCallStubs stubs).result = .ok a') (hstubs : stubs.FieldsWritten) :
    a.Continues a' := by
  rw [addCallStubs] at h
  split at h
  · cases h
    exact .refl a
  · exact continues_addSection h hstubs

theorem continues_addParts {a a' : Assembly} {dirs : List ImportDirectory} {tables : List Buffer}
    (h : (a.addParts dirs tables).result = .ok a') (htables : ∀ b ∈ tables, b.FieldsWritten) :
    a.Continues a' := by
  simp only [addParts, Logged.bind_eq_ok, Logged.result_liftM, Logged.result_pure,
    Except.ok.injEq] at h
  obtain ⟨stubs, -, parts, hparts, a₁, h₁, a₂, h₂, rfl⟩ := h
  have hwritten : parts.Written := by
    refine written_collectParts hparts (fun e he => htables _ (List.of_mem_zip he).2) ?_
    exact ⟨fun _ ht => (nomatch ht), fun _ hb => (nomatch hb), Buffer.fieldsWritten_empty⟩
  have hstart : a.Continues
      { a with
        tablesInPlace := parts.inPlace
        context := { a.context with pool := parts.pool } } :=
    ⟨.refl _, ⟨rfl, rfl⟩, rfl, rfl, fun _ t ht => (hwritten.inPlace t ht).inside, fun _ => id⟩
  have hend := (hstart.trans (continues_addTable h₁ hwritten.table)).trans
    (continues_addCallStubs h₂ hwritten.stubs)
  exact ⟨hend.sections, hend.context, hend.header, hend.optionalHeader, hend.tables,
    hend.stable⟩

theorem continues_addImports {a a' : Assembly} (h : a.addImports.result = .ok a') :
    a.Continues a' := by
  rw [addImports.eq_def] at h
  split at h
  · cases h
    exact .refl a
  · cases h
    exact .refl a
  · next dirs _ _ =>
    have hkeeps := keeps_labelSlots dirs a.context
    generalize labelSlots dirs a.context = slots at h hkeeps
    obtain ⟨dirs', c₁⟩ := slots
    simp only [Logged.bind_eq_ok, Logged.result_liftM, Prod.exists] at h
    obtain ⟨b, tables, c₂, himports, a₁, h₁, h₂⟩ := h
    have hwrites := writes_encodeImports himports
    obtain ⟨hdirectory, haddresses⟩ := List.forall_mem_cons.1 hwrites.written
    have hplace := continues_addDirectory (hkeeps.trans hwrites.keeps) h₁
      (hdirectory.labelAt _ 0 _)
    have htables := a₁.continues_setTableDirectory (tableOrder dirs') tables
    have hparts := continues_addParts h₂ (fieldsWritten_setTableDirectory haddresses a₁ _)
    exact (hplace.trans htables).trans hparts

/-! ## Base relocations -/

theorem labelled_sectionTables (b : Binding) (s : Section) (c : Context) :
    s.Labelled (sectionTables b s c).1.1 := by
  unfold sectionTables
  simp only
  split
  · exact .refl s
  · exact s.labelled_labelAt c 0 "sect_start"

/-- Looking for base relocations at most labels the starts of sections. -/
theorem labelled_collectTables (b : Binding) (sections : List Section) (c : Context) :
    List.Forall₂ Section.Labelled sections (collectTables b sections c).sections := by
  induction sections generalizing c with
  | nil => exact .nil
  | cons s rest ih => exact .cons (labelled_sectionTables b s c) (ih _)

theorem continues_findRelocations {a a' : Assembly} {options : EncodeOptions}
    (h : (a.findRelocations options).result = .ok a') : a.Continues a' := by
  rw [findRelocations] at h
  split at h
  · simp only [relocationTables, Logged.bind_eq_ok, Logged.result_liftM, Logged.result_pure,
      Except.ok.injEq] at h
    obtain ⟨r, ⟨b, -, _, -, rfl⟩, rfl⟩ := h
    have hlabelled := labelled_collectTables b a.image.sections a.context
    exact ⟨sectionsGrow_of_labelled hlabelled, keeps_collectTables b _ _, rfl, rfl, id,
      fun hP => hP.of_labelled hlabelled⟩
  · cases h
    exact .refl a

theorem plain_encodeRelocations {f : FieldEncoder} {tables : List RelocationTable} {b : Buffer}
    (h : encodeRelocations f tables = .ok b) : b.Plain := by
  induction tables generalizing b with
  | nil =>
    cases h
    exact Buffer.plain_empty
  | cons t rest ih =>
    simp only [encodeRelocations, encodeRelocationTable, bind_eq_ok, pure_eq_ok] at h
    obtain ⟨first, hfirst, others, hothers, rfl⟩ := h
    exact (FieldEncoder.plain_record hfirst).append (ih hothers)

theorem continues_addRelocations {a a' : Assembly} (h : a.addRelocations.result = .ok a') :
    a.Continues a' := by
  rw [addRelocations.eq_def] at h
  split at h
  · cases h
    exact .refl a
  · simp only [Logged.bind_eq_ok, Logged.result_liftM] at h
    obtain ⟨b, hb, h⟩ := h
    have hplace := (continues_setDirectory _ .baseRelocationTable b "reloc_table").trans
      (continues_addSection h ((plain_encodeRelocations hb).written.labelAt _ 0 _))
    exact ⟨hplace.sections, hplace.context, hplace.header, hplace.optionalHeader, hplace.tables,
      hplace.stable⟩

/-! ## All steps -/

/-- The image when base relocations are looked for: with all directories but this one. -/
def beforeRelocations (a : Assembly) (options : EncodeOptions) : Logged EncodeError Assembly := do
  let a ← a.addAutoImports options.catalog
  let a ← a.addExports
  let a ← a.addImports
  let a ← a.addResources
  a.addTls

theorem result_withDirectories (a : Assembly) (options : EncodeOptions) :
    (a.withDirectories options).result = (a.beforeRelocations options).result >>= fun a₀ =>
      (a₀.findRelocations options).result >>= fun a₁ => a₁.addRelocations.result := by
  simp only [withDirectories, beforeRelocations, Logged.result_bind, bind_assoc]

theorem withDirectories_eq_ok {a a' : Assembly} {options : EncodeOptions} :
    (a.withDirectories options).result = .ok a' ↔
      ∃ a₀ a₁, (a.beforeRelocations options).result = .ok a₀ ∧
        (a₀.findRelocations options).result = .ok a₁ ∧ a₁.addRelocations.result = .ok a' := by
  simp only [result_withDirectories, bind_eq_ok]
  exact exists_congr fun a₀ => exists_and_left.symm

theorem continues_beforeRelocations {a a' : Assembly} {options : EncodeOptions}
    (h : (a.beforeRelocations options).result = .ok a') : a.Continues a' := by
  simp only [beforeRelocations, Logged.bind_eq_ok] at h
  obtain ⟨b, hb, c, hc, d, hd, e, he, hf⟩ := h
  exact ((((continues_addAutoImports hb).trans (continues_addExports hc)).trans
    (continues_addImports hd)).trans (continues_addResources he)).trans (continues_addTls hf)

/-- **What the caller described stays in its place while directories are generated.** -/
theorem continues_withDirectories {a a' : Assembly} {options : EncodeOptions}
    (h : (a.withDirectories options).result = .ok a') : a.Continues a' := by
  obtain ⟨a₀, a₁, h₀, h₁, h₂⟩ := withDirectories_eq_ok.1 h
  exact ((continues_beforeRelocations h₀).trans (continues_findRelocations h₁)).trans
    (continues_addRelocations h₂)

end Assembly

end PortableImage
