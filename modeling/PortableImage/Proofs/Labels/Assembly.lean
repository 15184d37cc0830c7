import PortableImage.Proofs.Encode.Assembly
import PortableImage.Proofs.Labels.Imports

/-!
# Labels of an assembled image

Each directory is written with fresh labels and, for the import directory, with the labels of the
imports.  So no label is used more often than it is noted, except where the caller's labels are
taken without a note: the call stubs that automatic imports ask for, and the helper of call stubs.

* `Assembly.labels` — the labels of the sections and of the address tables beside them.
* `Assembly.Adds` — what one step does to them.
* `Assembly.Labelled` — where the labels of an assembled image come from;
  `labelled_withDirectories` says that every assembled image has its labels from there.
-/

set_option autoImplicit false

namespace PortableImage

open LabelPool Buffer

/-! ## Sections -/

theorem definedLabels_eq (l : List Section) :
    definedLabels l = l.flatMap fun s => s.content.labels := rfl

/-- A generated section adds its labels to those that are there. -/
theorem count_definedLabels_appendSection (l : List Section) (s : Section) (name : String) :
    (definedLabels (appendSection l s).1).count name =
      (definedLabels l).count name + s.content.labels.count name := by
  simp only [definedLabels_eq]
  obtain ⟨i, t, ht, -, -, h⟩ | h := appendSection_cases l s
  · have hi := (List.getElem?_eq_some_iff.1 ht).1
    rw [h, List.modify_eq_take_cons_drop hi]
    conv_rhs => rw [← List.take_append_drop i l, List.drop_eq_getElem_cons hi]
    simp only [List.flatMap_append, List.flatMap_cons, List.count_append, Section.merge,
      labels_append, labels_align]
    omega
  · rw [h, List.flatMap_append, List.flatMap_singleton, List.count_append]

namespace Assembly

/-- The labels of the sections and of the address tables with a place of their own. -/
def labels (a : Assembly) : List String :=
  definedLabels a.image.sections ++ a.tablesInPlace.flatMap fun t => t.2.labels

/-- One step: what it writes has the labels that were there and fresh ones; the imports, and whether
call stubs depend on the address, are as they were. -/
structure Adds (X : String → Prop) (a a' : Assembly) : Prop where
  brings : Brings X a.context.pool a.labels a'.context.pool a'.labels
  start : a'.context.start = a.context.start
  imports : a'.image.imports = a.image.imports
  pic : a'.image.pic = a.image.pic

variable {X : String → Prop}

theorem Adds.refl (a : Assembly) : Adds X a a := ⟨.refl _ _, rfl, rfl, rfl⟩

theorem Adds.trans {a b c : Assembly} (hab : Adds X a b) (hbc : Adds X b c) : Adds X a c :=
  ⟨hab.brings.trans hbc.brings, hbc.start.trans hab.start, hbc.imports.trans hab.imports,
    hbc.pic.trans hab.pic⟩

theorem labels_addSection {a a' : Assembly} {s : Section}
    (h : (a.addSection s).result = .ok a') :
    a'.context = a.context ∧ a'.tablesInPlace = a.tablesInPlace ∧ a'.image.pic = a.image.pic ∧
      ∀ name, (definedLabels a'.image.sections).count name =
        (definedLabels a.image.sections).count name + s.content.labels.count name := by
  cases h
  exact ⟨rfl, rfl, rfl, count_definedLabels_appendSection _ _⟩

/-- A section is added whose labels come from the step that wrote its content. -/
theorem adds_addSection {a b a' : Assembly} {s : Section}
    (h : (b.addSection s).result = .ok a')
    (hb : Brings X a.context.pool a.labels b.context.pool (s.content.labels ++ b.labels))
    (hstart : b.context.start = a.context.start) (himports : b.image.imports = a.image.imports)
    (hpic : b.image.pic = a.image.pic) : Adds X a a' := by
  rw [result_addSection] at h
  cases h
  refine ⟨hb.of_le (fun _ => Nat.le_refl _) fun l => ?_, hstart, himports, hpic⟩
  simp only [labels, List.count_append, count_definedLabels_appendSection]
  omega

/-- A directory that has been written is labelled and put into a section, with more behind it. -/
theorem adds_addDirectory {a a' : Assembly} {c : Context} {slot : DirectorySlot} {b : Buffer}
    {bs : List Buffer} {behind : List String} {hint : String} {s : Section}
    (hw : a.context.Writes [] bs c) (hbs : bs.flatMap Buffer.labels = b.labels ++ behind)
    (hhint : IsEncoderHint hint)
    (h : ((({ a with context := c } : Assembly).setDirectory slot b hint).1.addSection s).result =
      .ok a')
    (hs : s.content.labels = (c.labelAt b 0 hint).2.2.labels ++ behind) : Adds X a a' := by
  have hdirectory : Brings X a.context.pool [] (c.labelAt b 0 hint).2.1.pool
      ((c.labelAt b 0 hint).2.2.labels ++ behind) := by
    have hlabel := (c.brings_labelAt (X := X) b 0 hhint).frame behind
    rw [← hbs] at hlabel
    exact hw.brings.trans hlabel
  refine adds_addSection h ?_ hw.keeps.2 rfl rfl
  rw [hs]
  exact hdirectory.frame a.labels

theorem adds_addExports {a a' : Assembly} (h : a.addExports.result = .ok a') : Adds X a a' := by
  rw [addExports.eq_def] at h
  split at h
  · cases h
    exact .refl a
  · simp only [Logged.bind_eq_ok, Logged.result_liftM, Prod.exists] at h
    obtain ⟨b, c, hb, h⟩ := h
    exact adds_addDirectory (writes_encodeExports hb) rfl (by decide) h (List.append_nil _).symm

theorem adds_addResources {a a' : Assembly} (h : a.addResources.result = .ok a') :
    Adds X a a' := by
  rw [addResources.eq_def] at h
  split at h
  · cases h
    exact .refl a
  · simp only [Logged.bind_eq_ok, Logged.result_liftM, Prod.exists] at h
    obtain ⟨b, c, hb, h⟩ := h
    exact adds_addDirectory (writes_encodeResources hb) rfl (by decide) h (List.append_nil _).symm

theorem adds_addTls {a a' : Assembly} (h : a.addTls.result = .ok a') : Adds X a a' := by
  rw [addTls.eq_def] at h
  split at h
  · cases h
    exact .refl a
  · simp only [Logged.bind_eq_ok, Logged.result_liftM, Prod.exists] at h
    obtain ⟨b, callbacks, c, hb, h⟩ := h
    have hlabels : [b, callbacks].flatMap Buffer.labels = b.labels ++ callbacks.labels := by
      rw [List.flatMap_cons, List.flatMap_singleton]
    exact adds_addDirectory (writes_encodeTls hb) hlabels (by decide) h (labels_append _ _)

/-! ## Base relocations -/

theorem brings_sectionTables (b : Binding) (s : Section) (c : Context) :
    Brings X c.pool s.content.labels (sectionTables b s c).2.pool
      (sectionTables b s c).1.1.content.labels := by
  rw [sectionTables]
  dsimp only
  split
  · exact .refl _ _
  · exact c.brings_labelAt s.content 0 (by decide)

theorem brings_collectTables (b : Binding) (sections : List Section) (c : Context) :
    Brings X c.pool (definedLabels sections) (collectTables b sections c).context.pool
      (definedLabels (collectTables b sections c).sections) := by
  induction sections generalizing c with
  | nil => exact .refl _ _
  | cons s rest ih =>
    have hfirst := (brings_sectionTables (X := X) b s c).frame (definedLabels rest)
    have hrest := (ih (sectionTables b s c).2).frame (sectionTables b s c).1.1.content.labels
    have hlabels : definedLabels (collectTables b (s :: rest) c).sections =
      (sectionTables b s c).1.1.content.labels ++
        definedLabels (collectTables b rest (sectionTables b s c).2).sections := rfl
    refine hfirst.trans (hrest.of_le (fun l => ?_) fun l => ?_)
    · rw [List.count_append, List.count_append]
      omega
    · rw [hlabels, List.count_append, List.count_append]
      omega

theorem adds_findRelocations {a a' : Assembly} {options : EncodeOptions}
    (h : (a.findRelocations options).result = .ok a') : Adds X a a' := by
  rw [findRelocations] at h
  split at h
  · simp only [relocationTables, Logged.bind_eq_ok, Logged.result_liftM, Logged.result_pure,
      Except.ok.injEq] at h
    obtain ⟨r, ⟨b, -, _, -, rfl⟩, rfl⟩ := h
    exact ⟨(brings_collectTables b a.image.sections a.context).frame _,
      (keeps_collectTables b a.image.sections a.context).2, rfl, rfl⟩
  · cases h
    exact .refl a

theorem adds_addRelocations {a a' : Assembly} (h : a.addRelocations.result = .ok a') :
    Adds X a a' := by
  rw [addRelocations.eq_def] at h
  split at h
  · cases h
    exact .refl a
  · simp only [Logged.bind_eq_ok, Logged.result_liftM] at h
    obtain ⟨b, hb, h⟩ := h
    have hlabel := a.context.brings_labelAt (X := X) b 0 (by decide : IsEncoderHint "reloc_table")
    rw [(plain_encodeRelocations hb).labels_eq] at hlabel
    exact adds_addSection h (hlabel.frame a.labels) rfl rfl rfl

end Assembly

/-! ## Call stubs -/

namespace StubEncoder

variable {X : String → Prop}

/-- The helper is noted, but not that it is new: it is what may be used too often. -/
theorem brings_withHelper (pool : LabelPool) (plt : Buffer) (sections : List Section) :
    Brings (· = helperLabel) pool plt.labels (withHelper pool plt sections).1
      (withHelper pool plt sections).2.labels := by
  rw [withHelper]
  split
  · have hnotes : Notes IsEncoderHint pool (pool.reserve helperLabel).2 :=
      pool.notes_reserve (by decide : IsEncoderHint helperLabel) (.inl (by decide))
    refine ⟨hnotes, fun l hl => ?_, fun l hl => ?_⟩
    · have hcount : [helperLabel].count l = 0 :=
        List.count_eq_zero_of_not_mem fun h => hl (List.mem_singleton.1 h)
      have hknown := hnotes.pays plt.labels l
      rw [Pays] at hknown ⊢
      rw [labels_extend, labels_addExport, List.count_append, hcount]
      exact hknown
    · rw [labels_extend, labels_addExport, List.mem_append, List.mem_singleton] at hl
      refine hl.imp_right fun heq => ?_
      rw [heq]
      exact pool.mem_known_reserve helperLabel
  · exact .refl _ _

theorem labels_absoluteStub (plt : Buffer) (thunk target : String) :
    (absoluteStub plt thunk target).labels = plt.labels ++ [thunk] := by
  simp [absoluteStub]

theorem labels_relativeStub (plt : Buffer) (thunk target : String) :
    (relativeStub plt thunk target).labels = plt.labels ++ [thunk] := by
  simp [relativeStub, distance]

/-- A call stub has the label that the import gives it. -/
theorem brings_encode {e : StubEncoder} {pool pool' : LabelPool} {plt plt' : Buffer}
    {symbol : Import} {sections : List Section}
    (h : e.encode pool plt symbol sections = .ok (pool', plt')) :
    Brings (fun l => e.pic = true ∧ l = helperLabel) pool (plt.labels ++ symbol.thunk.toList)
      pool' plt'.labels := by
  rw [encode.eq_def] at h
  dsimp only at h
  split at h
  · next hthunk =>
    cases h
    rw [hthunk, Option.toList_none, List.append_nil]
    exact .refl _ _
  · cases h
  · next thunk target hthunk _ =>
    rw [hthunk, Option.toList_some]
    split at h
    · next hpic =>
      cases h
      rw [labels_relativeStub]
      exact ((brings_withHelper pool plt sections).mono fun l hl => ⟨hpic, hl⟩).frame [thunk]
    · cases h
      rw [labels_absoluteStub]
      exact .refl _ _

end StubEncoder

/-! ## Imports -/

/-- The labels of the call stubs of a library. -/
def stubLabels (dir : ImportDirectory) : List String := dir.imports.filterMap (·.thunk)

theorem count_filterMap_cons {α : Type} (f : α → Option String) (a : α) (l : List α)
    (name : String) : ((a :: l).filterMap f).count name =
      (f a).toList.count name + (l.filterMap f).count name := by
  rw [List.filterMap_cons]
  cases f a with
  | none => simp
  | some x =>
    show (x :: l.filterMap f).count name = [x].count name + (l.filterMap f).count name
    rw [← List.count_append, List.singleton_append]

/-- The labels of imports are those of their slots and those of their call stubs. -/
theorem count_importLabels (dirs : List ImportDirectory) (name : String) :
    (Assembly.importLabels dirs).count name =
      (dirs.flatMap slotLabels).count name + (dirs.flatMap stubLabels).count name := by
  have himports : ∀ l : List Import, (l.flatMap Import.labels).count name =
      (l.filterMap (·.target)).count name + (l.filterMap (·.thunk)).count name := by
    intro l
    induction l with
    | nil => rfl
    | cons i l ih =>
      rw [List.flatMap_cons, List.count_append, ih, Import.labels, List.count_append,
        count_filterMap_cons, count_filterMap_cons]
      omega
  rw [importLabels_eq]
  induction dirs with
  | nil => rfl
  | cons d dirs ih =>
    simp only [List.flatMap_cons, List.count_append, ih, ImportDirectory.labels, himports,
      slotLabels, stubLabels]
    omega

/-- What helpers of call stubs may collide with: the helper is taken without a look at whether it is
new. -/
def Collides (pic : Bool) (l : String) : Prop := pic = true ∧ l = helperLabel

namespace Assembly

/-- The labels of the address tables and of the call stubs. -/
def ImportParts.labels (parts : ImportParts) : List String :=
  parts.inPlace.flatMap (fun t => t.2.labels) ++ parts.table.toList.flatMap Buffer.labels
    ++ parts.stubs.labels

theorem brings_addStubs {stubs : Option StubEncoder} {sections : List Section} {is : List Import}
    {parts parts' : ImportParts} {pic : Bool} (hpic : ∀ e ∈ stubs, e.pic = pic)
    (h : addStubs stubs sections is parts = .ok parts') :
    Brings (Collides pic) parts.pool (ImportParts.labels parts ++ is.filterMap (·.thunk))
      parts'.pool (ImportParts.labels parts') := by
  induction is generalizing parts with
  | nil =>
    cases h
    rw [List.filterMap_nil, List.append_nil]
    exact .refl _ _
  | cons i rest ih =>
    rw [addStubs.eq_def] at h
    cases stubs with
    | none =>
      cases h
      refine Brings.of_le (.refl _ _) (fun l => ?_) fun l => Nat.le_refl _
      rw [List.count_append]
      omega
    | some e =>
      simp only [bind_eq_ok, Prod.exists] at h
      obtain ⟨pool, plt, hencode, h⟩ := h
      have hfirst := StubEncoder.brings_encode hencode
      rw [hpic e rfl] at hfirst
      have hframe := hfirst.frame (parts.inPlace.flatMap (fun t => t.2.labels) ++
        parts.table.toList.flatMap Buffer.labels ++ rest.filterMap (·.thunk))
      refine (hframe.of_le (fun l => ?_) fun l => ?_).trans (ih h)
      · simp only [ImportParts.labels, List.count_append, count_filterMap_cons]
        omega
      · simp only [ImportParts.labels, List.count_append]
        omega

theorem brings_collectParts {stubs : Option StubEncoder} {sections : List Section}
    {l : List (ImportDirectory × Buffer)} {parts parts' : ImportParts} {pic : Bool}
    (hpic : ∀ e ∈ stubs, e.pic = pic)
    (h : collectParts stubs sections l parts = .ok parts') :
    Brings (Collides pic) parts.pool
      (ImportParts.labels parts ++ l.flatMap fun e => e.2.labels ++ stubLabels e.1) parts'.pool
      (ImportParts.labels parts') := by
  induction l generalizing parts with
  | nil =>
    cases h
    rw [List.flatMap_nil, List.append_nil]
    exact .refl _ _
  | cons e rest ih =>
    obtain ⟨dir, table⟩ := e
    simp only [collectParts, bind_eq_ok] at h
    obtain ⟨next, hnext, hrest⟩ := h
    have hframe := (brings_addStubs hpic hnext).frame
      (rest.flatMap fun e => e.2.labels ++ stubLabels e.1)
    refine Brings.trans ?_ (ih hrest)
    -- the table of the library stands beside the others or behind them
    cases hplace : fixedPlace sections dir with
    | some rva =>
      rw [hplace] at hframe
      refine hframe.of_le (fun l => ?_) fun l => Nat.le_refl _
      simp only [ImportParts.labels, List.count_append, List.flatMap_append, List.flatMap_cons,
        List.flatMap_nil, List.append_nil, stubLabels]
      omega
    | none =>
      rw [hplace] at hframe
      refine hframe.of_le (fun l => ?_) fun l => Nat.le_refl _
      cases ht : parts.table with
      | none =>
        simp only [ImportParts.labels, ht, List.count_append, List.flatMap_cons, Option.toList_some,
          Option.toList_none, Option.getD_none, List.flatMap_nil, List.append_nil, labels_append,
          labels_empty, List.count_nil, stubLabels]
        omega
      | some t =>
        simp only [ImportParts.labels, ht, List.count_append, List.flatMap_cons, Option.toList_some,
          Option.getD_some, List.flatMap_nil, List.append_nil, labels_append, stubLabels]
        omega

theorem brings_labelIn {X : String → Prop} {tables tables' : List Buffer} {index : Nat}
    {offset : Buffer → Nat} {hint label : String} {c c' : Context} (hhint : IsEncoderHint hint)
    (hl : labelIn tables index offset hint c = (label, tables', c')) :
    Brings X c.pool (tables.flatMap Buffer.labels) c'.pool (tables'.flatMap Buffer.labels) := by
  have htables : tables' = tables.set index (c.labelAt (tables[index]?.getD .empty)
    (offset (tables[index]?.getD .empty)) hint).2.2 := (congrArg (·.2.1) hl).symm
  have hcontext : c' = (c.labelAt (tables[index]?.getD .empty)
    (offset (tables[index]?.getD .empty)) hint).2.1 := (congrArg (·.2.2) hl).symm
  rw [htables, hcontext]
  by_cases hi : index < tables.length
  · rw [List.getElem?_eq_getElem hi, Option.getD_some]
    have hlabel := (c.brings_labelAt (X := X) tables[index] (offset tables[index]) hhint).frame
      ((tables.take index ++ tables.drop (index + 1)).flatMap Buffer.labels)
    refine hlabel.of_le (fun l => ?_) fun l => ?_
    · conv_rhs => rw [← List.take_append_drop index tables, List.drop_eq_getElem_cons hi]
      simp only [List.flatMap_append, List.flatMap_cons, List.count_append]
      omega
    · rw [List.set_eq_take_cons_drop _ hi]
      simp only [List.flatMap_append, List.flatMap_cons, List.count_append]
      omega
  · rw [List.set_eq_of_length_le (Nat.le_of_not_lt hi)]
    exact brings_of_pays (c.notes_labelAt _ _ hhint) fun l =>
      (c.notes_labelAt _ _ hhint).pays _ l

theorem adds_setTableDirectory {X : String → Prop} (a : Assembly) (order : List Nat)
    (tables : List Buffer) :
    Brings X a.context.pool (tables.flatMap Buffer.labels)
        (a.setTableDirectory order tables).1.context.pool
        ((a.setTableDirectory order tables).2.flatMap Buffer.labels) ∧
      (a.setTableDirectory order tables).1.image.sections = a.image.sections ∧
      (a.setTableDirectory order tables).1.image.pic = a.image.pic ∧
      (a.setTableDirectory order tables).1.context.start = a.context.start := by
  obtain h | ⟨_, _, _, _, _, _, _, _, _, h₁, h₂, h⟩ := a.setTableDirectory_cases order tables
  · rw [h]
    exact ⟨.refl _ _, rfl, rfl, rfl⟩
  · rw [h]
    exact ⟨(brings_labelIn (by decide) h₁).trans (brings_labelIn (by decide) h₂), rfl, rfl,
      ((keeps_labelIn h₁).trans (keeps_labelIn h₂)).2⟩

theorem pic_of_stubEncoder {image : Image} {dirs : List ImportDirectory}
    {stubs : Option StubEncoder} (h : stubEncoder image dirs = .ok stubs) :
    ∀ e ∈ stubs, e.pic = image.pic := by
  intro e he
  unfold stubEncoder at h
  split at h
  · obtain ⟨e', hforMachine, rfl⟩ := map_eq_ok.1 h
    cases he
    unfold StubEncoder.forMachine at hforMachine
    split at hforMachine
    · cases hforMachine
      rfl
    · exact nomatch hforMachine
  · cases h
    exact nomatch he

theorem count_zip_le (dirs : List ImportDirectory) (tables : List Buffer) (name : String) :
    ((dirs.zip tables).flatMap fun e => e.2.labels ++ stubLabels e.1).count name ≤
      (tables.flatMap Buffer.labels ++ dirs.flatMap stubLabels).count name := by
  induction dirs generalizing tables with
  | nil => simp
  | cons d dirs ih =>
    cases tables with
    | nil => simp
    | cons t tables =>
      have hrest := ih tables
      simp only [List.zip_cons_cons, List.flatMap_cons, List.count_append] at hrest ⊢
      omega

theorem labels_addTable {a a' : Assembly} {table : Option Buffer}
    (h : (a.addTable table).result = .ok a') :
    a'.context = a.context ∧ a'.tablesInPlace = a.tablesInPlace ∧ a'.image.pic = a.image.pic ∧
      ∀ name, (definedLabels a'.image.sections).count name =
        (definedLabels a.image.sections).count name +
          (table.toList.flatMap Buffer.labels).count name := by
  cases table with
  | none =>
    cases h
    exact ⟨rfl, rfl, rfl, fun _ => rfl⟩
  | some table =>
    rw [Option.toList_some, List.flatMap_singleton]
    exact labels_addSection h

theorem labels_addCallStubs {a a' : Assembly} {stubs : Buffer}
    (h : (a.addCallStubs stubs).result = .ok a') :
    a'.context = a.context ∧ a'.tablesInPlace = a.tablesInPlace ∧ a'.image.pic = a.image.pic ∧
      ∀ name, (definedLabels a'.image.sections).count name ≤
        (definedLabels a.image.sections).count name + stubs.labels.count name := by
  rw [addCallStubs] at h
  split at h
  · cases h
    exact ⟨rfl, rfl, rfl, fun _ => Nat.le_add_right _ _⟩
  · obtain ⟨hcontext, htables, hpic, hcount⟩ := labels_addSection h
    exact ⟨hcontext, htables, hpic, fun name => Nat.le_of_eq (hcount name)⟩

/-- The address tables and the call stubs of the libraries have the labels that these give them. -/
theorem brings_addParts {a a' : Assembly} {dirs : List ImportDirectory} {tables : List Buffer}
    (h : (a.addParts dirs tables).result = .ok a') :
    Brings (Collides a.image.pic) a.context.pool
        (tables.flatMap Buffer.labels ++ dirs.flatMap stubLabels ++ definedLabels a.image.sections)
        a'.context.pool a'.labels ∧
      a'.context.start = a.context.start ∧ a'.image.imports = some dirs ∧
      a'.image.pic = a.image.pic := by
  simp only [addParts, Logged.bind_eq_ok, Logged.result_liftM, Logged.result_pure,
    Except.ok.injEq] at h
  obtain ⟨stubs, hstubs, parts, hparts, a₁, h₁, a₂, h₂, rfl⟩ := h
  have hbrings := brings_collectParts (pic_of_stubEncoder hstubs) hparts
  obtain ⟨hcontext₁, htables₁, hpic₁, hcount₁⟩ := labels_addTable h₁
  obtain ⟨hcontext₂, htables₂, hpic₂, hcount₂⟩ := labels_addCallStubs h₂
  dsimp only at hcontext₁ htables₁ hpic₁ hcount₁ ⊢
  rw [hcontext₂, hcontext₁]
  refine ⟨(hbrings.frame (definedLabels a.image.sections)).of_le (fun l => ?_) fun l => ?_, rfl,
    rfl, hpic₂.trans hpic₁⟩
  · have hzip := count_zip_le dirs tables l
    rw [List.count_append] at hzip
    simp only [ImportParts.labels, List.count_append, List.flatMap_nil, Option.toList_none,
      labels_empty, List.count_nil]
    omega
  · have hle₁ := hcount₁ l
    have hle₂ := hcount₂ l
    simp only [labels, ImportParts.labels, List.count_append, htables₂, htables₁]
    omega

/-- **The import directory, the address tables and the call stubs have the labels of the imports and
fresh ones.**  The slots that had no label get fresh ones first. -/
theorem brings_addImports {a a' : Assembly} (h : a.addImports.result = .ok a') :
    ∃ p, Connects (fun _ => False) a.context.pool (importLabels (a.image.imports.getD [])) p
        (importLabels (a'.image.imports.getD [])) ∧
      Brings (Collides a.image.pic) p (importLabels (a'.image.imports.getD []) ++ a.labels)
        a'.context.pool a'.labels ∧
      a'.context.start = a.context.start ∧ a'.image.pic = a.image.pic := by
  rw [addImports.eq_def] at h
  split at h
  · next hnone =>
    cases h
    refine ⟨a.context.pool, .refl _ _, ?_, rfl, rfl⟩
    rw [hnone]
    exact .refl _ _
  · next hnil =>
    cases h
    refine ⟨a.context.pool, .refl _ _, ?_, rfl, rfl⟩
    rw [hnil]
    exact .refl _ _
  · next dirs _ himports =>
    have hconnects := connects_labelSlots (X := fun _ => False) dirs a.context
    have hkeeps := keeps_labelSlots dirs a.context
    generalize labelSlots dirs a.context = slots at h hconnects hkeeps
    obtain ⟨dirs', c₁⟩ := slots
    simp only [Logged.bind_eq_ok, Logged.result_liftM, Prod.exists] at h
    obtain ⟨b, tables, c₂, hencode, a₁, h₁, h₂⟩ := h
    have hwrites := writes_encodeImports hencode
    have hlabel := c₂.brings_labelAt (X := Collides a.image.pic) b 0
      (by decide : IsEncoderHint "idata")
    obtain ⟨hcontext, -, hpic₁, hcount⟩ := labels_addSection h₁
    obtain ⟨htables, hsections, hpic₂, hstart₂⟩ := adds_setTableDirectory
      (X := Collides a.image.pic) a₁ (tableOrder dirs') tables
    obtain ⟨hparts, hstart, hdirs, hpic⟩ := brings_addParts h₂
    have hpic' : a₁.image.pic = a.image.pic := hpic₁
    have hcontext' : a₁.context = (c₂.labelAt b 0 "idata").2.1 := hcontext
    rw [hsections, hpic₂, hpic'] at hparts
    rw [hcontext'] at htables hstart₂
    rw [himports, hdirs]
    refine ⟨c₁.pool, hconnects, ?_, hstart.trans (hstart₂.trans
      (hwrites.keeps.2.trans hkeeps.2)), hpic.trans (hpic₂.trans hpic')⟩
    -- the directory and the tables are written; the labels of the call stubs are left
    let others := tables.flatMap Buffer.labels ++ dirs'.flatMap stubLabels ++
      definedLabels a.image.sections
    have hdirectory : Brings (Collides a.image.pic) c₁.pool (importLabels dirs' ++ a.labels)
        c₂.pool (b.labels ++ others) := by
      refine (hwrites.brings.frame (dirs'.flatMap stubLabels ++
        definedLabels a.image.sections)).of_le (fun l => ?_) fun l => ?_
      · simp only [labels, List.count_append, count_importLabels]
        omega
      · simp only [others, List.flatMap_cons, List.count_append]
        omega
    refine hdirectory.trans ((hlabel.frame others).trans (Brings.trans ?_ hparts))
    refine (htables.frame (dirs'.flatMap stubLabels ++ definedLabels a₁.image.sections)).of_le
      (fun l => ?_) fun l => ?_
    · have heq : (definedLabels a₁.image.sections).count l =
          (definedLabels a.image.sections).count l +
            (c₂.labelAt b 0 "idata").2.2.labels.count l := hcount l
      simp only [others, List.count_append]
      omega
    · simp only [List.count_append]
      omega

/-! ## All steps -/

/-- The call stubs that the options make automatic imports ask for. -/
def StubAdded (image : Image) (options : EncodeOptions) (l : String) : Prop :=
  ∃ catalog, options.catalog = some catalog ∧ StubRequested image.sections catalog l

theorem connects_addAutoImports {a a' : Assembly} {catalog : Option Catalog}
    (h : (a.addAutoImports catalog).result = .ok a') :
    Connects (fun l => ∃ c, catalog = some c ∧ StubRequested a.image.sections c l) a.context.pool
        (importLabels (a.image.imports.getD [])) a'.context.pool
        (importLabels (a'.image.imports.getD [])) ∧
      a'.labels = a.labels ∧ a'.context.start = a.context.start ∧ a'.image.pic = a.image.pic := by
  cases catalog with
  | none =>
    cases h
    exact ⟨.refl _ _, rfl, rfl, rfl⟩
  | some catalog =>
    cases h
    exact ⟨(connects_autoImport _ _ _ catalog).mono fun l hl => ⟨catalog, rfl, hl⟩, rfl, rfl, rfl⟩

theorem known_start (image : Image) (now : UInt32) :
    (start image now).context.pool.known = (start image now).context.start ::
      (LabelPool.empty.reserveAll
        (definedLabels image.sections ++ importLabels (image.imports.getD []))).known :=
  known_fresh _ _

theorem mem_known_start {image : Image} {now : UInt32} {l : String} :
    l ∈ (start image now).context.pool.known ↔ l = (start image now).context.start ∨
      l ∈ definedLabels image.sections ∨ l ∈ importLabels (image.imports.getD []) := by
  rw [known_start, List.mem_cons, mem_known_reserveAll, List.mem_append]
  simp [LabelPool.empty]

theorem nodup_known_start (image : Image) (now : UInt32) :
    (start image now).context.pool.known.Nodup := by
  rw [known_start]
  exact List.nodup_cons.2 ⟨fresh_notMem _ _, nodup_reserveAll List.nodup_nil _⟩

/-- Labels of the caller that are pairwise distinct are used as often as they are noted. -/
theorem count_start_le {image : Image} (now : UInt32)
    (h : (definedLabels image.sections ++ importLabels (image.imports.getD [])).Nodup)
    (l : String) :
    ((start image now).context.start :: (definedLabels image.sections ++
      importLabels (image.imports.getD []))).count l ≤
        (start image now).context.pool.known.count l := by
  rw [known_start, List.count_cons, List.count_cons]
  refine Nat.add_le_add_right ?_ _
  by_cases hl : l ∈ definedLabels image.sections ++ importLabels (image.imports.getD [])
  · rw [List.count_eq_one_of_mem h hl]
    exact List.count_pos_iff.2 (mem_known_reserveAll.2 (.inr hl))
  · rw [List.count_eq_zero_of_not_mem hl]
    exact Nat.zero_le _

/-- Where the labels of an assembled image come from. -/
structure Labelled (image : Image) (options : EncodeOptions) (a : Assembly) : Prop where
  nodup : a.context.pool.known.Nodup
  pays : (definedLabels image.sections ++ importLabels (image.imports.getD [])).Nodup →
    ∀ l, ¬Collides image.pic l → ¬StubAdded image options l →
    (a.context.start :: a.labels).count l ≤ a.context.pool.known.count l
  noted : ∀ l ∈ a.context.start :: a.labels,
    l ∈ a.context.pool.known ∨ l ∈ importLabels (a.image.imports.getD [])
  imports : ∀ l ∈ importLabels (a.image.imports.getD []),
    l ∈ a.context.pool.known ∨ StubAdded image options l
  named : ∀ l ∈ a.context.pool.known, l ∈ definedLabels image.sections ∨
    l ∈ importLabels (a.image.imports.getD []) ∨ IsEncoderLabel l

/-- A step that takes fresh labels keeps this. -/
theorem Labelled.adds {image : Image} {options : EncodeOptions} {a b : Assembly}
    (h : Labelled image options a) (hadds : Adds (fun _ => False) a b) :
    Labelled image options b where
  nodup := hadds.brings.notes.nodup h.nodup
  pays hnodup l hcollides hstub := by
    have hbefore := h.pays hnodup l hcollides hstub
    have hstep := hadds.brings.pays l id
    rw [hadds.start]
    unfold Pays at hstep
    simp only [List.count_cons] at *
    omega
  noted l hl := by
    have hknown := hadds.brings.notes.known.subset
    rw [hadds.start] at hl
    rw [hadds.imports]
    rcases List.mem_cons.1 hl with rfl | hl
    · exact (h.noted _ List.mem_cons_self).imp_left fun hl => hknown hl
    · rcases hadds.brings.noted l hl with hl | hl
      · exact (h.noted l (List.mem_cons_of_mem _ hl)).imp_left fun hl => hknown hl
      · exact .inl hl
  imports l hl := by
    rw [hadds.imports] at hl
    exact (h.imports l hl).imp_left fun hl => hadds.brings.notes.known.subset hl
  named l hl := by
    rw [hadds.imports]
    rcases hadds.brings.notes.named l hl with hl | ⟨hint, hhint, hl⟩
    · exact h.named l hl
    · exact .inr (.inr (isEncoderLabel_of_namedAfter hhint hl))

/-- Automatic imports, exports and imports: what they have is noted at the start, or fresh, or taken
from an import. -/
theorem labelled_addImports {image : Image} {options : EncodeOptions} {now : UInt32}
    {a₁ a₂ a₃ : Assembly} (h₁ : ((start image now).addAutoImports options.catalog).result = .ok a₁)
    (h₂ : a₁.addExports.result = .ok a₂) (h₃ : a₂.addImports.result = .ok a₃) :
    Labelled image options a₃ := by
  obtain ⟨hauto, hlabels₁, hstart₁, hpic₁⟩ := connects_addAutoImports h₁
  have hexports := adds_addExports (X := fun _ => False) h₂
  obtain ⟨p, hslots, hparts, hstart₃, hpic₃⟩ := brings_addImports h₃
  have hpic₂ : a₂.image.pic = image.pic := hexports.pic.trans hpic₁
  have hstart : a₃.context.start = (start image now).context.start :=
    hstart₃.trans (hexports.start.trans hstart₁)
  have hlabels : (start image now).labels = definedLabels image.sections := List.append_nil _
  rw [show (start image now).image.imports = image.imports from rfl] at hauto
  rw [hlabels] at hlabels₁
  rw [hpic₂] at hparts
  rw [hexports.imports] at hslots
  -- what was in use at the start is in use at the end
  have hlast : p.known ⊆ a₃.context.pool.known := hparts.notes.known.subset
  have hknown : (start image now).context.pool.known ⊆ a₃.context.pool.known :=
    ((hauto.notes.known.trans (hexports.brings.notes.known.trans hslots.notes.known)).trans
      hparts.notes.known).subset
  refine
    { nodup := ?_
      pays := fun hnodup l hcollides hstub => ?_
      noted := fun l hl => ?_
      imports := fun l hl => ?_
      named := fun l hl => ?_ }
  · exact hparts.notes.nodup (hslots.notes.nodup
      (hexports.brings.notes.nodup (hauto.notes.nodup (nodup_known_start image now))))
  · have h₀ := count_start_le now hnodup l
    have h₁ := hauto.pays l hstub
    have h₂ := hexports.brings.pays l id
    have h₃ := hslots.pays l id
    have h₄ := hparts.pays l hcollides
    rw [hlabels₁] at h₂
    rw [hstart]
    unfold Pays at *
    simp only [List.count_cons, List.count_append] at *
    omega
  · rcases List.mem_cons.1 hl with rfl | hl
    · exact .inl (hknown (mem_known_start.2 (.inl hstart)))
    · rcases hparts.noted l hl with hl | hl
      · rcases List.mem_append.1 hl with hl | hl
        · exact .inr hl
        · rcases hexports.brings.noted l hl with hl | hl
          · rw [hlabels₁] at hl
            exact .inl (hknown (mem_known_start.2 (.inr (.inl hl))))
          · exact .inl (hlast (hslots.notes.known.subset hl))
      · exact .inl hl
  · rcases (hslots.pays l id).noted hl with hl | hl
    · by_cases hstub : StubAdded image options l
      · exact .inr hstub
      · rcases (hauto.pays l hstub).noted hl with hl | hl
        · exact .inl (hknown (mem_known_start.2 (.inr (.inr hl))))
        · exact .inl (hlast (hslots.notes.known.subset (hexports.brings.notes.known.subset hl)))
    · exact .inl (hlast hl)
  · -- the encoder's own labels aside, what is noted last was noted when imports got their labels
    rcases hparts.notes.named l hl with hl | ⟨hint, hhint, hl⟩
    · rcases hslots.used l hl with hl | hl
      · rcases hexports.brings.notes.named l hl with hl | ⟨hint, hhint, hl⟩
        · rcases hauto.used l hl with hl | hl
          · rcases mem_known_start.1 hl with rfl | hl | hl
            · exact .inr (.inr (isEncoderLabel_of_namedAfter (by decide) (namedAfter_fresh _ _)))
            · exact .inl hl
            · exact .inr (.inl (hslots.kept (hauto.kept hl)))
          · exact .inr (.inl (hslots.kept hl))
        · exact .inr (.inr (isEncoderLabel_of_namedAfter hhint hl))
      · exact .inr (.inl hl)
    · exact .inr (.inr (isEncoderLabel_of_namedAfter hhint hl))

theorem labelled_beforeRelocations {image : Image} {options : EncodeOptions} {now : UInt32}
    {a : Assembly} (h : ((start image now).beforeRelocations options).result = .ok a) :
    Labelled image options a := by
  simp only [beforeRelocations, Logged.bind_eq_ok] at h
  obtain ⟨a₁, h₁, a₂, h₂, a₃, h₃, a₄, h₄, h₅⟩ := h
  exact (labelled_addImports h₁ h₂ h₃).adds ((adds_addResources h₄).trans (adds_addTls h₅))

/-- **Every label of an assembled image is one of the caller, of an import, or one that the encoding
has made for itself; what has been noted is used once.** -/
theorem labelled_withDirectories {image : Image} {options : EncodeOptions} {now : UInt32}
    {a : Assembly} (h : ((start image now).withDirectories options).result = .ok a) :
    Labelled image options a := by
  obtain ⟨a₀, a₁, h₀, h₁, h₂⟩ := withDirectories_eq_ok.1 h
  exact (labelled_beforeRelocations h₀).adds
    ((adds_findRelocations h₁).trans (adds_addRelocations h₂))

end Assembly

end PortableImage
