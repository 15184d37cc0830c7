import PortableImage.Proofs.Labels.Assembly
import PortableImage.Proofs.Renaming.Assembly
import PortableImage.Proofs.Renaming.Resources

/-!
# Directories under different names

Every step that adds a directory runs alike in both runs.

* `Assembly.Renamed.addExports`, `addImports`, `addResources`, `addTls`, `findRelocations`,
  `addRelocations` — one step each.
* `WithoutHelper` — no call stub needs the helper, whose label has a fixed name.
* `Assembly.Renamed.withDirectories` — all steps in order.
-/

set_option autoImplicit false

namespace PortableImage

variable {W V : Renaming}

/-- Where call stubs must not depend on their address, no import has one. -/
def WithoutHelper (pic : Bool) (dirs : List ImportDirectory) : Prop :=
  pic = true → dirs.any (fun d => d.imports.any (·.thunk.isSome)) = false

namespace Assembly

variable {a a' : Assembly}

/-- The export directory is added in both runs, or fails in both. -/
theorem Renamed.addExports (h : a.Renamed W a') :
    Runs (Grown W Assembly.Renamed) a.addExports.result a'.addExports.result := by
  have hexports := h.image.exports
  rw [Assembly.addExports, Assembly.addExports]
  generalize a.image.exports = dir at hexports
  generalize a'.image.exports = dir' at hexports
  cases hexports with
  | none => exact ⟨W, le_refl W, h⟩
  | some hdir =>
    simp only [Logged.result_bind, Logged.result_liftM]
    refine (encodeExports_renamed hdir h.context h.now).bindGrown fun V x x' hle ⟨hb, hc⟩ => ?_
    obtain ⟨U, hle', ha, hlabelled⟩ :=
      (h.withContext hle hc).setDirectory .exportTable hb "export_table"
    exact (ha.addSection (renamed_new _ _ hlabelled)).grown hle'

/-! ## Imports -/

theorem labelSlot_renamed {i i' : Import} (hi : i.Renamed W i') {c c' : Context}
    (hc : c.Renamed W c') :
    Grown W (fun V x x' => x.1.Renamed V x'.1 ∧ x.2.Renamed V x'.2) (labelSlot i c)
      (labelSlot i' c') := by
  have htarget := hi.target
  rw [labelSlot, labelSlot]
  generalize hx : i.target = target at htarget
  generalize hx' : i'.target = target' at htarget
  cases htarget with
  | some hl => exact ⟨W, le_refl W, hi, hc⟩
  | none =>
    obtain ⟨V, hle, hl, hcontext⟩ := hc.fresh (slotHint i) (slotHint i')
    exact ⟨V, hle, { hi.mono hle with target := .some hl }, hcontext⟩

/-- A state is carried along two related lists. -/
theorem rel_mapState {α β γ δ σ τ : Type} {R : Renaming → α → β → Prop}
    {S : Renaming → γ → δ → Prop} {P : Renaming → σ → τ → Prop}
    (hR : ∀ {W V : Renaming} {a b}, R W a b → W ≤ V → R V a b)
    (hS : ∀ {W V : Renaming} {c d}, S W c d → W ≤ V → S V c d)
    {f : α → σ → γ × σ} {g : β → τ → δ × τ}
    (hfg : ∀ {W : Renaming} {a b s t}, R W a b → P W s t →
      Grown W (fun V x x' => S V x.1 x'.1 ∧ P V x.2 x'.2) (f a s) (g b t))
    {l : List α} {l' : List β} (hl : List.Forall₂ (R W) l l') {s : σ} {t : τ} (hst : P W s t) :
    Grown W (fun V x x' => List.Forall₂ (S V) x.1 x'.1 ∧ P V x.2 x'.2) (mapState f l s)
      (mapState g l' t) := by
  induction l generalizing W l' s t with
  | nil =>
    cases hl
    exact ⟨W, le_refl W, .nil, hst⟩
  | cons a rest ih =>
    obtain _ | ⟨hab, hrest⟩ := hl
    obtain ⟨V, hle, hfirst, hnext⟩ := hfg hab hst
    obtain ⟨U, hle', hothers, hlast⟩ := ih (hrest.imp fun _ _ hx => hR hx hle) hnext
    exact ⟨U, le_trans hle hle', .cons (hS hfirst hle') hothers, hlast⟩

/-- Every slot gets a label in both runs. -/
theorem labelSlots_renamed {dirs dirs' : List ImportDirectory} (h : LibrariesRenamed W dirs dirs')
    {c c' : Context} (hc : c.Renamed W c') :
    Grown W (fun V x x' => LibrariesRenamed V x.1 x'.1 ∧ x.2.Renamed V x'.2) (labelSlots dirs c)
      (labelSlots dirs' c') := by
  refine rel_mapState (R := ImportDirectory.Renamed) (S := ImportDirectory.Renamed)
    (P := Context.Renamed) (fun hd hle => hd.mono hle) (fun hd hle => hd.mono hle) ?_ h hc
  intro W dir dir' c c' hdir hc
  obtain ⟨V, hle, himports, hcontext⟩ := rel_mapState (R := Import.Renamed) (S := Import.Renamed)
    (P := Context.Renamed) (fun hi hle => hi.mono hle) (fun hi hle => hi.mono hle)
    (fun hi hc => labelSlot_renamed hi hc) hdir.imports hc
  exact ⟨V, hle, ⟨himports, by rw [hdir.fields]⟩, hcontext⟩

theorem tableOrder_renamed {dirs dirs' : List ImportDirectory}
    (h : LibrariesRenamed W dirs dirs') : tableOrder dirs' = tableOrder dirs := by
  have hfixed : (dirs'.head?.bind (·.tableAddress)) = dirs.head?.bind (·.tableAddress) := by
    cases h with
    | nil => rfl
    | cons hd _ =>
      rw [List.head?_cons, List.head?_cons, Option.bind_some, Option.bind_some, hd.fields]
  rw [tableOrder, tableOrder, hfixed, h.length_eq]
  dsimp only
  split
  · refine congrArg (sortBy · _) (funext fun i => funext fun j => ?_)
    refine decide_eq_decide.2 (iff_of_eq (congrArg₂ (· ≤ ·) ?_ ?_))
    · have hrel := rel_getElem? h i
      generalize dirs[i]? = d at hrel
      generalize dirs'[i]? = d' at hrel
      cases hrel with
      | none => rfl
      | some hd => rw [hd.fields]
    · have hrel := rel_getElem? h j
      generalize dirs[j]? = d at hrel
      generalize dirs'[j]? = d' at hrel
      cases hrel with
      | none => rfl
      | some hd => rw [hd.fields]
  · rfl

/-- A label of one table stands for that of the other. -/
theorem labelIn_renamed {tables tables' : List Buffer}
    (h : List.Forall₂ (Buffer.Renamed W) tables tables') (index : Nat) {offset : Buffer → Nat}
    (hoffset : ∀ b b' : Buffer, b.Renamed W b' → offset b' = offset b) (hint : String)
    {c c' : Context} (hc : c.Renamed W c') :
    Grown W (fun V x x' => V.Maps x.1 x'.1 ∧ List.Forall₂ (Buffer.Renamed V) x.2.1 x'.2.1 ∧
      x.2.2.Renamed V x'.2.2) (labelIn tables index offset hint c)
      (labelIn tables' index offset hint c') := by
  have htable : Buffer.Renamed W (tables[index]?.getD .empty) (tables'[index]?.getD .empty) := by
    have hrel := rel_getElem? h index
    generalize tables[index]? = b at hrel ⊢
    generalize tables'[index]? = b' at hrel ⊢
    cases hrel with
    | none => exact Buffer.renamed_empty W
    | some hb => exact hb
  rw [labelIn, labelIn, hoffset _ _ htable]
  obtain ⟨V, hle, hl, hcontext, hb⟩ := hc.labelAt htable (offset (tables[index]?.getD .empty))
    hint hint
  exact ⟨V, hle, hl, rel_set (h.imp fun _ _ hx => hx.mono hle) _ hb, hcontext⟩

theorem Renamed.setTableDirectory (h : a.Renamed W a') (order : List Nat)
    {tables tables' : List Buffer} (ht : List.Forall₂ (Buffer.Renamed W) tables tables') :
    Grown W (fun V x x' => x.1.Renamed V x'.1 ∧ List.Forall₂ (Buffer.Renamed V) x.2 x'.2)
      (a.setTableDirectory order tables) (a'.setTableDirectory order tables') := by
  rw [Assembly.setTableDirectory, Assembly.setTableDirectory]
  split
  · next first last _ _ =>
    obtain ⟨V, hle, hstart, ht₁, hc₁⟩ := labelIn_renamed ht first
      (fun _ _ _ => rfl : ∀ b b' : Buffer, b.Renamed W b' → (fun _ => 0) b' = (fun _ => 0) b)
      "iat" h.context
    obtain ⟨U, hle', hstop, ht₂, hc₂⟩ := labelIn_renamed ht₁ last
      (fun _ _ => Buffer.Renamed.virtSize) "iat_end" hc₁
    have hcontext := h.withContext (le_trans hle hle') hc₂
    have hstart' := Expr.renamed_label (hstart.mono hle')
    exact ⟨U, le_trans hle hle', ⟨setDirectory_image_renamed hcontext.image _
      (Context.rva_renamed hc₂.start hstart') ((Expr.renamed_label hstop).sub hstart'),
      hcontext.context, hcontext.tablesInPlace, hcontext.now⟩, ht₂⟩
  · exact ⟨W, le_refl W, h, ht⟩

/-! ## Address tables and call stubs -/

theorem any_mapState {α β σ : Type} {f : α → σ → β × σ} {p : α → Bool} {q : β → Bool}
    (hf : ∀ a s, q (f a s).1 = p a) (l : List α) (s : σ) :
    (mapState f l s).1.any q = l.any p := by
  induction l generalizing s with
  | nil => rfl
  | cons a rest ih =>
    rw [List.any_cons, ← hf a s, ← ih (f a s).2]
    rfl

/-- Giving slots their labels asks for no stub. -/
theorem withoutHelper_labelSlots {pic : Bool} {dirs : List ImportDirectory}
    (h : WithoutHelper pic dirs) (c : Context) :
    WithoutHelper pic (labelSlots dirs c).1 := by
  intro hpic
  rw [← h hpic]
  refine any_mapState (fun dir c => any_mapState (fun i c => ?_) dir.imports c) dirs c
  rw [labelSlot]
  split <;> rfl

/-- The stubs are the same in both runs, and hold the addresses of slots. -/
theorem stubEncoder_renamed {image image' : Image} (h : image.Renamed W image')
    {dirs dirs' : List ImportDirectory} (hdirs : LibrariesRenamed W dirs dirs')
    (hhelper : WithoutHelper image.pic dirs) :
    Runs (fun stubs stubs' => stubs' = stubs ∧ ∀ e ∈ stubs, e.pic = false)
      (stubEncoder image dirs) (stubEncoder image' dirs') := by
  have hany : dirs'.any (fun d => d.imports.any (·.thunk.isSome)) =
      dirs.any fun d => d.imports.any (·.thunk.isSome) := by
    refine (any_renamed (fun dir dir' hdir => ?_) hdirs).symm
    refine any_renamed (fun i i' hi => ?_) hdir.imports
    have hthunk := hi.thunk
    generalize i.thunk = thunk at hthunk
    generalize i'.thunk = thunk' at hthunk
    cases hthunk <;> rfl
  have hsame : stubEncoder image' dirs' = stubEncoder image dirs := by
    rw [stubEncoder, stubEncoder, hany, h.header, h.pic]
  rw [hsame]
  cases hstubs : stubEncoder image dirs with
  | error e => trivial
  | ok stubs =>
    refine ⟨rfl, fun e he => ?_⟩
    rw [pic_of_stubEncoder hstubs e he]
    by_contra hpic
    rw [stubEncoder, if_neg (by rw [hhelper (by simpa using hpic)]; decide)] at hstubs
    cases hstubs
    exact nomatch he

/-- The address tables and the call stubs as they are put together. -/
structure ImportParts.Renamed (W : Renaming) (p p' : ImportParts) : Prop where
  inPlace : TablesInPlaceRenamed W p.inPlace p'.inPlace
  table : Option.Rel (Buffer.Renamed W) p.table p'.table
  stubs : p.stubs.Renamed W p'.stubs
  pool : p.pool.Renamed W p'.pool

theorem addStubs_renamed {stubs : Option StubEncoder} (hstubs : ∀ e ∈ stubs, e.pic = false)
    (sections sections' : List Section) {imports imports' : List Import}
    (h : List.Forall₂ (Import.Renamed W) imports imports') {p p' : ImportParts}
    (hp : p.Renamed W p') :
    Runs (ImportParts.Renamed W) (addStubs stubs sections imports p)
      (addStubs stubs sections' imports' p') := by
  induction h generalizing p p' with
  | nil =>
    rw [addStubs, addStubs]
    exact hp
  | cons hi _ ih =>
    cases stubs with
    | none =>
      rw [addStubs, addStubs]
      exact hp
    | some e =>
      rw [addStubs, addStubs]
      refine (e.encode_renamed (hstubs e rfl) hp.pool hp.stubs hi sections sections').bind
        fun x x' hx => ih ⟨hp.inPlace, hp.table, hx.2, hx.1⟩

theorem fixedPlace_renamed {sections sections' : List Section}
    (h : SectionsRenamed W sections sections') {dir dir' : ImportDirectory}
    (hdir : dir.Renamed W dir') : fixedPlace sections' dir' = fixedPlace sections dir := by
  have hcovers : ∀ rva, sections'.any (·.covers rva) = sections.any (·.covers rva) := fun rva => by
    refine (any_renamed (fun s s' hs => ?_) h).symm
    rw [Section.covers, Section.covers, hs.address, hs.sizeInMemory]
  rw [fixedPlace, fixedPlace, hdir.fields]
  dsimp only
  split
  · rfl
  · rw [hcovers]

theorem collectParts_renamed {stubs : Option StubEncoder} (hstubs : ∀ e ∈ stubs, e.pic = false)
    {sections sections' : List Section} (hsections : SectionsRenamed W sections sections')
    {l l' : List (ImportDirectory × Buffer)}
    (h : List.Forall₂ (fun x x' => x.1.Renamed W x'.1 ∧ x.2.Renamed W x'.2) l l')
    {p p' : ImportParts} (hp : p.Renamed W p') :
    Runs (ImportParts.Renamed W) (collectParts stubs sections l p)
      (collectParts stubs sections' l' p') := by
  induction h generalizing p p' with
  | nil => exact hp
  | @cons x x' rest rest' hx _ ih =>
    obtain ⟨dir, table⟩ := x
    obtain ⟨dir', table'⟩ := x'
    obtain ⟨hdir, htable⟩ := hx
    rw [collectParts, collectParts, fixedPlace_renamed hsections hdir]
    refine (addStubs_renamed hstubs _ _ hdir.imports ?_).bind fun y y' hy => ih hy
    cases fixedPlace sections dir with
    | some rva => exact { hp with inPlace := List.rel_append hp.inPlace (.cons ⟨rfl, htable⟩ .nil) }
    | none =>
      refine { hp with table := .some (Buffer.Renamed.append ?_ htable) }
      have hfirst := hp.table
      generalize p.table = first at hfirst
      generalize p'.table = first' at hfirst
      cases hfirst with
      | none => exact Buffer.renamed_empty W
      | some hfirst => exact hfirst

theorem Renamed.addTable (h : a.Renamed W a') {table table' : Option Buffer}
    (ht : Option.Rel (Buffer.Renamed W) table table') :
    Runs (Grown W Assembly.Renamed) (a.addTable table).result (a'.addTable table').result := by
  cases ht with
  | none => exact ⟨W, le_refl W, h⟩
  | some ht => exact h.addSection (renamed_new _ _ ht)

theorem Renamed.addCallStubs (h : a.Renamed W a') {stubs stubs' : Buffer}
    (hs : stubs.Renamed W stubs') :
    Runs (Grown W Assembly.Renamed) (a.addCallStubs stubs).result
      (a'.addCallStubs stubs').result := by
  rw [Assembly.addCallStubs, Assembly.addCallStubs, hs.isEmpty]
  split
  · exact ⟨W, le_refl W, h⟩
  · exact h.addSection (renamed_new _ _ hs)

theorem Renamed.addParts (h : a.Renamed W a') {dirs dirs' : List ImportDirectory}
    (hdirs : LibrariesRenamed W dirs dirs') {tables tables' : List Buffer}
    (htables : List.Forall₂ (Buffer.Renamed W) tables tables')
    (hhelper : WithoutHelper a.image.pic dirs) :
    Runs (Grown W Assembly.Renamed) (a.addParts dirs tables).result
      (a'.addParts dirs' tables').result := by
  simp only [Assembly.addParts, Logged.result_bind, Logged.result_liftM]
  refine (stubEncoder_renamed h.image hdirs hhelper).bind fun stubs stubs' hstubs => ?_
  obtain ⟨rfl, hpic⟩ := hstubs
  refine (collectParts_renamed hpic h.image.sections (rel_zip hdirs htables)
    ⟨.nil, .none, Buffer.renamed_empty W, h.context.pool⟩).bind fun parts parts' hparts => ?_
  have hplaced : Assembly.Renamed W
      { a with tablesInPlace := parts.inPlace, context := { a.context with pool := parts.pool } }
      { a' with
        tablesInPlace := parts'.inPlace, context := { a'.context with pool := parts'.pool } } :=
    ⟨h.image, ⟨hparts.pool, h.context.encoder, h.context.start⟩, hparts.inPlace, h.now⟩
  refine (hplaced.addTable hparts.table).bindGrown fun V a₁ a₁' hle h₁ => ?_
  refine (h₁.addCallStubs (hparts.stubs.mono hle)).bindGrown fun U a₂ a₂' hle' h₂ => ?_
  have hlast := LibrariesRenamed.mono hdirs (le_trans hle hle')
  exact ⟨U, le_refl U, { h₂ with image := { h₂.image with imports := .some hlast } }⟩

/-- The import directory is added in both runs, or fails in both. -/
theorem Renamed.addImports (h : a.Renamed W a')
    (hhelper : WithoutHelper a.image.pic (a.image.imports.getD [])) :
    Runs (Grown W Assembly.Renamed) a.addImports.result a'.addImports.result := by
  have himports := h.image.imports
  rw [Assembly.addImports, Assembly.addImports]
  generalize a.image.imports = dirs at himports hhelper
  generalize a'.image.imports = dirs' at himports
  cases himports with
  | none => exact ⟨W, le_refl W, h⟩
  | @some dirs dirs' hdirs =>
    rw [Option.getD_some] at hhelper
    have hlabelled := labelSlots_renamed hdirs h.context
    have hhelper' := withoutHelper_labelSlots hhelper a.context
    cases hdirs with
    | nil => exact ⟨W, le_refl W, h⟩
    | cons hdir hrest =>
      obtain ⟨V, dirs, c, dirs', c', hle, heq, heq', hdirs, hc⟩ := hlabelled.pair
      rw [heq] at hhelper'
      simp only [heq, heq', Logged.result_bind, Logged.result_liftM]
      refine Runs.grown ?_ hle
      refine (encodeImports_renamed hdirs hc).bindGrown fun V₁ x x' hle₁ hx => ?_
      obtain ⟨V₂, hle₂, hdirectory, hb⟩ :=
        (h.withContext (le_trans hle hle₁) hx.context).setDirectory .importTable hx.directory
          "idata"
      refine Runs.grown ?_ hle₂
      refine (hdirectory.addSection (renamed_new _ _ hb)).known.bindGrown
        fun V₃ a₁ a₁' hle₃ ⟨h₁, hadd, _⟩ => ?_
      obtain ⟨V₄, hle₄, h₂, htables⟩ := h₁.setTableDirectory (tableOrder dirs)
        (hx.tables.imp fun _ _ ht => ht.mono (le_trans hle₂ hle₃))
      have hpic : (a₁.setTableDirectory (tableOrder dirs) x.2.1).1.image.pic = a.image.pic :=
        (adds_setTableDirectory (X := fun _ => True) _ _ _).2.2.1.trans
          (labels_addSection hadd).2.2.1
      rw [tableOrder_renamed hdirs]
      refine Runs.grown (h₂.addParts ?_ htables (hpic ▸ hhelper')) hle₄
      exact LibrariesRenamed.mono hdirs (le_trans hle₁ (le_trans hle₂ (le_trans hle₃ hle₄)))

/-! ## Resources, thread-local storage, base relocations -/

/-- The resource directory is added in both runs, or fails in both. -/
theorem Renamed.addResources (h : a.Renamed W a') :
    Runs (Grown W Assembly.Renamed) a.addResources.result a'.addResources.result := by
  rw [Assembly.addResources, Assembly.addResources, h.image.resources]
  split
  · exact ⟨W, le_refl W, h⟩
  · next root _ =>
    simp only [Logged.result_bind, Logged.result_liftM]
    refine (encodeResources_renamed root h.context).bindGrown fun V x x' hle ⟨hb, hc⟩ => ?_
    obtain ⟨U, hle', ha, hlabelled⟩ :=
      (h.withContext hle hc).setDirectory .resourceTable hb "resource_table"
    exact (ha.addSection (renamed_new _ _ hlabelled)).grown hle'

/-- The TLS directory is added in both runs, or fails in both. -/
theorem Renamed.addTls (h : a.Renamed W a') :
    Runs (Grown W Assembly.Renamed) a.addTls.result a'.addTls.result := by
  have htls := h.image.tls
  rw [Assembly.addTls, Assembly.addTls]
  generalize a.image.tls = tls at htls
  generalize a'.image.tls = tls' at htls
  cases htls with
  | none => exact ⟨W, le_refl W, h⟩
  | some htls =>
    simp only [Logged.result_bind, Logged.result_liftM]
    refine (encodeTls_renamed htls h.context).bindGrown fun V x x' hle hx => ?_
    obtain ⟨U, hle', ha, hlabelled⟩ :=
      (h.withContext hle hx.context).setDirectory .tlsTable hx.record "tls_table"
    exact (ha.addSection (renamed_new _ _ (hlabelled.append (hx.callbacks.mono hle')))).grown hle'

/-- The same fields get base relocations in both runs, or finding them fails in both. -/
theorem Renamed.findRelocations (h : a.Renamed W a') (options : EncodeOptions) :
    Runs (Grown W Assembly.Renamed) (a.findRelocations options).result
      (a'.findRelocations options).result := by
  rw [Assembly.findRelocations, Assembly.findRelocations]
  split
  · simp only [Logged.result_bind]
    refine (relocationTables_renamed h.image.sections h.context).bindGrown
      fun V r r' hle hr => ?_
    have ha := h.withContext hle hr.context
    exact ⟨V, le_refl V, { ha with
      image := { ha.image with sections := hr.sections, relocations := .some hr.tables } }⟩
  · exact ⟨W, le_refl W, h⟩

theorem encodeRelocations_renamed (f : FieldEncoder) {tables tables' : List RelocationTable}
    (h : List.Forall₂ (RelocationTable.Renamed W) tables tables') :
    Runs (Buffer.Renamed W) (encodeRelocations f tables) (encodeRelocations f tables') := by
  induction h with
  | nil => exact Buffer.renamed_empty W
  | cons ht _ ih =>
    rw [encodeRelocations, encodeRelocations]
    exact (encodeRelocationTable_renamed f ht).bind fun b b' hb => ih.bind fun c c' hc =>
      hb.append hc

/-- The base relocations are added in both runs, or fail in both. -/
theorem Renamed.addRelocations (h : a.Renamed W a') :
    Runs (Grown W Assembly.Renamed) a.addRelocations.result a'.addRelocations.result := by
  have hrelocations := h.image.relocations
  rw [Assembly.addRelocations, Assembly.addRelocations]
  generalize a.image.relocations = tables at hrelocations
  generalize a'.image.relocations = tables' at hrelocations
  cases hrelocations with
  | none => exact ⟨W, le_refl W, h⟩
  | @some tables tables' ht =>
    have htables : List.Forall₂ (RelocationTable.Renamed W)
        (if tables.isEmpty then [⟨.const 0, []⟩] else tables)
        (if tables'.isEmpty then [⟨.const 0, []⟩] else tables') := by
      cases ht with
      | nil => exact .cons ⟨Expr.renamed_const W 0, rfl⟩ .nil
      | cons ht hrest => exact .cons ht hrest
    simp only [Logged.result_bind, Logged.result_liftM, h.context.encoder]
    refine (encodeRelocations_renamed _ htables).bind fun b b' hb => ?_
    have hlisted : Assembly.Renamed W
        { a with image := { a.image with relocations := some _ } }
        { a' with image := { a'.image with relocations := some _ } } :=
      { h with image := { h.image with relocations := .some htables } }
    obtain ⟨V, hle, ha, hlabelled⟩ :=
      hlisted.setDirectory .baseRelocationTable hb "reloc_table"
    exact (ha.addSection (renamed_new _ _ hlabelled)).grown hle

/-- **The directories are generated in both runs, or fail in both.** -/
theorem Renamed.withDirectories (h : a.Renamed W a') {options : EncodeOptions}
    (hcatalog : options.catalog = none)
    (hhelper : WithoutHelper a.image.pic (a.image.imports.getD [])) :
    Runs (Grown W Assembly.Renamed) (a.withDirectories options).result
      (a'.withDirectories options).result := by
  simp only [Assembly.withDirectories, Assembly.addAutoImports, hcatalog, Logged.result_bind,
    Logged.result_pure]
  refine h.addExports.known.bindGrown fun V₁ a₁ a₁' _ hknown => ?_
  obtain ⟨h₁, hadd, -⟩ := hknown
  have hadds : Adds (fun _ => True) a a₁ := adds_addExports hadd
  rw [← hadds.pic, ← hadds.imports] at hhelper
  refine (h₁.addImports hhelper).bindGrown fun V₂ a₂ a₂' _ h₂ => ?_
  refine h₂.addResources.bindGrown fun V₃ a₃ a₃' _ h₃ => ?_
  refine h₃.addTls.bindGrown fun V₄ a₄ a₄' _ h₄ => ?_
  refine (h₄.findRelocations options).bindGrown fun V₅ a₅ a₅' _ h₅ => ?_
  exact h₅.addRelocations

end Assembly

end PortableImage
