import PortableImage.Proofs.Directory.ImportPlaces
import PortableImage.Proofs.Directory.Imports
import PortableImage.Proofs.Encode.Directories

/-!
# Where the address tables stand

A library may ask for its address table at a fixed address in a section that the image has.  The
tables of all other libraries stand one behind the other, in the order of the libraries, in a section
of their own.

* `Assembly.looseSize` — the size of the tables without a place in a section.
* `Assembly.Collects` — what putting the tables together does with each of them.
* `Assembly.Imported` — the libraries of an image and their tables once imports are added.
* `Assembly.directories_addImports` — the step that adds them.
* `Assembly.directories_withDirectories` — all steps together.
-/

set_option autoImplicit false

namespace PortableImage

open Buffer

theorem forall₂_mapState {α β σ : Type} {f : α → σ → β × σ} {R : α → β → Prop}
    (hf : ∀ a s, R a (f a s).1) (l : List α) (s : σ) : List.Forall₂ R l (mapState f l s).1 := by
  induction l generalizing s with
  | nil => exact .nil
  | cons a rest ih => exact .cons (hf a s) (ih _)

theorem forall₂_set {α : Type} {R : α → α → Prop} (hR : ∀ a, R a a) {l : List α} {i : Nat} {a b : α}
    (ha : l[i]? = some a) (hab : R a b) : List.Forall₂ R l (l.set i b) := by
  induction l generalizing i with
  | nil => exact nomatch ha
  | cons x rest ih =>
    cases i with
    | zero =>
      cases ha
      exact .cons hab (List.forall₂_same.2 fun x _ => hR x)
    | succ i => exact .cons (hR x) (ih ha)

/-- The second import is the first with a label for its slot. -/
def Import.Slotted (i i' : Import) : Prop :=
  ∃ target, i' = { i with target := some target } ∧ ∀ given, i.target = some given → target = given

/-- The second library is the first with labels for its slots. -/
def ImportDirectory.Slotted (dir dir' : ImportDirectory) : Prop :=
  ∃ imports, dir' = { dir with imports } ∧ List.Forall₂ Import.Slotted dir.imports imports

theorem ImportDirectory.Slotted.targets {dir dir' : ImportDirectory} (h : dir.Slotted dir') :
    ∀ i ∈ dir'.imports, i.target.isSome := by
  obtain ⟨imports, rfl, hslots⟩ := h
  intro i hi
  obtain ⟨n, hn⟩ := List.mem_iff_getElem?.1 hi
  obtain ⟨_, -, target, rfl, -⟩ := exists_left_of_forall₂ hslots hn
  rfl

/-! ## Libraries that get more imports -/

/-- The second library is the first with at most more imports. -/
structure ImportDirectory.Grows (dir dir' : ImportDirectory) : Prop where
  library : dir'.library = dir.library
  tableAddress : dir'.tableAddress = dir.tableAddress
  length_le : dir.imports.length ≤ dir'.imports.length

theorem ImportDirectory.Grows.refl (dir : ImportDirectory) : dir.Grows dir :=
  ⟨rfl, rfl, Nat.le_refl _⟩

theorem ImportDirectory.Grows.trans (d e f : ImportDirectory) (hde : d.Grows e) (hef : e.Grows f) :
    d.Grows f where
  library := hef.library.trans hde.library
  tableAddress := hef.tableAddress.trans hde.tableAddress
  length_le := Nat.le_trans hde.length_le hef.length_le

/-- Every library of the first list is at its place in the second, with at most more imports. -/
def LibrariesGrow (l l' : List ImportDirectory) : Prop :=
  ∀ (n : Nat) dir, l[n]? = some dir → ∃ dir', l'[n]? = some dir' ∧ dir.Grows dir'

theorem LibrariesGrow.refl (l : List ImportDirectory) : LibrariesGrow l l :=
  KeepsEach.refl ImportDirectory.Grows.refl l

theorem LibrariesGrow.trans {l m k : List ImportDirectory} (hlm : LibrariesGrow l m)
    (hmk : LibrariesGrow m k) : LibrariesGrow l k :=
  KeepsEach.trans ImportDirectory.Grows.trans hlm hmk

theorem LibrariesGrow.ne_nil {l l' : List ImportDirectory} (h : LibrariesGrow l l')
    (hne : l ≠ []) : l' ≠ [] := by
  obtain ⟨dir, rest, rfl⟩ := List.exists_cons_of_ne_nil hne
  obtain ⟨dir', hdir', -⟩ := h 0 dir rfl
  rintro rfl
  exact nomatch hdir'

theorem LibrariesGrow.of_slotted {l l' : List ImportDirectory}
    (h : List.Forall₂ ImportDirectory.Slotted l l') : LibrariesGrow l l' := by
  intro n dir hdir
  obtain ⟨dir', hdir', imports, rfl, himports⟩ := exists_right_of_forall₂ h hdir
  exact ⟨_, hdir', rfl, rfl, Nat.le_of_eq himports.length_eq⟩

/-- **Imports found in a catalogue are added to the libraries that there are**, or in new ones behind
them. -/
theorem librariesGrow_autoImport (pool : LabelPool) (sections : List Section)
    (imports : Option (List ImportDirectory)) (catalog : Catalog) :
    LibrariesGrow (imports.getD []) ((autoImport pool sections imports catalog).imports.getD []) :=
  (keeps_autoImport pool sections imports catalog).mono fun _ _ h =>
    ⟨h.library, h.tableAddress, h.imports.length_le⟩

namespace Assembly

/-! ## Slots -/

/-- **Every slot has a label**, and only these have been added. -/
theorem slotted_labelSlots (dirs : List ImportDirectory) (c : Context) :
    List.Forall₂ ImportDirectory.Slotted dirs (labelSlots dirs c).1 := by
  refine forall₂_mapState (fun dir c => ⟨_, rfl, forall₂_mapState (fun i c => ?_) dir.imports c⟩)
    dirs c
  unfold labelSlot
  split
  · next target htarget =>
    exact ⟨target, by rw [← htarget], fun given h => Option.some.inj (htarget.symm.trans h)⟩
  · next htarget =>
    exact ⟨_, rfl, fun target h => absurd (htarget.symm.trans h).symm (Option.some_ne_none target)⟩

/-! ## The data directory of the address tables -/

theorem perm_tableOrder (dirs : List ImportDirectory) :
    (tableOrder dirs).Perm (List.range dirs.length) := by
  rw [tableOrder]
  split
  · exact perm_sortBy _ _
  · exact .refl _

theorem mem_tableOrder {dirs : List ImportDirectory} {n : Nat} :
    n ∈ tableOrder dirs ↔ n < dirs.length := by
  rw [(perm_tableOrder dirs).mem_iff, List.mem_range]

/-- There is a first table and a last one. -/
theorem exists_tableOrder_ends {dirs : List ImportDirectory} (h : dirs ≠ []) :
    ∃ first last, (tableOrder dirs).head? = some first ∧ (tableOrder dirs).getLast? = some last ∧
      first < dirs.length ∧ last < dirs.length := by
  have hne : tableOrder dirs ≠ [] := by
    intro hnil
    have hlength := (perm_tableOrder dirs).length_eq
    rw [hnil, List.length_range] at hlength
    exact h (List.length_eq_zero_iff.1 hlength.symm)
  exact ⟨_, _, List.head?_eq_some_head hne, List.getLast?_eq_some_getLast hne,
    mem_tableOrder.1 (List.head_mem hne), mem_tableOrder.1 (List.getLast_mem hne)⟩

theorem labelIn_spec {tables tables' : List Buffer} {index : Nat} {offset : Buffer → Nat}
    {hint label : String} {c c' : Context} {b : Buffer}
    (hl : labelIn tables index offset hint c = (label, tables', c')) (hb : tables[index]? = some b) :
    List.Forall₂ Buffer.Labelled tables tables' ∧
      ∃ b', tables'[index]? = some b' ∧ b.Labelled b' ∧ (label, offset b) ∈ b'.exports := by
  rw [labelIn, hb, Option.getD_some] at hl
  cases hl
  have hlabelled := labelled_labelAt c b (offset b) hint
  refine ⟨forall₂_set Buffer.Labelled.refl hb hlabelled, _, ?_, hlabelled,
    mem_exports_labelAt c b (offset b) hint⟩
  exact List.getElem?_set_self (List.getElem?_eq_some_iff.1 hb).1

/-- **The data directory goes from the first table to the end of the last**, which are labelled. -/
theorem setTableDirectory_spec (a : Assembly) {order : List Nat} {tables : List Buffer}
    {first last : Nat} (hfirst : order.head? = some first) (hlast : order.getLast? = some last)
    (hin : first < tables.length) (hin' : last < tables.length) :
    ∃ c start stop tables' b b', a.context.Keeps c ∧
      a.setTableDirectory order tables = ({ a with
        context := c
        image := a.image.setDirectory .importAddressTable
          ⟨a.context.rva (.label start), .label stop - .label start⟩ }, tables') ∧
      List.Forall₂ Buffer.Labelled tables tables' ∧
      tables'[first]? = some b ∧ (start, 0) ∈ b.exports ∧
      tables'[last]? = some b' ∧ (stop, b'.virtSize) ∈ b'.exports := by
  rw [setTableDirectory, hfirst, hlast]
  dsimp only
  rcases h₁ : labelIn tables first (fun _ => 0) "iat" a.context with ⟨start, tables₁, c₁⟩
  rcases h₂ : labelIn tables₁ last (·.virtSize) "iat_end" c₁ with ⟨stop, tables₂, c₂⟩
  obtain ⟨hlabelled₁, b₁, hb₁, -, hstart⟩ := labelIn_spec h₁ (List.getElem?_eq_getElem hin)
  obtain ⟨b, hb, hlabelled⟩ := exists_right_of_forall₂ hlabelled₁ (List.getElem?_eq_getElem hin')
  obtain ⟨hlabelled₂, b₂, hb₂, hb₂', hstop⟩ := labelIn_spec h₂ hb
  obtain ⟨b₃, hb₃, hlabelled₃⟩ := exists_right_of_forall₂ hlabelled₂ hb₁
  have hkeeps := (keeps_labelIn h₁).trans (keeps_labelIn h₂)
  refine ⟨c₂, start, stop, tables₂, b₃, b₂, hkeeps, ?_, ?_, hb₃,
    hlabelled₃.grows.exports.subset hstart, hb₂, ?_⟩
  · rw [Context.rva, Context.rva, hkeeps.2]
  · exact forall₂_trans (fun _ _ _ => .trans) hlabelled₁ hlabelled₂
  · rw [hb₂'.virtSize_eq]
    exact hstop

/-! ## Putting the tables together -/

/-- The tables that a section of the image covers the address of. -/
def inPlaceTables (sections : List Section) (l : List (ImportDirectory × Buffer)) :
    List (Nat × Buffer) :=
  l.filterMap fun x => (fixedPlace sections x.1).map (·, x.2)

/-- The size of the other tables. -/
def looseSize (sections : List Section) : List (ImportDirectory × Buffer) → Nat
  | [] => 0
  | x :: rest =>
    (if fixedPlace sections x.1 = none then x.2.virtSize else 0) + looseSize sections rest

/-- What putting the tables together does with each of them. -/
structure Collects (sections : List Section) (l : List (ImportDirectory × Buffer))
    (parts parts' : ImportParts) : Prop where
  inPlace : parts'.inPlace = parts.inPlace ++ inPlaceTables sections l
  table : ∀ b ∈ parts.table, ∃ b' ∈ parts'.table, b.Grows b'
  loose : ∀ (n : Nat) dir table, l[n]? = some (dir, table) → fixedPlace sections dir = none →
    ∃ b ∈ parts'.table, ∃ front : Buffer, (front ++ table).Grows b ∧
      front.virtSize = (parts.table.getD .empty).virtSize + looseSize sections (l.take n)

theorem addStubs_keeps {stubs : Option StubEncoder} {sections : List Section} {is : List Import}
    {parts parts' : ImportParts} (h : addStubs stubs sections is parts = .ok parts') :
    parts'.inPlace = parts.inPlace ∧ parts'.table = parts.table := by
  induction is generalizing parts with
  | nil =>
    cases h
    exact ⟨rfl, rfl⟩
  | cons i rest ih =>
    rw [addStubs.eq_def] at h
    cases stubs with
    | none =>
      cases h
      exact ⟨rfl, rfl⟩
    | some e =>
      simp only [bind_eq_ok, Prod.exists] at h
      obtain ⟨pool, plt, -, h⟩ := h
      obtain ⟨hinPlace, htable⟩ := ih h
      exact ⟨hinPlace, htable⟩

/-- **The tables are collected library by library.** -/
theorem collects_collectParts {stubs : Option StubEncoder} {sections : List Section}
    {l : List (ImportDirectory × Buffer)} {parts parts' : ImportParts}
    (h : collectParts stubs sections l parts = .ok parts') : Collects sections l parts parts' := by
  induction l generalizing parts with
  | nil =>
    cases h
    exact ⟨(List.append_nil _).symm, fun b hb => ⟨b, hb, .refl b⟩, fun _ _ _ hn => by cases hn⟩
  | cons x rest ih =>
    obtain ⟨dir, table⟩ := x
    simp only [collectParts, bind_eq_ok] at h
    obtain ⟨next, hnext, hrest⟩ := h
    obtain ⟨hinPlace, htable⟩ := addStubs_keeps hnext
    have hfollows := ih hrest
    split at hinPlace
    · next rva hrva =>
      rw [hrva] at htable
      have hsome : ¬ fixedPlace sections dir = none := hrva ▸ Option.some_ne_none rva
      refine ⟨?_, fun b hb => hfollows.table b (htable ▸ hb), fun n dir' table' hn hnone => ?_⟩
      · rw [hfollows.inPlace, hinPlace, inPlaceTables, inPlaceTables, List.append_assoc,
          List.filterMap_cons_some (by rw [hrva]; rfl)]
        rfl
      · cases n with
        | zero =>
          cases hn
          exact absurd hnone hsome
        | succ n =>
          obtain ⟨b, hb, front, hgrows, hsize⟩ := hfollows.loose n dir' table' hn hnone
          refine ⟨b, hb, front, hgrows, ?_⟩
          rw [hsize, htable, List.take_succ_cons, looseSize, if_neg hsome, Nat.zero_add]
    · next hnone =>
      rw [hnone] at htable
      have hmem : parts.table.getD .empty ++ table ∈ next.table := by rw [htable]; rfl
      obtain ⟨b', hb', hgrows'⟩ := hfollows.table _ hmem
      refine ⟨?_, fun b hb => ⟨b', hb', ?_⟩, fun n dir' table' hn hnone' => ?_⟩
      · rw [hfollows.inPlace, hinPlace, inPlaceTables, inPlaceTables,
          List.filterMap_cons_none (by rw [hnone]; rfl)]
      · refine Buffer.Grows.trans ?_ hgrows'
        rw [Option.mem_def.1 hb]
        exact grows_append b table
      · cases n with
        | zero =>
          cases hn
          exact ⟨b', hb', _, hgrows', by rw [List.take_zero, looseSize, Nat.add_zero]⟩
        | succ n =>
          obtain ⟨b, hb, front, hgrows, hsize⟩ := hfollows.loose n dir' table' hn hnone'
          refine ⟨b, hb, front, hgrows, ?_⟩
          rw [hsize, htable, List.take_succ_cons, looseSize, if_pos hnone, Option.getD_some,
            virtSize_append, Nat.add_assoc]


/-! ## The libraries of an image -/

/-- The imports of an assembly have been added: the libraries `dirs`, described by the import
directory `b`, with the address tables `tables`, when the image had the given sections. -/
structure Imported (a : Assembly) (sections : List Section) (dirs : List ImportDirectory)
    (b : Buffer) (tables : List Buffer) : Prop where
  imports : a.image.imports = some dirs
  targets : ∀ dir ∈ dirs, ∀ i ∈ dir.imports, i.target.isSome
  encoded : ∃ c bs c', a.context.Keeps c ∧ encodeImports c dirs = .ok (b, bs, c') ∧
    List.Forall₂ Buffer.Labelled bs tables
  grows : SectionsGrow sections a.image.sections
  inPlace : a.tablesInPlace = inPlaceTables sections (dirs.zip tables)
  loose : ∃ i o, ∀ (n : Nat) dir table, dirs[n]? = some dir → tables[n]? = some table →
    fixedPlace sections dir = none →
    StandsIn a.image.sections i (o + looseSize sections ((dirs.zip tables).take n)) table
  directory : ∃ first last start stop t t',
    (tableOrder dirs).head? = some first ∧ (tableOrder dirs).getLast? = some last ∧
    tables[first]? = some t ∧ (start, 0) ∈ t.exports ∧
    tables[last]? = some t' ∧ (stop, t'.virtSize) ∈ t'.exports ∧
    a.image.directory? .importAddressTable =
      some ⟨a.context.rva (.label start), .label stop - .label start⟩

/-- Steps that add other directories leave the tables where they are. -/
theorem Imported.later {a a' : Assembly} {sections : List Section} {dirs : List ImportDirectory}
    {b : Buffer} {tables : List Buffer} {slots : List DirectorySlot} {l : List GeneratedDirectory}
    (h : a.Imported sections dirs b tables) (hd : a.Directories a' slots l)
    (himports : .importTable ∉ slots) (haddresses : .importAddressTable ∉ slots) :
    a'.Imported sections dirs b tables where
  imports := (hd.same.imports himports).trans h.imports
  targets := h.targets
  encoded := by
    obtain ⟨c, bs, c', hc, hencode, hlabelled⟩ := h.encoded
    obtain ⟨hencoder, hstart⟩ := hd.continues.context
    exact ⟨c, bs, c', ⟨hc.1.trans hencoder.symm, hc.2.trans hstart.symm⟩, hencode, hlabelled⟩
  grows := h.grows.trans hd.continues.sections
  inPlace := (hd.tables haddresses).trans h.inPlace
  loose := by
    obtain ⟨i, o, hloose⟩ := h.loose
    exact ⟨i, o, fun n dir table hdir htable hnone =>
      (hloose n dir table hdir htable hnone).grows hd.continues.sections⟩
  directory := by
    obtain ⟨first, last, start, stop, t, t', hfirst, hlast, ht, hstart, ht', hstop, hplace⟩ :=
      h.directory
    refine ⟨first, last, start, stop, t, t', hfirst, hlast, ht, hstart, ht', hstop, ?_⟩
    rw [hd.others _ haddresses, hplace, Context.rva, Context.rva, hd.continues.context.2]

/-- Every library has an address table, with an entry for each of its imports. -/
theorem Imported.exists_table {a : Assembly} {sections : List Section} {dirs : List ImportDirectory}
    {b : Buffer} {tables : List Buffer} (h : a.Imported sections dirs b tables) {n : Nat}
    {dir : ImportDirectory} (hn : dirs[n]? = some dir) :
    ∃ table, tables[n]? = some table ∧
      table.IsAddressTable a.context.encoder.addressType.width dir.imports.length ∧
      ∀ (j : Nat) i target, dir.imports[j]? = some i → i.target = some target →
        (target, a.context.encoder.addressType.width * j) ∈ table.exports := by
  obtain ⟨c, bs, c', hc, hencode, hlabelled⟩ := h.encoded
  obtain ⟨t, hformed, -⟩ := librariesAt_encodeImports hencode
  have hlt : n < bs.length := hformed.length ▸ (List.getElem?_eq_some_iff.1 hn).1
  have hbs := List.getElem?_eq_getElem hlt
  obtain ⟨table, htable, hb⟩ := exists_right_of_forall₂ hlabelled hbs
  refine ⟨table, htable, ?_, fun j i target hi htarget => ?_⟩
  · rw [← hc.1]
    exact (hformed.tables n dir _ hn hbs).labelled hb
  · rw [← hc.1]
    exact hb.grows.exports.subset (hformed.slots n dir _ hn hbs j i target hi htarget)

/-- The table of a library that asks for an address in a section is among those in place. -/
theorem Imported.mem_tablesInPlace {a : Assembly} {sections : List Section}
    {dirs : List ImportDirectory} {b : Buffer} {tables : List Buffer}
    (h : a.Imported sections dirs b tables) {n rva : Nat} {dir : ImportDirectory} {table : Buffer}
    (hdir : dirs[n]? = some dir) (htable : tables[n]? = some table)
    (hplace : fixedPlace sections dir = some rva) : (rva, table) ∈ a.tablesInPlace := by
  rw [h.inPlace]
  refine List.mem_filterMap.2 ⟨(dir, table), List.mem_of_getElem?
    (List.getElem?_zip_eq_some.2 ⟨hdir, htable⟩), ?_⟩
  rw [hplace]
  rfl

/-! ## Adding the imports -/

section Steps

variable {a a' : Assembly}

theorem addTable_eq {table : Option Buffer} (h : (a.addTable table).result = .ok a') :
    a' = { a with image := { a.image with sections := a'.image.sections } } := by
  cases table with
  | none =>
    cases h
    rfl
  | some table =>
    cases h
    rfl

theorem exists_standsIn_addTable {table : Option Buffer} (h : (a.addTable table).result = .ok a')
    (htable : ∀ b ∈ table, b.FieldsWritten) :
    ∃ i o, ∀ b ∈ table, StandsIn a'.image.sections i o b := by
  cases table with
  | none => exact ⟨0, 0, fun b hb => nomatch hb⟩
  | some table =>
    cases h
    obtain ⟨i, o, hstands, -⟩ :=
      exists_standsIn_appendSection a.image.sections ".iat" (.read ||| .write) (htable table rfl)
    refine ⟨i, o, fun b hb => ?_⟩
    cases hb
    exact hstands

theorem addCallStubs_eq {stubs : Buffer} (h : (a.addCallStubs stubs).result = .ok a') :
    a' = { a with image := { a.image with sections := a'.image.sections } } := by
  rw [addCallStubs] at h
  split at h
  · cases h
    rfl
  · cases h
    rfl

/-- **The tables get their places**, and nothing else of the image changes but its sections. -/
theorem places_addParts {dirs : List ImportDirectory} {tables : List Buffer}
    (h : (a.addParts dirs tables).result = .ok a') (htables : ∀ b ∈ tables, b.FieldsWritten) :
    a'.now = a.now ∧
    a'.image = { a.image with sections := a'.image.sections, imports := some dirs } ∧
    a'.tablesInPlace = inPlaceTables a.image.sections (dirs.zip tables) ∧
    ∃ i o, ∀ (n : Nat) dir table, dirs[n]? = some dir → tables[n]? = some table →
      fixedPlace a.image.sections dir = none →
      StandsIn a'.image.sections i
        (o + looseSize a.image.sections ((dirs.zip tables).take n)) table := by
  simp only [addParts, Logged.bind_eq_ok, Logged.result_liftM, Logged.result_pure,
    Except.ok.injEq] at h
  obtain ⟨stubs, -, parts, hparts, a₁, h₁, a₂, h₂, rfl⟩ := h
  have hcollects := collects_collectParts hparts
  have hwritten : parts.Written := by
    refine written_collectParts hparts (fun e he => htables _ (List.of_mem_zip he).2) ?_
    exact ⟨fun _ ht => absurd ht List.not_mem_nil, fun b hb => absurd hb (Option.not_mem_none b),
      Buffer.fieldsWritten_empty⟩
  obtain ⟨i, o, hstands⟩ := exists_standsIn_addTable h₁ hwritten.table
  have hgrow := (continues_addCallStubs h₂ hwritten.stubs).sections
  refine ⟨?_, ?_, ?_, i, o, fun n dir table hdir htable hnone => ?_⟩
  · rw [addCallStubs_eq h₂, addTable_eq h₁]
  · dsimp only
    rw [addCallStubs_eq h₂, addTable_eq h₁]
  · rw [addCallStubs_eq h₂, addTable_eq h₁]
    exact hcollects.inPlace
  · obtain ⟨b, hb, front, hgrows, hsize⟩ :=
      hcollects.loose n dir table (List.getElem?_zip_eq_some.2 ⟨hdir, htable⟩) hnone
    obtain ⟨s, before, hs, hbefore, hcontent⟩ := (hstands b hb).grows hgrow
    refine ⟨s, before ++ front, hs, ?_, ?_⟩
    · rw [virtSize_append, hbefore, hsize]
      exact congrArg (o + ·) (Nat.zero_add _)
    · rw [Buffer.append_assoc]
      exact (hgrows.behind before).trans hcontent

/-- **The import directory is added, and the address tables get their places.** -/
theorem directories_addImports (h : a.addImports.result = .ok a') :
    ∃ l, a.Directories a' [.importTable, .importAddressTable] l ∧
      (a.image.imports.getD [] ≠ [] → ∃ sections dirs b tables,
        SectionsGrow a.image.sections sections ∧
        List.Forall₂ ImportDirectory.Slotted (a.image.imports.getD []) dirs ∧
        a'.Imported sections dirs b tables ∧ ∃ x ∈ l, x.slot = .importTable ∧
          b.Labelled x.content) := by
  have hc := continues_addImports h
  rw [addImports.eq_def] at h
  split at h
  · next hnone =>
    cases h
    refine ⟨[], directories_none hc rfl (.refl _ _) (fun _ _ => rfl) (fun _ => rfl) ?_, ?_⟩
    · simp [Image.Generates, hnone]
    · simp [hnone]
  · next hnil =>
    cases h
    refine ⟨[], directories_none hc rfl (.refl _ _) (fun _ _ => rfl) (fun _ => rfl) ?_, ?_⟩
    · simp [Image.Generates, hnil]
    · simp [hnil]
  · next given hne hgiven =>
    have hkeeps := keeps_labelSlots given a.context
    have hslotted := slotted_labelSlots given a.context
    generalize labelSlots given a.context = slots at h hkeeps hslotted
    obtain ⟨dirs, c₁⟩ := slots
    simp only [Logged.bind_eq_ok, Logged.result_liftM, Prod.exists] at h
    obtain ⟨b, bs, c₂, hb, a₁, h₁, h₂⟩ := h
    have hwrites := writes_encodeImports hb
    obtain ⟨hdirectory, haddresses⟩ := List.forall_mem_cons.1 hwrites.written
    -- the libraries are noted before the directory is put into a section; the result is the same
    let a₀ : Assembly := { a with context := c₂, image := { a.image with imports := some dirs } }
    let a₂ : Assembly := { a₁ with image := { a₁.image with imports := some dirs } }
    have h₀ : ((a₀.setDirectory .importTable b "idata").1.addSection
        (.new ".idata" (.read ||| .write ||| .discardable)
          (a₀.setDirectory .importTable b "idata").2)).result = .ok a₂ := by
      rw [result_addSection] at h₁ ⊢
      cases h₁
      rfl
    have hstart : a.Continues a₀ := ⟨.refl _, hkeeps.trans hwrites.keeps, rfl, rfl, id, fun _ => id⟩
    obtain ⟨x, hslot, hlabelled, hx⟩ := directories_addDirectory hstart rfl rfl rfl
      ⟨rfl, rfl, rfl, by simp, fun _ => rfl⟩ h₀ (.refl _) hdirectory.inside
      (hdirectory.labelAt _ 0 _)
      ⟨dirs, c₁, bs, c₂, rfl, hkeeps, hb⟩
    have hlength : bs.length = dirs.length := by
      obtain ⟨t, hformed, -⟩ := librariesAt_encodeImports hb
      exact hformed.length
    have hdirs : dirs ≠ [] := by
      rintro rfl
      cases hslotted
      exact hne rfl
    obtain ⟨first, last, hfirst, hlast, hin, hin'⟩ := exists_tableOrder_ends hdirs
    obtain ⟨c, start, stop, tables, t, t', hkeeps', hset, htables, ht, hstart', ht', hstop⟩ :=
      a₁.setTableDirectory_spec hfirst hlast (hlength ▸ hin) (hlength ▸ hin')
    have hwritten := fieldsWritten_setTableDirectory haddresses a₁ (tableOrder dirs)
    have hcontinues := (continues_setTableDirectory a₁ (tableOrder dirs) bs).trans
      (continues_addParts h₂ hwritten)
    rw [hset] at h₂ hwritten
    obtain ⟨hnow, himage, hinPlace, i, o, hloose⟩ := places_addParts h₂ hwritten
    have hplaces : a₂.Directories a' [.importAddressTable] [] := by
      refine directories_none ⟨hcontinues.sections, hcontinues.context, hcontinues.header,
        hcontinues.optionalHeader, hcontinues.tables, hcontinues.stable⟩ hnow ?_
        (fun slot hother => ?_) (by simp) ?_
      · rw [himage]
        exact ⟨rfl, rfl, rfl, fun _ => rfl, fun _ => rfl⟩
      · rw [himage]
        exact directory?_setDirectory_of_ne a₁.image
          (fun heq => hother (List.mem_singleton.2 heq)) _
      · simp [Image.Generates]
    refine ⟨[x], by simpa using hx.trans hplaces (by simp), fun _ =>
      ⟨a₁.image.sections, dirs, b, tables, hx.continues.sections, ?_, ?_,
        x, List.mem_singleton.2 rfl, hslot, hlabelled⟩⟩
    · rw [hgiven]
      exact hslotted
    · refine ⟨?_, ?_, ⟨c₁, bs, c₂, ?_, hb, htables⟩, hcontinues.sections, hinPlace,
        ⟨i, o, hloose⟩, first, last, start, stop, t, t', hfirst, hlast, ht, hstart', ht', hstop, ?_⟩
      · rw [himage]
      · intro dir hdir
        obtain ⟨n, hn⟩ := List.mem_iff_getElem?.1 hdir
        obtain ⟨_, -, hslots⟩ := exists_left_of_forall₂ hslotted hn
        exact hslots.targets
      · exact ⟨hkeeps.1.trans hc.context.1.symm, hkeeps.2.trans hc.context.2.symm⟩
      · rw [Context.rva, hcontinues.context.2, himage]
        exact directory?_setDirectory a₁.image _ _

/-! ## All steps -/

/-- Imports that are found in a catalogue come first; libraries only get more of them. -/
theorem keeps_addAutoImports {catalog : Option Catalog}
    (h : (a.addAutoImports catalog).result = .ok a') :
    a'.image = { a.image with imports := a'.image.imports } ∧ a'.now = a.now ∧
      a'.tablesInPlace = a.tablesInPlace ∧
      LibrariesGrow (a.image.imports.getD []) (a'.image.imports.getD []) := by
  rw [addAutoImports.eq_def] at h
  cases catalog with
  | none =>
    cases h
    exact ⟨rfl, rfl, rfl, .refl _⟩
  | some catalog =>
    cases h
    exact ⟨rfl, rfl, rfl, librariesGrow_autoImport _ _ _ _⟩

/-- Finding imports first changes no other directory. -/
theorem Directories.afterAutoImports {a₀ : Assembly} {catalog : Option Catalog}
    (h : (a.addAutoImports catalog).result = .ok a₀) {slots : List DirectorySlot}
    {l : List GeneratedDirectory} (hd : a₀.Directories a' slots l)
    (hslots : .importTable ∈ slots) : a.Directories a' slots l := by
  obtain ⟨himage, hnow, htables, -⟩ := keeps_addAutoImports h
  have hc := continues_addAutoImports h
  have hsections : a₀.image.sections = a.image.sections := by rw [himage]
  have hdirectories : a₀.image.directories = a.image.directories := by rw [himage]
  refine ⟨hc.trans hd.continues, hd.now.trans hnow, ?_, fun slot hother => ?_,
    fun haddresses => (hd.tables haddresses).trans htables, hd.among, fun x hx => ?_, hd.labels,
    hd.stands, ?_, hd.inside, ?_, hd.apart, fun x hx => ?_, hd.complete⟩
  · refine ⟨?_, ?_, ?_, fun hnot => absurd hslots hnot, fun hnot => ?_⟩
    · rw [hd.same.exports, himage]
    · rw [hd.same.resources, himage]
    · rw [hd.same.tls, himage]
    · rw [hd.same.relocations hnot, himage]
  · rw [hd.others slot hother, Image.directory?, Image.directory?, hdirectories]
  · rw [hd.places x hx, Context.rva, Context.rva, hc.context.2]
  · rw [← hsections]
    exact hd.behind
  · rw [← hsections]
    exact hd.hosts
  · obtain ⟨b, hb, hlabelled⟩ := hd.encoded x hx
    rw [hnow] at hb
    exact ⟨b, hb.keeps hc.context, hlabelled⟩

/-- The data directories that are generated, in the order in which they are. -/
def generatedSlots : List DirectorySlot :=
  [.exportTable, .importTable, .importAddressTable, .resourceTable, .tlsTable, .baseRelocationTable]

/-- The steps after finding imports in a catalogue. -/
theorem directories_afterAutoImports {options : EncodeOptions}
    (h : (a.withDirectories options).result = .ok a') :
    ∃ a₀ l, (a.addAutoImports options.catalog).result = .ok a₀ ∧
      a₀.Directories a' generatedSlots l ∧
      (a₀.image.imports.getD [] ≠ [] → ∃ sections dirs b tables,
        SectionsGrow a₀.image.sections sections ∧
        List.Forall₂ ImportDirectory.Slotted (a₀.image.imports.getD []) dirs ∧
        a'.Imported sections dirs b tables ∧ ∃ x ∈ l, x.slot = .importTable ∧
          b.Labelled x.content) := by
  simp only [withDirectories, Logged.bind_eq_ok] at h
  obtain ⟨a₀, h₀, a₁, h₁, a₂, h₂, a₃, h₃, a₄, h₄, a₅, h₅, h₆⟩ := h
  obtain ⟨l₁, hexports⟩ := directories_addExports h₁
  obtain ⟨l₂, himports, himported⟩ := directories_addImports h₂
  obtain ⟨l₃, hresources⟩ := directories_addResources h₃
  obtain ⟨l₄, htls⟩ := directories_addTls h₄
  obtain ⟨l₅, hrelocations⟩ := directories_relocations h₅ h₆
  have hlater := (hresources.trans htls (by decide)).trans hrelocations (by decide)
  have hall := (hexports.trans himports (by decide)).trans hlater (by decide)
  refine ⟨a₀, _, h₀, hall, fun hne => ?_⟩
  rw [hexports.same.imports (by decide)] at himported
  obtain ⟨sections, dirs, b, tables, hgrow, hslotted, himported, x, hx, hslot, hlabelled⟩ :=
    himported hne
  exact ⟨sections, dirs, b, tables, hexports.continues.sections.trans hgrow, hslotted,
    himported.later hlater (by decide) (by decide), x,
    List.mem_append_left _ (List.mem_append_right _ hx), hslot, hlabelled⟩

/-- Without exports, the data directory of the exports is left as it was. -/
theorem directory?_of_exports_none {options : EncodeOptions}
    (h : (a.withDirectories options).result = .ok a') (hnone : a.image.exports = none) :
    a'.image.directory? .exportTable = a.image.directory? .exportTable := by
  simp only [withDirectories, Logged.bind_eq_ok] at h
  obtain ⟨a₀, h₀, a₁, h₁, a₂, h₂, a₃, h₃, a₄, h₄, a₅, h₅, h₆⟩ := h
  obtain ⟨himage, -, -, -⟩ := keeps_addAutoImports h₀
  obtain ⟨l₂, himports, -⟩ := directories_addImports h₂
  obtain ⟨l₃, hresources⟩ := directories_addResources h₃
  obtain ⟨l₄, htls⟩ := directories_addTls h₄
  obtain ⟨l₅, hrelocations⟩ := directories_relocations h₅ h₆
  have hlater := (himports.trans hresources (by decide)).trans
    (htls.trans hrelocations (by decide)) (by decide)
  have hnone₀ : a₀.image.exports = none := by
    rw [himage]
    exact hnone
  rw [addExports, hnone₀] at h₁
  cases h₁
  rw [hlater.others .exportTable (by decide), Image.directory?, Image.directory?, himage]

/-- No library has its table in place if none asks for an address. -/
theorem inPlaceTables_eq_nil {dirs dirs' : List ImportDirectory}
    (hslotted : List.Forall₂ ImportDirectory.Slotted dirs dirs')
    (hloose : ∀ dir ∈ dirs, dir.tableAddress = none) (sections : List Section)
    (tables : List Buffer) : inPlaceTables sections (dirs'.zip tables) = [] := by
  rw [inPlaceTables, List.filterMap_eq_nil_iff]
  rintro ⟨dir', table⟩ hmem
  obtain ⟨n, hn⟩ := List.mem_iff_getElem?.1 (List.of_mem_zip hmem).1
  obtain ⟨dir, hdir, imports, rfl, -⟩ := exists_left_of_forall₂ hslotted hn
  rw [fixedPlace, hloose dir (List.mem_of_getElem? hdir)]
  rfl

/-- **Without a catalogue, no table is written in place if no library asks for an address.** -/
theorem tablesInPlace_eq_nil {options : EncodeOptions}
    (h : (a.withDirectories options).result = .ok a') (hcatalog : options.catalog = none)
    (hnil : a.tablesInPlace = [])
    (hloose : ∀ dir ∈ a.image.imports.getD [], dir.tableAddress = none) :
    a'.tablesInPlace = [] := by
  simp only [withDirectories, Logged.bind_eq_ok] at h
  obtain ⟨a₀, h₀, a₁, h₁, a₂, h₂, a₃, h₃, a₄, h₄, a₅, h₅, h₆⟩ := h
  rw [addAutoImports.eq_def, hcatalog] at h₀
  cases h₀
  obtain ⟨l₁, hexports⟩ := directories_addExports h₁
  obtain ⟨l₂, -, himported⟩ := directories_addImports h₂
  obtain ⟨l₃, hresources⟩ := directories_addResources h₃
  obtain ⟨l₄, htls⟩ := directories_addTls h₄
  obtain ⟨l₅, hrelocations⟩ := directories_relocations h₅ h₆
  have hlater := (hresources.trans htls (by decide)).trans hrelocations (by decide)
  rw [hlater.tables (by decide)]
  rw [← hexports.same.imports (by decide)] at hloose
  cases himports : a₁.image.imports.getD [] with
  | nil =>
    have hsame : a₂ = a₁ := by
      rw [addImports.eq_def] at h₂
      cases hgiven : a₁.image.imports with
      | none =>
        rw [hgiven] at h₂
        cases h₂
        rfl
      | some dirs =>
        rw [hgiven, Option.getD_some] at himports
        rw [hgiven, himports] at h₂
        cases h₂
        rfl
    rw [hsame, hexports.tables (by decide), hnil]
  | cons dir rest =>
    obtain ⟨sections, dirs, b, tables, -, hslotted, himported, -⟩ :=
      himported (by rw [himports]; exact List.cons_ne_nil _ _)
    rw [himported.inPlace, inPlaceTables_eq_nil hslotted hloose]

/-- **All directories of an image, and where they stand.** -/
theorem directories_withDirectories {options : EncodeOptions}
    (h : (a.withDirectories options).result = .ok a') :
    ∃ l, a.Directories a' generatedSlots l ∧
      (a.image.imports.getD [] ≠ [] → ∃ sections dirs b tables,
        SectionsGrow a.image.sections sections ∧
        LibrariesGrow (a.image.imports.getD []) dirs ∧
        a'.Imported sections dirs b tables ∧ ∃ x ∈ l, x.slot = .importTable ∧
          b.Labelled x.content) := by
  obtain ⟨a₀, l, h₀, hall, himported⟩ := directories_afterAutoImports h
  obtain ⟨-, -, -, hlibraries⟩ := keeps_addAutoImports h₀
  refine ⟨l, hall.afterAutoImports h₀ (by decide), fun hne => ?_⟩
  obtain ⟨sections, dirs, b, tables, hgrow, hslotted, himported⟩ :=
    himported (hlibraries.ne_nil hne)
  exact ⟨sections, dirs, b, tables, (continues_addAutoImports h₀).sections.trans hgrow,
    hlibraries.trans (.of_slotted hslotted), himported⟩

end Steps

end Assembly

end PortableImage
