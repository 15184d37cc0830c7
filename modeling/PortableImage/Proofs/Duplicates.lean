import PortableImage.Proofs.Labels.Placement

/-!
# Which labels are bound twice

An image whose labels differ can fail with a duplicate label all the same: the call stubs that
automatic imports ask for get the names of their symbols, and the helper of call stubs that do not
depend on their address has a fixed label; nobody looks whether these labels are free.  Nor does
anybody look at the labels that an earlier encoding has left in the sections.  All other labels that
the encoding makes for itself are fresh.

* `failsWith_beforeRelocations` — generating directories binds no labels.
* `failsWith_findRelocations` — looking for base relocations binds those of the sections.
* `encodeImage_duplicateBinding` — a duplicate label is that of a call stub, of the helper, or one
  that an earlier encoding has left.
-/

set_option autoImplicit false

namespace PortableImage

namespace Assembly

/-! ## Generating directories -/

@[simp]
theorem failsWith_addSection (a : Assembly) (s : Section) :
    FailsWith NamesNoLabel (a.addSection s).result := by
  rw [result_addSection]
  exact failsWith_ok _

@[simp]
theorem failsWith_addAutoImports (a : Assembly) (catalog : Option Catalog) :
    FailsWith NamesNoLabel (a.addAutoImports catalog).result := by
  cases catalog <;> exact failsWith_ok _

@[simp]
theorem failsWith_addExports (a : Assembly) : FailsWith NamesNoLabel a.addExports.result := by
  unfold addExports
  split <;> simp

@[simp]
theorem failsWith_addParts (a : Assembly) (dirs : List ImportDirectory) (tables : List Buffer) :
    FailsWith NamesNoLabel (a.addParts dirs tables).result := by
  have htable : ∀ (b : Assembly) table, FailsWith NamesNoLabel (b.addTable table).result := by
    intro b table
    unfold addTable
    split <;> simp
  have hstubs : ∀ (b : Assembly) stubs, FailsWith NamesNoLabel (b.addCallStubs stubs).result := by
    intro b stubs
    unfold addCallStubs
    split <;> simp
  simp [addParts, htable, hstubs]

@[simp]
theorem failsWith_addImports (a : Assembly) : FailsWith NamesNoLabel a.addImports.result := by
  unfold addImports
  split <;> simp

@[simp]
theorem failsWith_addResources (a : Assembly) : FailsWith NamesNoLabel a.addResources.result := by
  unfold addResources
  split <;> simp

@[simp]
theorem failsWith_addTls (a : Assembly) : FailsWith NamesNoLabel a.addTls.result := by
  unfold addTls
  split <;> simp

@[simp]
theorem failsWith_addRelocations (a : Assembly) :
    FailsWith NamesNoLabel a.addRelocations.result := by
  unfold addRelocations
  split <;> simp

/-- **The directories bind no labels.** -/
theorem failsWith_beforeRelocations (a : Assembly) (options : EncodeOptions) :
    FailsWith NamesNoLabel (a.beforeRelocations options).result := by
  simp [beforeRelocations]

end Assembly

theorem binds_provisionalBinding (address : Expr) (b : Binding) (sections : List Section) :
    b.Binds (definedLabels sections) id (provisionalBinding address b sections) := by
  induction sections generalizing address b with
  | nil => exact Binding.binds_ok id b
  | cons s rest ih =>
    rw [provisionalBinding, ← bind_assoc]
    exact (s.content.binds_merge address b).bind fun c _ => ih _ c

/-- **Looking for base relocations binds the labels of the sections.** -/
theorem Assembly.failsWith_findRelocations (a : Assembly) (options : EncodeOptions) :
    FailsWith (Twice (definedLabels a.image.sections)) (a.findRelocations options).result := by
  unfold findRelocations
  split
  · have hbinding := (binds_provisionalBinding (.label a.context.start) .empty a.image.sections).fails
    simp only [relocationTables, Logged.result_bind, Logged.result_liftM, Logged.result_note,
      Logged.result_pure, failsWith_bind]
    exact ⟨⟨hbinding, fun _ _ => ⟨failsWith_ok _, fun _ _ => failsWith_ok _⟩⟩,
      fun _ _ => failsWith_ok _⟩
  · exact failsWith_ok _

/-! ## All stages -/

/-- What is noted once is not bound twice. -/
theorem count_lt_two {names known : List String} {l : String} (hle : names.count l ≤ known.count l)
    (hnodup : known.Nodup) : ¬2 ≤ names.count l := by
  have := List.nodup_iff_count_le_one.1 hnodup l
  omega

section

variable {image : Image} {options : EncodeOptions} {clock : UInt32} {l : String}
  (hnodup : (definedLabels image.sections ++
    Assembly.importLabels (image.imports.getD [])).Nodup)
  (hcollides : ¬Collides image.pic l) (hstub : ¬Assembly.StubAdded image options l)

include hnodup hcollides hstub

theorem failsWith_withDirectories :
    FailsWith (· ≠ .duplicateBinding l)
      ((Assembly.start image clock).withDirectories options).result := by
  rw [Assembly.result_withDirectories, failsWith_bind]
  refine ⟨(Assembly.failsWith_beforeRelocations _ options).mono fun _ he => he.notDuplicate l,
    fun a ha => ?_⟩
  have hlabelled := Assembly.labelled_beforeRelocations ha
  rw [failsWith_bind]
  refine ⟨(a.failsWith_findRelocations options).mono fun e he heq => ?_,
    fun b _ => b.failsWith_addRelocations.mono fun _ he => he.notDuplicate l⟩
  refine count_lt_two ?_ hlabelled.nodup (he l heq)
  have hpays := hlabelled.pays hnodup l hcollides hstub
  rw [List.count_cons, Assembly.labels, List.count_append] at hpays
  omega

end

/-- **A label is bound twice only where it is taken without a look.**  If the labels that sections
define and the labels that imports have are pairwise distinct, then a duplicate label is the helper
of call stubs, or the name of a symbol whose call stub automatic imports ask for, or the label that an
earlier encoding gave to the size in the file of a section whose size is fixed now. -/
theorem encodeImage_duplicateBinding {image : Image} {options : EncodeOptions} {clock : UInt32}
    {l : String}
    (hnodup : (definedLabels image.sections ++
      Assembly.importLabels (image.imports.getD [])).Nodup)
    (h : (encodeImage image options clock).result = .error (.duplicateBinding l)) :
    Collides image.pic l ∨ Assembly.StubAdded image options l ∨
      l ∈ leftoverLabels image.sections := by
  by_contra hneither
  obtain ⟨hcollides, hneither⟩ := not_or.1 hneither
  obtain ⟨hstub, hleftover⟩ := not_or.1 hneither
  refine absurd rfl ((?_ : FailsWith (· ≠ .duplicateBinding l)
    (encodeImage image options clock).result) _ h)
  simp only [encodeImage, Logged.result_bind, Logged.result_liftM, failsWith_bind]
  refine ⟨failsWith_withDirectories hnodup hcollides hstub, fun a ha => ⟨?_, fun headed hh => ⟨?_,
    fun p _ => ?_⟩⟩⟩
  · exact (failsWith_withHeaders a options.target).mono fun _ he => he l
  · obtain ⟨size, hlays⟩ := lays_withHeaders hh
    obtain ⟨p, hlabelled⟩ := (Assembly.labelled_withDirectories ha).withHeaders
      (Assembly.continues_withDirectories ha).leftoverLabels hh hlays
    refine (binds_place headed a.tablesInPlace).fails.mono fun e he heq => ?_
    exact count_lt_two (hlabelled.pays hnodup l hcollides hstub hleftover) hlabelled.nodup (he l heq)
  · exact (failsWith_finish headed p).mono fun _ he => he l

/-- Code that calls the imported symbol `iat`, which is also what the linker calls its first address
table. -/
def callOfIat : Image :=
  { Image.empty with
    header := { FileHeader.empty with machine := some .i386 }
    sections := [.new ".text" (.read ||| .execute)
      ((Buffer.empty.addExport "here" 0) ++
        .placeholder (.label "iat" - .label "here") .u32 .little)] }

/-- A library with that symbol. -/
def catalogOfIat : EncodeOptions :=
  { EncodeOptions.new .dll with catalog := some [("iat", "k.dll")] }

theorem encodeImage_duplicateBinding_callOfIat :
    (encodeImage callOfIat catalogOfIat 0).result = .error (.duplicateBinding "iat") ∧
      (Collides callOfIat.pic "iat" ∨ Assembly.StubAdded callOfIat catalogOfIat "iat" ∨
        "iat" ∈ leftoverLabels callOfIat.sections) := by
  have hfails : (encodeImage callOfIat catalogOfIat 0).result =
      .error (.duplicateBinding "iat") := failure?_eq_some.1 (by decide +kernel)
  exact ⟨hfails, encodeImage_duplicateBinding (by decide +kernel) hfails⟩

/-- An image whose first section was encoded before, with a size in the file that was fixed since. -/
def encodedBefore : Image :=
  { Image.empty with
    sections := [
      { Section.new ".text" (.read ||| .execute) (.ofBytes [0x90, 0xc3]) with
        rawSize := some 16
        rawSizeLabel := some ⟨"sect_rawsize", .inl (by decide +kernel)⟩ },
      .new ".data" (.read ||| .write) (.ofBytes [1, 2, 3, 4])] }

example : failure? (encodeImage encodedBefore (.new .exe) 0).result =
    some (.duplicateBinding "sect_rawsize") := by decide +kernel

end PortableImage
