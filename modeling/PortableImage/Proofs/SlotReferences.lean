import PortableImage.Proofs.Directory.AutoImport
import PortableImage.Proofs.Directory.References
import PortableImage.Proofs.Encode.AddressTables
import PortableImage.Proofs.Unresolved

/-!
# Fields that ask for the slot of an import

A field may ask for the address slot of a symbol by one label throughout.  The symbol is imported
then, and its slot has a label that is made from the one the fields use.  It is that label itself if
a label may have these characters and no other import has got it before; otherwise the fields are
left without a value.

* `SlotReferences` — the fields that refer to a symbol ask for its slot by one label.
* `SlotImported` — the import of a symbol, and which label its slot has.
* `isSome_slot` — the labels of slots are bound.
* `encodeImage_slotReferences` — the fields find the slot they ask for.
-/

set_option autoImplicit false

namespace PortableImage

open LabelPool

/-! ## The import of a symbol -/

/-- The fields that refer to the symbol ask for its slot, by the label, and there are such fields. -/
structure SlotReferences (sections : List Section) (symbol label : String) : Prop where
  leads : slotSymbol label = symbol
  only : ∀ s ∈ sections, ∀ e ∈ s.content.fields.entries, ∀ r,
    classify e.2.target = some r → r.symbol = symbol → e.2.target.reduce = .label label
  used : ∃ s ∈ sections, ∃ e ∈ s.content.fields.entries, e.2.target.reduce = .label label

/-- No label that is made from a reference to another symbol can be the label. -/
def Unrivalled (sections : List Section) (catalog : Catalog) (symbol label : String) : Prop :=
  ∀ q ∈ requests sections catalog, q.1.symbol ≠ symbol →
    ¬NamedAfter (Import.slotHint q.1) label

/-- The symbol is imported once, from the library.  The label of its slot is `name`, which is made from
`label`. -/
structure SlotImported (dirs : List ImportDirectory) (symbol label library name : String) :
    Prop where
  imported : ∃ d ∈ dirs, ∃ i ∈ d.imports, i.name = some symbol
  only : ∀ d ∈ dirs, ∀ i ∈ d.imports, i.name = some symbol →
    libraryMatches d.library library = true ∧ i.target = some name
  named : NamedAfter label name
  /-- It is that label if the characters allow it, and if no other import has the label. -/
  eq_iff : name = label ↔ sanitize label = label ∧
    ∀ d ∈ dirs, ∀ i ∈ d.imports, i.target = some label → i.name = some symbol

/-- A label that is made from itself has only characters that a label may have. -/
theorem LabelPool.NamedAfter.sanitize_eq {label : String} (h : NamedAfter label label) :
    sanitize label = label := by
  obtain heq | ⟨n, heq⟩ := h
  · exact heq.symm
  · have hlength := congrArg (fun l => l.toList.length) heq
    simp only [numbered, sanitize, String.toList_append, String.toList_ofList, List.length_append,
      List.length_map] at hlength
    have hone : "_".toList.length = 1 := rfl
    omega

/-- A label that is made from a hint starts like the hint, as far as its characters may stand in a
label. -/
theorem LabelPool.NamedAfter.starts {hint label : String} (h : NamedAfter hint label) :
    (sanitize hint).toList <+: label.toList := by
  obtain rfl | ⟨n, rfl⟩ := h
  · exact List.prefix_rfl
  · rw [numbered, String.toList_append, String.toList_append, List.append_assoc]
    exact List.prefix_append _ _

/-- **The imports of the requests have the slot that the fields ask for.** -/
theorem AutoImport.Serves.slotImported {pool pool' : LabelPool} {sections : List Section}
    {catalog : Catalog} {dirs : List ImportDirectory} {symbol label library : String}
    (h : Serves pool (requests sections catalog) pool' dirs)
    (hlibrary : catalog.lookup symbol = some library) (hdefined : symbol ∉ definedLabels sections)
    (hfree : label ∉ pool.known) (hrefs : SlotReferences sections symbol label) :
    ∃ name, SlotImported dirs symbol label library name ∧
      (sanitize label = label → Unrivalled sections catalog symbol label → name = label) := by
  have hsymbol := hrefs.leads
  -- the requests for the symbol are all the same
  have honly : ∀ q ∈ requests sections catalog, q.1.symbol = symbol →
      q = (.slot symbol label, library) := by
    rintro ⟨r, found⟩ hq heq
    obtain ⟨s, hs, e, he, hr, -, hlookup⟩ := mem_requests.1 hq
    have hclassify := classify_eq_slot.2 ⟨rfl, hrefs.only s hs e he r hr heq⟩
    rw [hr, Option.some.injEq, hsymbol] at hclassify
    dsimp only at heq hlookup
    rw [heq, hlibrary, Option.some.injEq] at hlookup
    exact Prod.ext hclassify hlookup.symm
  have hasked : (.slot symbol label, library) ∈ requests sections catalog := by
    obtain ⟨s, hs, e, he, hreduce⟩ := hrefs.used
    have hclassify := classify_eq_slot.2 ⟨rfl, hreduce⟩
    rw [hsymbol] at hclassify
    exact mem_requests.2 ⟨s, hs, e, he, hclassify, hdefined, hlibrary⟩
  obtain ⟨d, hd, i, hi, hname⟩ := h.served _ hasked
  have hdirs := List.mem_of_find?_eq_some hd
  have hmem := mem_imported.2 ⟨d, hdirs, hi⟩
  obtain ⟨q, hq, name, hsame, -, htarget, hnamed, hhint⟩ := h.serves d hdirs i hi
  rw [hname, Option.some.injEq] at hsame
  rw [honly q hq hsame.symm] at hnamed hhint
  dsimp only [Import.slotHint] at hnamed hhint
  have hunique : ∀ d' ∈ dirs, ∀ i' ∈ d'.imports, i'.name = some symbol → i' = i :=
    fun d' hd' i' hi' hname' =>
      List.inj_on_of_nodup_map h.names (mem_imported.2 ⟨d', hd', hi'⟩) hmem (hname'.trans hname.symm)
  have himported : SlotImported dirs symbol label library name := by
    refine ⟨⟨d, hdirs, i, hi, hname⟩, fun d' hd' i' hi' hname' => ⟨?_, ?_⟩, hnamed, ?_, ?_⟩
    · obtain ⟨q', hq', -, hsame', hmatch, -⟩ := h.serves d' hd' i' hi'
      rw [hname', Option.some.injEq] at hsame'
      rwa [honly q' hq' hsame'.symm] at hmatch
    · rw [hunique d' hd' i' hi' hname', htarget]
    · rintro rfl
      refine ⟨hnamed.sanitize_eq, fun d' hd' i' hi' htarget' => ?_⟩
      rw [List.inj_on_of_nodup_map h.targets (mem_imported.2 ⟨d', hd', hi'⟩) hmem
        (htarget'.trans htarget.symm)]
      exact hname
    · rintro ⟨hplain, hothers⟩
      rw [hplain] at hhint
      -- the label has been handed out, so some slot has it
      obtain hknown | hslot := (h.known label).1 hhint
      · exact absurd hknown hfree
      · obtain ⟨i', hi', htarget'⟩ := List.mem_map.1 hslot
        obtain ⟨d', hd', hi'⟩ := mem_imported.1 hi'
        rw [hunique d' hd' i' hi' (hothers d' hd' i' hi' htarget'), htarget] at htarget'
        exact Option.some.inj htarget'
  refine ⟨name, himported, fun hplain hunrivalled => himported.eq_iff.2 ⟨hplain, ?_⟩⟩
  intro d' hd' i' hi' htarget'
  obtain ⟨q', hq', target, hsame', -, htarget'', hnamed', -⟩ := h.serves d' hd' i' hi'
  rw [htarget', Option.some.injEq] at htarget''
  rw [hsame', Option.some.injEq]
  by_contra hother
  exact hunrivalled q' hq' hother (htarget'' ▸ hnamed')

/-! ## Labels of slots have values -/

/-- The label of a slot is a label of the assembled image. -/
theorem Assembly.Imported.mem_labels {a : Assembly} {sections : List Section}
    {dirs : List ImportDirectory} {b : Buffer} {tables : List Buffer}
    (h : a.Imported sections dirs b tables) {d : ImportDirectory} (hd : d ∈ dirs) {i : Import}
    (hi : i ∈ d.imports) {l : String} (hl : i.target = some l) : l ∈ a.labels := by
  obtain ⟨n, hn⟩ := List.mem_iff_getElem?.1 hd
  obtain ⟨j, hj⟩ := List.mem_iff_getElem?.1 hi
  obtain ⟨table, htable, -, hslots⟩ := h.exists_table hn
  have hslot := hslots j i l hj hl
  have hmem : l ∈ table.labels := List.mem_map.2 ⟨_, hslot, rfl⟩
  rw [Assembly.labels, List.mem_append, definedLabels_eq, List.mem_flatMap, List.mem_flatMap]
  cases hplace : fixedPlace sections d with
  | none =>
    obtain ⟨m, o, hloose⟩ := h.loose
    obtain ⟨s, hs, hexports⟩ := (hloose n d table hn htable hplace).exports hslot
    exact .inl ⟨s, List.mem_of_getElem? hs, List.mem_map.2 ⟨_, hexports, rfl⟩⟩
  | some rva =>
    refine .inr ⟨(rva, table), ?_, hmem⟩
    rw [h.inPlace]
    refine List.mem_filterMap.2 ⟨(d, table), List.mem_of_getElem?
      (List.getElem?_zip_eq_some.2 ⟨hn, htable⟩), ?_⟩
    rw [hplace]
    rfl

/-- The labels of an assembled image, and that of its start, are bound when it is placed. -/
theorem HeadedImage.Lays.mem_boundLabels {h : HeadedImage} {a : Assembly} {target : Target}
    {size : Nat} (hl : h.Lays a target size) {l : String}
    (hmem : l = a.context.start ∨ l ∈ a.labels) : l ∈ boundLabels h a.tablesInPlace := by
  simp only [boundLabels, List.mem_append]
  rw [Assembly.labels, List.mem_append] at hmem
  obtain rfl | hmem | hmem := hmem
  · refine .inl ?_
    rw [Buffer.labels, hl.exports]
    exact List.mem_singleton.2 rfl
  · refine .inr (.inr (.inl ?_))
    rw [definedLabels_eq] at hmem
    obtain ⟨s, hs, hls⟩ := List.mem_flatMap.1 hmem
    obtain ⟨n, hn⟩ := List.mem_iff_getElem?.1 hs
    obtain ⟨s', hs', hheaded⟩ := exists_right_of_forall₂ hl.sections hn
    refine List.mem_flatMap.2 ⟨s', List.mem_of_getElem? hs', ?_⟩
    have hexports := (Section.content_headed hheaded).grows.exports.subset
    refine List.mem_append_right _ (List.mem_append_left _ ?_)
    obtain ⟨x, hx, rfl⟩ := List.mem_map.1 hls
    exact List.mem_map.2 ⟨x, hexports hx, rfl⟩
  · refine .inr (.inr (.inr (.inr ?_)))
    obtain ⟨t, ht, hlt⟩ := List.mem_flatMap.1 hmem
    exact List.mem_flatMap.2 ⟨t, mem_orderedTables.2 ht, hlt⟩

section Slots

variable {image : Image} {options : EncodeOptions} {clock : UInt32} {catalog : Catalog}
  {h : HeadedImage} {p : Placement}

/-- **The labels of the slots of automatic imports have values** in a placed image, as has that of the
start of the image. -/
theorem isSome_slot (now : UInt32) (hplaced : placedImage image options clock = .ok (h, p))
    (hcatalog : options.catalog = some catalog) (himports : image.imports = none) {l : String}
    (hl : l = (Assembly.start image now).context.start ∨ some l ∈ AutoImport.slots
      (autoImport (Assembly.start image now).context.pool image.sections none catalog).dirs) :
    (p.binding.get? l).isSome := by
  simp only [placedImage, bind_eq_ok, pure_eq_ok, Prod.mk.injEq] at hplaced
  obtain ⟨a, ha, h', hh, p', hplaced, rfl, rfl⟩ := hplaced
  obtain ⟨size, hlays⟩ := lays_withHeaders hh
  rw [Binding.isSome_get?, (binds_place h' a.tablesInPlace).labels p' hplaced]
  refine hlays.mem_boundLabels ?_
  refine hl.imp (fun hstart => ?_) fun hslot => ?_
  · exact hstart.trans (Assembly.continues_withDirectories ha).context.2.symm
  · obtain ⟨a₀, _, h₀, -, himported⟩ := Assembly.directories_afterAutoImports ha
    have hdirs : a₀.image.imports.getD [] =
        (autoImport (Assembly.start image now).context.pool image.sections none catalog).dirs := by
      rw [hcatalog] at h₀
      cases h₀
      show (autoImport _ image.sections image.imports catalog).imports.getD [] = _
      rw [himports]
      rfl
    rw [hdirs] at himported
    obtain ⟨i, hi, htarget⟩ := List.mem_map.1 hslot
    obtain ⟨d, hd, hi⟩ := AutoImport.mem_imported.1 hi
    obtain ⟨sections, dirs, b, tables, -, hslotted, himported, -⟩ :=
      himported (List.ne_nil_of_mem hd)
    obtain ⟨n, hn⟩ := List.mem_iff_getElem?.1 hd
    obtain ⟨j, hj⟩ := List.mem_iff_getElem?.1 hi
    obtain ⟨_, hn', imports, rfl, hslots⟩ := exists_right_of_forall₂ hslotted hn
    obtain ⟨_, hj', target, rfl, hgiven⟩ := exists_right_of_forall₂ hslots hj
    exact himported.mem_labels (List.mem_of_getElem? hn') (List.mem_of_getElem? hj')
      (congrArg some (hgiven l htarget))

end Slots

/-- A field whose target is a label that has a value is not left. -/
theorem Placement.Leaves.reduce_ne {p : Placement} {f : PendingField} (hf : p.Leaves f)
    (hconstant : p.binding.Constant) {l : String} (hl : (p.binding.get? l).isSome) :
    f.target.reduce ≠ .label l := by
  intro hreduce
  obtain ⟨-, -, hnone⟩ := hf
  have hvalue : (Expr.label l).constantUnder p.binding = some _ :=
    Expr.constantUnder_of_known hconstant fun l' hl' => by
      rw [List.mem_singleton.1 hl']
      exact hl
  rw [← Expr.constantUnder_reduce, hreduce, hvalue] at hnone
  exact nomatch hnone

/-- **Fields find the slot they ask for**, if nothing else can get its label.  The catalogue has the
symbol, no section defines it or the label, and all fields that refer to the symbol ask for its slot by
the label.  Then, whatever labels are in use, the symbol is imported once, from the library of the
catalogue.  Its slot has the label exactly if a label may have these characters and no other import
got it first; this cannot be when no label made from another reference can be this one.  In an image
that starts without imports the label then has a value, and no field is left that asks for it. -/
theorem encodeImage_slotReferences {image : Image} {options : EncodeOptions} {clock : UInt32}
    {catalog : Catalog} {symbol label library : String} (hcatalog : options.catalog = some catalog)
    (himports : image.imports = none) (hlibrary : catalog.lookup symbol = some library)
    (hdefined : symbol ∉ definedLabels image.sections)
    (hfree : label ∉ definedLabels image.sections)
    (hrefs : SlotReferences image.sections symbol label) :
    (∀ pool : LabelPool, label ∉ pool.known → ∃ dirs name,
      (autoImport pool image.sections none catalog).imports = some dirs ∧
      SlotImported dirs symbol label library name ∧
      (sanitize label = label → Unrivalled image.sections catalog symbol label → name = label)) ∧
    ∀ h p, placedImage image options clock = .ok (h, p) → sanitize label = label →
      Unrivalled image.sections catalog symbol label →
      (p.binding.get? label).isSome ∧ ∀ f, p.Leaves f → f.target.reduce ≠ .label label := by
  have hslot : ∀ pool : LabelPool, label ∉ pool.known → ∃ name,
      SlotImported (autoImport pool image.sections none catalog).dirs symbol label library name ∧
      (sanitize label = label → Unrivalled image.sections catalog symbol label → name = label) :=
    fun pool hpool => (serves_autoImport pool image.sections catalog).slotImported hlibrary hdefined
      hpool hrefs
  refine ⟨fun pool hpool => ?_, fun h p hplaced hplain hunrivalled => ?_⟩
  · obtain ⟨name, himported, hname⟩ := hslot pool hpool
    obtain ⟨d, hd, -⟩ := himported.imported
    cases hresult : (autoImport pool image.sections none catalog).imports with
    | none =>
      rw [AutoImport.dirs, hresult] at hd
      cases hd
    | some dirs =>
      rw [AutoImport.dirs, hresult, Option.getD_some] at himported
      exact ⟨dirs, name, rfl, himported, hname⟩
  · have hbound : (p.binding.get? label).isSome := by
      refine isSome_slot 0 hplaced hcatalog himports ?_
      by_cases hknown : label ∈ (Assembly.start image 0).context.pool.known
      · rw [Assembly.mem_known_start, himports] at hknown
        obtain hstart | hmem | hmem := hknown
        · exact .inl hstart
        · exact absurd hmem hfree
        · cases hmem
      · obtain ⟨name, himported, hname⟩ := hslot _ hknown
        obtain ⟨d, hd, i, hi, hsymbol⟩ := himported.imported
        obtain ⟨-, htarget⟩ := himported.only d hd i hi hsymbol
        rw [hname hplain hunrivalled] at htarget
        exact .inr (List.mem_map.2 ⟨i, AutoImport.mem_imported.2 ⟨d, hd, hi⟩, htarget⟩)
    exact ⟨hbound, fun f hf => hf.reduce_ne (constant_placedImage hplaced) hbound⟩

/-- A program that holds the addresses of two slots, of which one has a decorated name. -/
def decoratedName : Image :=
  { Image.empty with
    sections := [.new ".text" (.read ||| .execute)
      (Buffer.placeholder (.label "_Sleep@4") .u32 .little ++
        Buffer.placeholder (.label "iat_ExitProcess") .u32 .little)] }

/-- The options to encode it with imports from a catalogue. -/
def decoratedCatalog : EncodeOptions :=
  { EncodeOptions.new .exe with
    catalog := some [("_Sleep@4", "kernel32"), ("ExitProcess", "kernel32")] }

theorem encodeImage_slotReferences_decoratedName :
    (∃ dirs name, (autoImport (LabelPool.empty.reserveAll (definedLabels decoratedName.sections))
        decoratedName.sections none (decoratedCatalog.catalog.getD [])).imports = some dirs ∧
      SlotImported dirs "_Sleep@4" "_Sleep@4" "kernel32" name ∧ name ≠ "_Sleep@4") ∧
    (encodeImage decoratedName decoratedCatalog 0).result =
      .error (.unresolvedSymbol ["_Sleep@4"]) ∧
    ∃ h p, placedImage decoratedName decoratedCatalog 0 = .ok (h, p) ∧
      (p.binding.get? "iat_ExitProcess").isSome ∧
      ∀ f, p.Leaves f → f.target.reduce ≠ .label "iat_ExitProcess" := by
  have hrefs : ∀ symbol label, slotSymbol label = symbol →
      (∀ s ∈ decoratedName.sections, ∀ e ∈ s.content.fields.entries, ∀ r ∈ classify e.2.target,
        r.symbol = symbol → e.2.target.reduce = .label label) →
      (∃ s ∈ decoratedName.sections, ∃ e ∈ s.content.fields.entries,
        e.2.target.reduce = .label label) →
      SlotReferences decoratedName.sections symbol label :=
    fun _ _ hleads honly hused => ⟨hleads, fun s hs e he r hr => honly s hs e he r hr, hused⟩
  refine ⟨?_, ?_, ?_⟩
  · obtain ⟨hslot, -⟩ := @encodeImage_slotReferences decoratedName decoratedCatalog 0 _ "_Sleep@4"
      "_Sleep@4" "kernel32" rfl rfl (by decide +kernel) (by decide +kernel) (by decide +kernel)
      (hrefs _ _ (by decide +kernel) (by decide +kernel) (by decide +kernel))
    obtain ⟨dirs, name, hdirs, himported, -⟩ :=
      hslot (LabelPool.empty.reserveAll (definedLabels decoratedName.sections)) (by decide +kernel)
    refine ⟨dirs, name, hdirs, himported, fun heq => ?_⟩
    exact absurd (himported.eq_iff.1 heq).1 (by decide +kernel)
  · exact failure?_eq_some.1 (by decide +kernel)
  · obtain ⟨⟨h, p⟩, hplaced⟩ : ∃ x, placedImage decoratedName decoratedCatalog 0 = .ok x :=
      isSome_toOption.1 (by decide +kernel)
    have hrivals : ∀ q ∈ requests decoratedName.sections (decoratedCatalog.catalog.getD []),
        q.1.symbol ≠ "ExitProcess" →
        ¬(sanitize (Import.slotHint q.1)).toList <+: "iat_ExitProcess".toList := by decide +kernel
    obtain ⟨-, hbound⟩ := @encodeImage_slotReferences decoratedName decoratedCatalog 0 _
      "ExitProcess" "iat_ExitProcess" "kernel32" rfl rfl (by decide +kernel) (by decide +kernel)
      (by decide +kernel) (hrefs _ _ (by decide +kernel) (by decide +kernel) (by decide +kernel))
    refine ⟨h, p, hplaced, hbound h p hplaced (by decide +kernel) ?_⟩
    exact fun q hq hother hnamed => hrivals q hq hother hnamed.starts

end PortableImage
