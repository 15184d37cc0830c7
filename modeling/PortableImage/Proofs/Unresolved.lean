import PortableImage.Proofs.Duplicates
import PortableImage.Proofs.Encode.OnePass
import PortableImage.Proofs.Expr.Labels

/-!
# Which labels are reported as unresolved

An encoding reports unresolved symbols only when everything is placed and fields of the output are
left without a value.  It reports the labels of these fields as they were written down, that of the
checksum excepted.  A label that has a value is among them when it stands beside one that has none;
and nothing is reported where only the checksum is missing.

* `Placement.Leaves`, `Placement.Unbound` — the fields without a value, and the labels that
  `Expr.resolve` reports of them.
* `failsWith_placedImage` — no stage before the last reports unresolved symbols.
* `Placement.Reports` — what an encoding reports.
* `encodeImage_unresolvedSymbol` — every such report is one of these.
-/

set_option autoImplicit false

namespace PortableImage

open Buffer

/-! ## Stages that report no symbols -/

@[simp]
theorem notUnresolved_duplicateBinding (l : String) : NotUnresolved (.duplicateBinding l) :=
  fun _ h => nomatch h

namespace Binding

@[simp]
theorem notUnresolved_bind (b : Binding) (name : String) (value : Expr) :
    FailsWith NotUnresolved (b.bind name value) := by
  unfold bind
  split <;> simp

@[simp]
theorem notUnresolved_bindAll (b : Binding) (pairs : List (String × Expr)) :
    FailsWith NotUnresolved (b.bindAll pairs) := by
  induction pairs generalizing b with
  | nil => exact failsWith_ok b
  | cons p rest ih =>
    rw [bindAll_cons]
    simp [ih]

@[simp]
theorem notUnresolved_merge (b other : Binding) : FailsWith NotUnresolved (b.merge other) :=
  b.notUnresolved_bindAll _

@[simp]
theorem notUnresolved_bindOption (b : Binding) (label : Option String) (value : Nat) :
    FailsWith NotUnresolved (b.bindOption label value) := by
  cases label with
  | some name => exact b.notUnresolved_bind name _
  | none => exact failsWith_ok b

end Binding

@[simp]
theorem Buffer.notUnresolved_binding (b : Buffer) (base : Expr) :
    FailsWith NotUnresolved (b.binding base) :=
  Binding.empty.notUnresolved_bindAll _

@[simp]
theorem notUnresolved_placeSections (n : LayoutNumbers) (l : List Section)
    (p : Placement) : FailsWith NotUnresolved (placeSections n l p).result := by
  have hcursor : ∀ (c : AddressCursor) name fixed size,
      FailsWith NotUnresolved (c.place name fixed size).1 := fun c name fixed size =>
    (failsWith_placeCursor c name fixed size).mono fun _ he => he.notUnresolved
  induction l generalizing p with
  | nil => exact failsWith_ok p
  | cons e rest ih => simp [placeSections, placeSection, hcursor, ih]

@[simp]
theorem notUnresolved_writeTables (base : Nat) (tables : List (Nat × Buffer)) (p : Placement) :
    FailsWith NotUnresolved (writeTables base tables p) := by
  have htable : ∀ (p : Placement) rva table, FailsWith NotUnresolved (writeTable base p rva table) := by
    intro p rva table
    have hlayout : ∀ fault, NotUnresolved (.layout fault) := fun _ _ h => nomatch h
    unfold writeTable
    split
    · simp [hlayout]
    · dsimp only
      split <;> simp [hlayout]
  induction tables generalizing p with
  | nil => exact failsWith_ok p
  | cons t rest ih => simp [writeTables, htable, ih]

theorem notUnresolved_provisionalBinding (address : Expr) (b : Binding) (sections : List Section) :
    FailsWith NotUnresolved (provisionalBinding address b sections) := by
  induction sections generalizing address b with
  | nil => exact failsWith_ok b
  | cons s rest ih => simp [provisionalBinding, ih]

theorem Assembly.notUnresolved_findRelocations (a : Assembly) (options : EncodeOptions) :
    FailsWith NotUnresolved (a.findRelocations options).result := by
  unfold findRelocations
  split
  · simp [relocationTables, notUnresolved_provisionalBinding]
  · exact failsWith_ok _

/-- **No stage before the last reports unresolved symbols.** -/
theorem failsWith_placedImage (image : Image) (options : EncodeOptions) (clock : UInt32) :
    FailsWith NotUnresolved (placedImage image options clock) := by
  have hother : ∀ e, NamesNoLabel e → NotUnresolved e := fun _ he => he.notUnresolved
  simp only [placedImage, failsWith_bind, Assembly.result_withDirectories]
  refine ⟨⟨(Assembly.failsWith_beforeRelocations _ options).mono hother,
    fun a _ => ⟨a.notUnresolved_findRelocations options,
      fun b _ => b.failsWith_addRelocations.mono hother⟩⟩,
    fun a _ => ⟨(namesNoLabel_withHeaders a options.target).mono hother, fun h _ => ⟨?_, ?_⟩⟩⟩
  · simp [place]
  · exact fun _ _ => failsWith_pure _

/-! ## The last stage -/

/-- Symbols are reported when fields are left, the checksum not written. -/
theorem finish_eq_unresolved {h : HeadedImage} {p : Placement} {symbols : List String}
    (hfails : finish h p = .error (.unresolvedSymbol symbols)) :
    ∃ output, p.output.fill.fixup p.binding = .ok output ∧
      symbols = unresolvedLabels h.pending.checksum output ∧ output.fields.isEmpty = false := by
  simp only [finish, bind_eq_error] at hfails
  rcases hfails with hfix | ⟨output, hfix, hsections | ⟨sections, -, hsum |
    ⟨⟨output', sum⟩, hwrite, hleft⟩⟩⟩
  · exact absurd rfl ((failsWith_fixup _ _ _ hfix).notUnresolved symbols)
  · exact absurd rfl ((failsWith_fixupSections _ _ _ hsections).notUnresolved symbols)
  · exact absurd rfl ((failsWith_writeChecksum _ _ _ _ hsum).notUnresolved symbols)
  · split at hleft
    · cases hleft
    · next hempty =>
      cases hleft
      obtain rfl | ⟨name, k, f, binding, sum, -, htarget, honly, hwritten, -, -, hvalue⟩ :=
        writeChecksum_eq_ok hwrite
      · exact ⟨output', hfix, rfl, Bool.not_eq_true _ ▸ hempty⟩
      · -- with the checksum written, nothing is left
        refine absurd (OffsetMap.isEmpty_iff.2 fun j => ?_) hempty
        rw [get?_fields_fixup hwritten, honly j]
        split
        · rw [Option.filter_some, htarget, Expr.constantUnder, Expr.bind, Expr.subst, hvalue]
          rfl
        · rfl

/-! ## What is reported -/

/-- The field is pending in the output and has no value. -/
def Placement.Leaves (p : Placement) (f : PendingField) : Prop :=
  ∃ k, p.output.fields.get? k = some f ∧ f.target.constantUnder p.binding = none

/-- The label is reported where the value of some field that is left is asked for. -/
def Placement.Unbound (p : Placement) (l : String) : Prop :=
  ∃ f rest, p.Leaves f ∧ f.target.resolve p.binding = .error (.unresolvedSymbol rest) ∧ l ∈ rest

/-- What an encoding reports whose fields are not all written. -/
structure Placement.Reports (p : Placement) (checksum : Option String) (symbols : List String) :
    Prop where
  nodup : symbols.Nodup
  /-- Some field is left. -/
  left : ∃ f, p.Leaves f
  /-- In every such field there are labels without a value. -/
  resolve : ∀ f, p.Leaves f → ∃ rest, f.target.resolve p.binding = .error (.unresolvedSymbol rest) ∧
    rest ≠ [] ∧ ∀ l ∈ rest, l ∈ f.target.labels ∧ p.binding.get? l = none
  /-- All labels of these fields are listed, but for that of the checksum. -/
  mem_iff : ∀ l, l ∈ symbols ↔ some l ≠ checksum ∧ ∃ f, p.Leaves f ∧ l ∈ f.target.labels
  /-- All labels without a value are among them. -/
  complete : ∀ l, p.Unbound l → p.binding.get? l = none ∧ (some l ≠ checksum → l ∈ symbols)
  /-- There are no others, if the fields that are left have no others. -/
  exact : (∀ f l, p.Leaves f → l ∈ f.target.labels → some l ≠ checksum → p.Unbound l) →
    ∀ l, l ∈ symbols ↔ some l ≠ checksum ∧ p.Unbound l
  /-- Something is listed, if a field that is left has a label but that of the checksum. -/
  ne_nil : symbols ≠ [] ↔ ∃ f l, p.Leaves f ∧ l ∈ f.target.labels ∧ some l ≠ checksum

/-- Everything that placing an image binds is a constant. -/
theorem constant_placedImage {image : Image} {options : EncodeOptions} {clock : UInt32}
    {h : HeadedImage} {p : Placement} (hp : placedImage image options clock = .ok (h, p)) :
    p.binding.Constant := by
  simp only [placedImage, bind_eq_ok, pure_eq_ok, Prod.mk.injEq] at hp
  obtain ⟨a, ha, h, hh, p, hplaced, rfl, rfl⟩ := hp
  have htables := (Assembly.continues_withDirectories ha).tables fun _ ht => nomatch ht
  obtain ⟨_, hlays⟩ := lays_withHeaders hh
  obtain ⟨_, hplaces⟩ := places_place hplaced hlays.inside htables
  exact hplaces.tables.sound.constant

/-- **The labels of the fields that are left are reported.** -/
theorem Placement.reports_unresolvedLabels {p : Placement} (hconstant : p.binding.Constant)
    {output : Buffer} (hfix : p.output.fill.fixup p.binding = .ok output)
    (hleft : output.fields.isEmpty = false) (checksum : Option String) :
    p.Reports checksum (unresolvedLabels checksum output) := by
  have hleaves : ∀ f, p.Leaves f ↔ ∃ k, output.fields.get? k = some f := fun f => by
    simp only [Leaves, get?_fields_fixup hfix, fields_fill, Option.filter_eq_some_iff,
      Option.isNone_iff_eq_none]
  have hmem : ∀ l, l ∈ unresolvedLabels checksum output ↔
      some l ≠ checksum ∧ ∃ f, p.Leaves f ∧ l ∈ f.target.labels := fun l => by
    rw [unresolvedLabels, List.mem_eraseDups, List.mem_filter, List.mem_flatMap, and_comm,
      bne_iff_ne]
    refine and_congr_right fun _ => ⟨?_, ?_⟩
    · rintro ⟨⟨k, f⟩, hf, hl⟩
      exact ⟨f, (hleaves f).2 ⟨k, OffsetMap.get?_eq_some.2 hf⟩, hl⟩
    · rintro ⟨f, hf, hl⟩
      obtain ⟨k, hk⟩ := (hleaves f).1 hf
      exact ⟨(k, f), OffsetMap.get?_eq_some.1 hk, hl⟩
  have hresolve : ∀ f, p.Leaves f → ∃ rest, f.target.resolve p.binding =
      .error (.unresolvedSymbol rest) ∧ rest ≠ [] ∧
      ∀ l ∈ rest, l ∈ f.target.labels ∧ p.binding.get? l = none := by
    rintro f ⟨-, -, hnone⟩
    obtain ⟨rest, hrest, hne, -, hlabels⟩ := Expr.exists_resolve hconstant hnone
    exact ⟨rest, hrest, hne, hlabels⟩
  have hunbound : ∀ l, p.Unbound l →
      p.binding.get? l = none ∧ ∃ f, p.Leaves f ∧ l ∈ f.target.labels := by
    rintro l ⟨f, rest, hf, hrest, hl⟩
    obtain ⟨rest', hrest', -, hlabels⟩ := hresolve f hf
    rw [hrest] at hrest'
    cases hrest'
    exact ⟨(hlabels l hl).2, f, hf, (hlabels l hl).1⟩
  refine ⟨nodup_eraseDups _, ?_, hresolve, hmem, fun l hl => ?_, fun hall l => ?_, ?_⟩
  · by_contra hnone
    refine Bool.false_ne_true (hleft.symm.trans (OffsetMap.isEmpty_iff.2 fun k => ?_))
    by_contra hk
    obtain ⟨f, hf⟩ := Option.ne_none_iff_exists'.1 hk
    exact hnone ⟨f, (hleaves f).2 ⟨k, hf⟩⟩
  · exact ⟨(hunbound l hl).1, fun hne => (hmem l).2 ⟨hne, (hunbound l hl).2⟩⟩
  · rw [hmem]
    refine and_congr_right fun hne => ⟨?_, fun hl => (hunbound l hl).2⟩
    rintro ⟨f, hf, hl⟩
    exact hall f l hf hl hne
  · constructor
    · intro hne
      obtain ⟨l, hl⟩ := List.exists_mem_of_ne_nil _ hne
      obtain ⟨hne, f, hf, hl⟩ := (hmem l).1 hl
      exact ⟨f, l, hf, hl, hne⟩
    · rintro ⟨f, l, hf, hl, hne⟩
      exact List.ne_nil_of_mem ((hmem l).2 ⟨hne, f, hf, hl⟩)

/-- **Unresolved symbols are the labels of the fields that are left.**  An encoding fails with
unresolved symbols only where fields of the placed image have no value.  It lists the labels of these
fields once each, without that of the checksum: all that have no value, and those with a value that
stand beside them. -/
theorem encodeImage_unresolvedSymbol {image : Image} {options : EncodeOptions} {clock : UInt32}
    {symbols : List String}
    (hfails : (encodeImage image options clock).result = .error (.unresolvedSymbol symbols)) :
    ∃ h p, placedImage image options clock = .ok (h, p) ∧
      p.Reports h.pending.checksum symbols := by
  rw [result_encodeImage, bind_eq_error] at hfails
  rcases hfails with hearly | ⟨⟨h, p⟩, hplaced, hlast⟩
  · exact absurd rfl (failsWith_placedImage image options clock _ hearly symbols)
  · obtain ⟨output, hfix, rfl, hleft⟩ := finish_eq_unresolved hlast
    exact ⟨h, p, hplaced,
      Placement.reports_unresolvedLabels (constant_placedImage hplaced) hfix hleft _⟩

/-- An object file with the distance from one of its labels to a symbol that is nowhere. -/
def distanceToNowhere : Image :=
  { Image.empty with
    sections := [.new ".data" (.read ||| .write)
      ((Buffer.empty.addExport "here" 0) ++
        placeholder (.label "nowhere" - .label "here") .u32 .little)] }

/-- A program that holds its own checksum. -/
def checksumTwice : Image :=
  { Image.empty with
    sections := [.new ".data" (.read ||| .write) (placeholder (.label "checksum") .u32 .little)] }

theorem encodeImage_unresolvedSymbol_distanceToNowhere :
    (encodeImage distanceToNowhere (.new .obj) 0).result =
        .error (.unresolvedSymbol ["nowhere", "here"]) ∧
      (∃ h p, placedImage distanceToNowhere (.new .obj) 0 = .ok (h, p) ∧
        p.Reports h.pending.checksum ["nowhere", "here"] ∧ ¬ p.Unbound "here") ∧
      (encodeImage checksumTwice (.new .exe) 0).result = .error (.unresolvedSymbol []) ∧
      ∃ h p, placedImage checksumTwice (.new .exe) 0 = .ok (h, p) ∧
        p.Reports h.pending.checksum [] := by
  have hdistance : (encodeImage distanceToNowhere (.new .obj) 0).result =
      .error (.unresolvedSymbol ["nowhere", "here"]) := failure?_eq_some.1 (by decide +kernel)
  have hchecksum : (encodeImage checksumTwice (.new .exe) 0).result =
      .error (.unresolvedSymbol []) := failure?_eq_some.1 (by decide +kernel)
  refine ⟨hdistance, ?_, hchecksum, encodeImage_unresolvedSymbol hchecksum⟩
  obtain ⟨h, p, hplaced, hreports⟩ := encodeImage_unresolvedSymbol hdistance
  have hrun : ((placedImage distanceToNowhere (.new .obj) 0).toOption.any fun x =>
      (x.2.binding.get? "here").isSome) = true := by decide +kernel
  rw [hplaced] at hrun
  have hbound : (p.binding.get? "here").isSome = true := hrun
  refine ⟨h, p, hplaced, hreports, fun hunbound => ?_⟩
  rw [(hreports.complete "here" hunbound).1] at hbound
  cases hbound

end PortableImage
