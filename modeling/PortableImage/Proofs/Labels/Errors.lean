import PortableImage.Encode.Image
import PortableImage.Proofs.Outcome

/-!
# What fails because of labels

Only binding labels fails with a duplicate label, and only the last stage with labels that have no
value.  Writing fields, headers and directories fails with other errors: a value that does not fit, a
layout, an unknown machine.

* `NamesNoLabel` — the other errors; `NotDuplicate` and `NotUnresolved` leave out one kind each.
* The lemmas that follow, one for each function, say that it fails with other errors only.
-/

set_option autoImplicit false

namespace PortableImage

/-- The error is no duplicate label. -/
def NotDuplicate (e : EncodeError) : Prop := ∀ l, e ≠ .duplicateBinding l

/-- The error is not that labels have no value. -/
def NotUnresolved (e : EncodeError) : Prop := ∀ symbols, e ≠ .unresolvedSymbol symbols

/-- The error is not about labels. -/
def NamesNoLabel : EncodeError → Prop
  | .duplicateBinding _ => False
  | .unresolvedSymbol _ => False
  | _ => True

theorem NamesNoLabel.notDuplicate {e : EncodeError} (h : NamesNoLabel e) : NotDuplicate e := by
  rintro l rfl
  exact h

theorem NamesNoLabel.notUnresolved {e : EncodeError} (h : NamesNoLabel e) : NotUnresolved e := by
  rintro symbols rfl
  exact h

@[simp]
theorem notDuplicate_unresolvedSymbol (symbols : List String) :
    NotDuplicate (.unresolvedSymbol symbols) := fun _ h => nomatch h

@[simp]
theorem namesNoLabel_encodingOverflow (value : LinkValue) (quantity : Quantity) :
    NamesNoLabel (.encodingOverflow value quantity) := trivial

@[simp]
theorem namesNoLabel_layout (fault : LayoutFault) : NamesNoLabel (.layout fault) := trivial

@[simp]
theorem namesNoLabel_unsupportedArchitecture (machine : Machine) :
    NamesNoLabel (.unsupportedArchitecture machine) := trivial

@[simp]
theorem namesNoLabel_truncatedImage (part : ImagePart) (offset : Nat) :
    NamesNoLabel (.truncatedImage part offset) := trivial

/-! ## Fields -/

@[simp]
theorem failsWith_encodeValue (t : FieldType) (v : LinkValue) (order : ByteOrder) :
    FailsWith NamesNoLabel (t.encodeValue v order) := by
  unfold FieldType.encodeValue
  split <;> simp

@[simp]
theorem failsWith_encode (f : FieldEncoder) (t : FieldType) (value : Expr) :
    FailsWith NamesNoLabel (f.encode t value) := by
  unfold FieldEncoder.encode
  dsimp only
  split <;> simp

@[simp]
theorem failsWith_address (f : FieldEncoder) (value : Expr) :
    FailsWith NamesNoLabel (f.address value) := failsWith_encode f _ value

@[simp]
theorem failsWith_record (f : FieldEncoder) (r : Record) : FailsWith NamesNoLabel (f.record r) := by
  induction r with
  | nil => simp [FieldEncoder.record]
  | cons e r ih => simp [FieldEncoder.record, ih]

@[simp]
theorem failsWith_resolvedFields (b : Binding) (l : List (Nat × PendingField)) :
    FailsWith NamesNoLabel (Buffer.resolvedFields b l) := by
  induction l with
  | nil => simp [Buffer.resolvedFields]
  | cons e l ih =>
    rw [Buffer.resolvedFields]
    split <;> simp [ih]

@[simp]
theorem failsWith_fixup (b : Buffer) (binding : Binding) :
    FailsWith NamesNoLabel (b.fixup binding) := by
  simp [Buffer.fixup]

/-! ## Exports -/

@[simp]
theorem failsWith_pinExports (base : Nat) (exports : List Export) (slots : Slots) :
    FailsWith NamesNoLabel (pinExports base exports slots) := by
  induction exports generalizing slots with
  | nil => simp [pinExports]
  | cons e rest ih =>
    have hpin : ∀ ordinal, FailsWith NamesNoLabel (pinExport base slots e ordinal) := by
      intro ordinal
      unfold pinExport
      dsimp only
      split
      · simp
      · split <;> simp
    rw [pinExports]
    split <;> simp [ih, hpin]

@[simp]
theorem failsWith_encodeSlots (slots : Slots) (t : Tables) :
    FailsWith NamesNoLabel (encodeSlots slots t) := by
  induction slots generalizing t with
  | nil => simp [encodeSlots]
  | cons slot slots ih =>
    have hslot : FailsWith NamesNoLabel (encodeSlot slot t) := by
      unfold encodeSlot
      dsimp only
      split
      · simp
      · split <;> simp
    simp [encodeSlots, ih, hslot]

@[simp]
theorem failsWith_encodeNames (names : List (String × Nat)) (t : Tables) :
    FailsWith NamesNoLabel (encodeNames names t) := by
  induction names generalizing t with
  | nil => simp [encodeNames]
  | cons e names ih => simp [encodeNames, ih]

@[simp]
theorem failsWith_encodeExports (c : Context) (dir : ExportDirectory) (now : UInt32) :
    FailsWith NamesNoLabel (encodeExports c dir now) := by
  simp [encodeExports, assignSlots]

/-! ## Imports -/

@[simp]
theorem failsWith_importEntry (library : String) (i : Import) (t : Tables) :
    FailsWith NamesNoLabel (importEntry library i t) := by
  unfold importEntry
  split <;> simp

@[simp]
theorem failsWith_encodeEntries (library : String) (is : List Import) (addresses : Buffer)
    (t : Tables) : FailsWith NamesNoLabel (encodeEntries library is addresses t) := by
  induction is generalizing addresses t with
  | nil => simp [encodeEntries]
  | cons i is ih => simp [encodeEntries, ih]

@[simp]
theorem failsWith_encodeLibraries (dirs : List ImportDirectory) (t : Tables) :
    FailsWith NamesNoLabel (encodeLibraries dirs t) := by
  induction dirs generalizing t with
  | nil => simp [encodeLibraries]
  | cons d dirs ih => simp [encodeLibraries, encodeLibrary, ih]

@[simp]
theorem failsWith_encodeImports (c : Context) (dirs : List ImportDirectory) :
    FailsWith NamesNoLabel (encodeImports c dirs) := by
  simp [encodeImports]

@[simp]
theorem failsWith_addStubs (stubs : Option StubEncoder) (sections : List Section)
    (is : List Import) (parts : Assembly.ImportParts) :
    FailsWith NamesNoLabel (Assembly.addStubs stubs sections is parts) := by
  have hencode : ∀ (e : StubEncoder) (pool : LabelPool) (plt : Buffer) (i : Import),
      FailsWith NamesNoLabel (e.encode pool plt i sections) := by
    intro e pool plt i
    unfold StubEncoder.encode
    split
    · simp
    · simp
    · split <;> simp
  induction is generalizing parts with
  | nil => simp [Assembly.addStubs]
  | cons i is ih =>
    unfold Assembly.addStubs
    split <;> simp [ih, hencode]

@[simp]
theorem failsWith_collectParts (stubs : Option StubEncoder) (sections : List Section)
    (l : List (ImportDirectory × Buffer)) (parts : Assembly.ImportParts) :
    FailsWith NamesNoLabel (Assembly.collectParts stubs sections l parts) := by
  induction l generalizing parts with
  | nil => simp [Assembly.collectParts]
  | cons e l ih => simp [Assembly.collectParts, ih]

@[simp]
theorem failsWith_stubEncoder (image : Image) (dirs : List ImportDirectory) :
    FailsWith NamesNoLabel (Assembly.stubEncoder image dirs) := by
  have hmachine : ∀ (machine : Machine) (pic : Bool),
      FailsWith NamesNoLabel (StubEncoder.forMachine machine pic) := by
    intro machine pic
    unfold StubEncoder.forMachine
    split <;> simp
  unfold Assembly.stubEncoder
  split <;> simp [hmachine]

/-! ## Resources -/

@[simp]
theorem failsWith_encodeLevelEntries (entries : List (ResourceId × ResourceContent)) (t : Tables) :
    FailsWith NamesNoLabel (encodeLevelEntries entries t) := by
  have hid : ∀ (id : ResourceId) (t : Tables), FailsWith NamesNoLabel (encodeId id t) := by
    intro id t
    unfold encodeId
    dsimp only
    split <;> simp
  have hcontent : ∀ (content : ResourceContent) (t : Tables),
      FailsWith NamesNoLabel (encodeContent content t) := by
    intro content t
    unfold encodeContent
    dsimp only
    split <;> simp
  induction entries generalizing t with
  | nil => simp [encodeLevelEntries]
  | cons e entries ih => simp [encodeLevelEntries, ih, hid, hcontent]

@[simp]
theorem failsWith_encodeLevel (info : ResourceInfo) (entries : List (ResourceId × ResourceContent))
    (t : Tables) : FailsWith NamesNoLabel (encodeLevel info entries t) := by
  simp [encodeLevel]

/-- A single label is new to an empty binding. -/
@[simp]
theorem failsWith_bind_empty (label : String) (value : Expr) :
    FailsWith NamesNoLabel (Binding.empty.bind label value) :=
  failsWith_ok (P := NamesNoLabel) (⟨[(label, value)]⟩ : Binding)

@[simp]
theorem failsWith_startLevel (label : String) (t : Tables) :
    FailsWith NamesNoLabel (startLevel label t) := by
  simp [startLevel]

mutual

theorem failsWith_encodeBelow (content : ResourceContent) (label : Option String) (t : Tables) :
    FailsWith NamesNoLabel (encodeBelow content label t) := by
  match content, label with
  | .directory info entries, some label =>
    rw [encodeBelow]
    simp [failsWith_encodeAllBelow entries]
  | .directory info entries, none => simp [encodeBelow]
  | .data bytes codepage reserved, label => simp [encodeBelow]

theorem failsWith_encodeAllBelow (entries : List (ResourceId × ResourceContent))
    (labels : List (Option String)) (t : Tables) :
    FailsWith NamesNoLabel (encodeAllBelow entries labels t) := by
  match entries, labels with
  | (id, content) :: rest, label :: labels =>
    rw [encodeAllBelow]
    simp [failsWith_encodeBelow content, failsWith_encodeAllBelow rest]
  | [], labels => simp [encodeAllBelow]
  | (id, content) :: rest, [] => simp [encodeAllBelow]

end

@[simp]
theorem failsWith_encodeResources (c : Context) (root : ResourceDirectory) :
    FailsWith NamesNoLabel (encodeResources c root) := by
  simp [encodeResources, failsWith_encodeAllBelow]

/-! ## Thread-local storage and base relocations -/

@[simp]
theorem failsWith_encodeTls (c : Context) (tls : TlsDirectory) :
    FailsWith NamesNoLabel (encodeTls c tls) := by
  simp [encodeTls]

@[simp]
theorem failsWith_encodeRelocations (f : FieldEncoder) (tables : List RelocationTable) :
    FailsWith NamesNoLabel (Assembly.encodeRelocations f tables) := by
  induction tables with
  | nil => simp [Assembly.encodeRelocations]
  | cons t tables ih => simp [Assembly.encodeRelocations, encodeRelocationTable, ih]

/-! ## Headers -/

@[simp]
theorem failsWith_checkBelow (limit n : Nat) (quantity : Quantity) :
    FailsWith NamesNoLabel (checkBelow limit n quantity) := by
  unfold checkBelow
  split <;> simp

@[simp]
theorem failsWith_checkAlignment (alignment : Alignment) (n : Nat) :
    FailsWith NamesNoLabel (checkAlignment alignment n) := by
  unfold checkAlignment
  split <;> simp

@[simp]
theorem failsWith_sizeOr (given : Option UInt32) (sections : List Section) (flag : SectionFlags)
    (alignment : Nat) (quantity : Quantity) :
    FailsWith NamesNoLabel (sizeOr given sections flag alignment quantity) := by
  unfold sizeOr
  split <;> simp

@[simp]
theorem failsWith_encodeSectionTable (c : Context) (sections : List Section) :
    FailsWith NamesNoLabel (encodeSectionTable c sections) := by
  have hsize : ∀ s : Section, FailsWith NamesNoLabel (sizeSection s) := by
    intro s
    unfold sizeSection
    split <;> simp
  induction sections generalizing c with
  | nil => simp [encodeSectionTable]
  | cons s rest ih => simp [encodeSectionTable, encodeSectionHeader, ih, hsize]

@[simp]
theorem failsWith_fillDefaults (c : Context) (h : OptionalHeader) (sections : List Section) :
    FailsWith NamesNoLabel (fillDefaults c h sections) := by
  simp [fillDefaults]

@[simp]
theorem failsWith_encodeOptionalHeader (c : Context) (image : Image) :
    FailsWith NamesNoLabel (encodeOptionalHeader c image) := by
  have hcount : ∀ count, FailsWith NamesNoLabel (checkDirectoryCount count) := by
    intro count
    unfold checkDirectoryCount
    split <;> simp
  simp [encodeOptionalHeader, hcount]

theorem namesNoLabel_withHeaders (a : Assembly) (target : Target) :
    FailsWith NamesNoLabel (a.withHeaders target) := by
  have hstub : ∀ f : FieldEncoder, FailsWith NamesNoLabel (encodeStub f target) := by
    intro f
    unfold encodeStub encodeDosStub
    split <;> simp
  simp [Assembly.withHeaders, encodeFileHeader, hstub]

/-- Putting the headers together makes no label a duplicate. -/
theorem failsWith_withHeaders (a : Assembly) (target : Target) :
    FailsWith NotDuplicate (a.withHeaders target) :=
  (namesNoLabel_withHeaders a target).mono fun _ he => he.notDuplicate

/-! ## The last stage -/

@[simp]
theorem failsWith_bytes (r : ImageReader) (offset len : Nat) (part : ImagePart) :
    FailsWith NamesNoLabel (r.bytes offset len part) := by
  unfold ImageReader.bytes
  split <;> simp

@[simp]
theorem failsWith_number (r : ImageReader) (width offset : Nat) (part : ImagePart) :
    FailsWith NamesNoLabel (r.number width offset part) := by
  simp [ImageReader.number]

@[simp]
theorem failsWith_sectionBytes (r : ImageReader) (count offset : Nat) :
    FailsWith NamesNoLabel (r.sectionBytes count offset) := by
  induction count generalizing offset with
  | zero => simp [ImageReader.sectionBytes]
  | succ count ih => simp [ImageReader.sectionBytes, ImageReader.word, ih]

@[simp]
theorem failsWith_checksum (data : List UInt8) (order : ByteOrder) :
    FailsWith NamesNoLabel (checksum data order) := by
  have hheader : ∀ r : ImageReader, FailsWith NamesNoLabel r.fileHeaderOffset := by
    intro r
    unfold ImageReader.fileHeaderOffset
    split
    · simp only [ImageReader.word, failsWith_bind, failsWith_number, true_and, failsWith_bytes]
      intro _ _ _ _
      split <;> simp
    · simp
  simp [checksum, ImageReader.checkedBytes, ImageReader.word, ImageReader.half, hheader]

@[simp]
theorem failsWith_fixupSections (b : Binding) (sections : List Section) :
    FailsWith NamesNoLabel (fixupSections b sections) := by
  induction sections with
  | nil => simp [fixupSections]
  | cons s rest ih => simp [fixupSections, ih]

@[simp]
theorem failsWith_writeChecksum (order : ByteOrder) (label : Option String) (output : Buffer) :
    FailsWith NamesNoLabel (writeChecksum order label output) := by
  unfold writeChecksum
  split
  · simp
  · split <;> simp

theorem failsWith_finish (h : HeadedImage) (p : Placement) :
    FailsWith NotDuplicate (finish h p) := by
  have hother : ∀ e, NamesNoLabel e → NotDuplicate e := fun _ he => he.notDuplicate
  simp only [finish, failsWith_bind]
  refine ⟨(failsWith_fixup _ _).mono hother, fun _ _ => ⟨(failsWith_fixupSections _ _).mono hother,
    fun _ _ => ⟨(failsWith_writeChecksum _ _ _).mono hother, fun _ _ => ?_⟩⟩⟩
  split <;> simp

end PortableImage
