import PortableImage.Proofs.FileLayout
import PortableImage.Proofs.Header.Spelled
import PortableImage.Proofs.Unresolved

/-!
# The fields of the headers are read back

Where each field of the headers is and how wide it is, is a table; so is the number that an image
gives for it.  Reading a file by these tables gives the numbers back that its image was given, and
what stands in the headers besides: the number of sections, the size of the optional header, the
data directories and a row for each section.

* `HeaderField` — a field of a header by its offset, with the number that is given for it.
* `FileHeader.fields`, `OptionalHeader.fields`, `Section.fields` — the tables.
* `FileView.ShowsHeaders` — the headers of a file are those of an image.
* `FileView.sectionName`, `FileView.entryPoint` — the name of a section, and where the program starts.
* `encodeImage_showsHeaders` — so it is for every image that is encoded.
-/

set_option autoImplicit false

namespace PortableImage

open Buffer

/-! ## The tables -/

/-- A field of a header. -/
structure HeaderField where
  /-- Where it is, counted from the start of the header. -/
  offset : Nat
  type : FieldType
  /-- The number that is given for it, if there is one. -/
  given : Option UInt64

/-- The fields of the file header. -/
def FileHeader.fields (h : FileHeader) : List HeaderField :=
  [⟨0, .u16, h.machine.map (·.raw.toUInt64)⟩,
    ⟨2, .u16, h.sectionCount.map (·.toUInt64)⟩,
    ⟨4, .u32, h.timestamp.map (·.toUInt64)⟩,
    ⟨8, .u32, h.symbolTable.map (·.toUInt64)⟩,
    ⟨12, .u32, h.symbolCount.map (·.toUInt64)⟩,
    ⟨16, .u16, h.optionalHeaderSize.map (·.toUInt64)⟩,
    ⟨18, .u16, h.flags.map (·.bits.toUInt64)⟩]

namespace OptionalHeader

/-- The integer fields in front of the image base. -/
def codeTable (h : OptionalHeader) : List HeaderField :=
  [⟨0, .u16, h.magic.map (·.toUInt64)⟩,
    ⟨2, .u8, h.linkerMajor.map (·.toUInt64)⟩,
    ⟨3, .u8, h.linkerMinor.map (·.toUInt64)⟩,
    ⟨4, .u32, h.codeSize.map (·.toUInt64)⟩,
    ⟨8, .u32, h.dataSize.map (·.toUInt64)⟩,
    ⟨12, .u32, h.uninitializedDataSize.map (·.toUInt64)⟩]

/-- The integer fields between the image base and the sizes of the image and of its headers. -/
def layoutTable (h : OptionalHeader) : List HeaderField :=
  [⟨32, .u32, h.sectionAlignment.map (·.toUInt64)⟩,
    ⟨36, .u32, h.fileAlignment.map (·.toUInt64)⟩,
    ⟨40, .u16, h.osMajor.map (·.toUInt64)⟩,
    ⟨42, .u16, h.osMinor.map (·.toUInt64)⟩,
    ⟨44, .u16, h.imageMajor.map (·.toUInt64)⟩,
    ⟨46, .u16, h.imageMinor.map (·.toUInt64)⟩,
    ⟨48, .u16, h.subsystemMajor.map (·.toUInt64)⟩,
    ⟨50, .u16, h.subsystemMinor.map (·.toUInt64)⟩,
    ⟨52, .u32, h.reserved.map (·.toUInt64)⟩]

/-- What kind of program it is. -/
def kindTable (h : OptionalHeader) : List HeaderField :=
  [⟨68, .u16, h.subsystem.map (·.raw.toUInt64)⟩,
    ⟨70, .u16, h.dllFlags.map (·.bits.toUInt64)⟩]

/-- What the program gets when it starts, and the number of data directories. -/
def memoryTable (pe64 : Bool) (h : OptionalHeader) : List HeaderField :=
  let address : FieldType := if pe64 then .u64 else .u32
  let word := address.width
  [⟨72, address, h.stackReserve⟩,
    ⟨72 + word, address, h.stackCommit⟩,
    ⟨72 + 2 * word, address, h.heapReserve⟩,
    ⟨72 + 3 * word, address, h.heapCommit⟩,
    ⟨72 + 4 * word, .u32, h.loaderFlags.map (·.toUInt64)⟩,
    ⟨76 + 4 * word, .u32, h.directoryCount.map (·.toUInt64)⟩]

/-- The integer fields of the optional header; `pe64` tells whether addresses take 64 bits. -/
def fields (pe64 : Bool) (h : OptionalHeader) : List HeaderField :=
  h.codeTable
    ++ ⟨if pe64 then 24 else 28, if pe64 then .u64 else .u32, h.imageBase⟩
      :: h.layoutTable
    ++ ⟨64, .u32, h.checksum.map (·.toUInt64)⟩
      :: h.kindTable
    ++ h.memoryTable pe64

end OptionalHeader

/-- The fields of a row of the section table that do not depend on where the section is placed. -/
def Section.fields (s : Section) : List HeaderField :=
  [⟨8, .u32, s.virtSize.map (·.toUInt64)⟩,
    ⟨24, .u32, s.relocAddress.toUInt64⟩,
    ⟨28, .u32, s.lineAddress.toUInt64⟩,
    ⟨32, .u16, s.relocCount.toUInt64⟩,
    ⟨34, .u16, s.lineCount.toUInt64⟩,
    ⟨36, .u32, s.flags.bits.toUInt64⟩]

/-! ## What a reader finds -/

/-- At `o` the file has a header with the numbers that are given for its fields. -/
def FileView.HasFields (v : FileView) (o : Nat) (fields : List HeaderField) : Prop :=
  ∀ f ∈ fields, ∀ n ∈ f.given, v.number f.type.width (o + f.offset) = n.toNat

/-- What a data directory of the image says, where `env` gives labels their values; one without a
place is zero. -/
def Image.directoryValue (image : Image) (env : String → LinkValue) (slot : DirectorySlot) :
    FileDirectory :=
  match image.directory? slot with
  | some place => ⟨(place.address.eval env).toNat, (place.size.eval env).toNat⟩
  | none => ⟨0, 0⟩

/-- The headers of the file are those of an image: `image` as it was given and `final` as it was
completed.  Labels have their values by `env`. -/
structure FileView.ShowsHeaders (v : FileView) (target : Target) (image final : Image)
    (env : String → LinkValue) : Prop where
  /-- An object file starts with the file header. -/
  object : target = .obj → v.fileHeader = 0
  /-- Else the DOS header leads to the signature, and the file header is behind it. -/
  signatures : target ≠ .obj → bytesAt v.data 0 2 = dosSignature ∧
    bytesAt v.data dosHeaderSize 4 = peSignature ∧ v.fileHeader = dosHeaderSize + 4
  /-- The number of sections and the size of the optional header are not those that are given. -/
  file : v.HasFields v.fileHeader
    ({ image.header with sectionCount := none, optionalHeaderSize := none } : FileHeader).fields
  optional : v.HasFields v.optionalHeader (image.optionalHeader.fields image.pe64)
  completed : v.HasFields v.fileHeader final.header.fields ∧
    v.HasFields v.optionalHeader (final.optionalHeader.fields image.pe64)
  sectionCount : v.sectionCount = final.sections.length
  optionalSize : v.number 2 (v.fileHeader + optionalSizePosition) =
    (if image.pe64 then 112 else 96) + 8 * image.directoryCount
  directories : ∀ slot, slot.index < image.directoryCount →
    v.directory slot = final.directoryValue env slot
  /-- The section table has a row for each section, directly behind the optional header. -/
  table : v.sectionTable = v.optionalHeader +
      ((if image.pe64 then 112 else 96) + 8 * image.directoryCount) ∧
    v.sectionTable + sectionHeaderSize * final.sections.length ≤ v.data.length
  rows : ∀ i s, final.sections[i]? = some s → s.virtSize.isSome ∧
    bytesAt v.data (v.sectionTable + sectionHeaderSize * i) 8 =
      (Text.utf8 s.name ++ List.replicate 8 0).take 8 ∧
    v.HasFields (v.sectionTable + sectionHeaderSize * i) s.fields

/-! ## The tables describe the records -/

/-- The record has the field, with the number that is given for it. -/
structure Record.Gives (r : Record) (f : HeaderField) : Prop where
  unsigned : f.type.signed = false
  field : ∀ n ∈ f.given, r.field? f.offset = some (f.type, .ofSize n.toNat)

theorem Record.field?_wide {r : Record} {o : Nat} {t : FieldType} {given : Option UInt64}
    (h : r.field? o = some (t, numberOr (given.map (·.toNat)))) :
    ∀ n ∈ given, r.field? o = some (t, .ofSize n.toNat) := by
  rintro n rfl
  exact h

theorem Record.field?_numberOr {α : Type} {r : Record} {o : Nat} {t : FieldType} {given : Option α}
    {number : α → UInt64}
    (h : r.field? o = some (t, numberOr (given.map fun x => (number x).toNat))) :
    ∀ n ∈ given.map number, r.field? o = some (t, .ofSize n.toNat) := by
  rintro n hn
  obtain ⟨x, rfl, rfl⟩ := Option.map_eq_some_iff.1 hn
  exact h

theorem gives_fileRecord (h : FileHeader) : ∀ f ∈ h.fields, (fileRecord h).Gives f := by
  simp only [FileHeader.fields, List.forall_mem_cons]
  exact ⟨⟨rfl, Record.field?_numberOr rfl⟩, ⟨rfl, Record.field?_numberOr rfl⟩,
    ⟨rfl, Record.field?_numberOr rfl⟩, ⟨rfl, Record.field?_numberOr rfl⟩,
    ⟨rfl, Record.field?_numberOr rfl⟩, ⟨rfl, Record.field?_numberOr rfl⟩,
    ⟨rfl, Record.field?_numberOr rfl⟩, fun _ hf => absurd hf (List.not_mem_nil)⟩

theorem Record.Gives.left {r : Record} {f : HeaderField} (h : r.Gives f) (s : Record) :
    (r ++ s).Gives f :=
  ⟨h.unsigned, fun n hn => Record.field?_append_left (h.field n hn) s⟩

theorem Record.Gives.right {s : Record} {k : Nat} {t : FieldType} {given : Option UInt64}
    (h : s.Gives ⟨k, t, given⟩) {r : Record} {o : Nat} (hr : r.size = o) :
    (r ++ s).Gives ⟨k + o, t, given⟩ := by
  refine ⟨h.unsigned, fun n hn => ?_⟩
  rw [← hr]
  exact (Record.field?_append_right r s k).trans (h.field n hn)

section Optional

variable {c : Context} {h : OptionalHeader} {pending : PendingHeader}

/-- The image base stands in front of the layout numbers, and the checksum behind them. -/
theorem optionalFields_eq : optionalFields c h pending =
    (codeFields c h ++ [(c.encoder.addressType, imageBaseExpr c h)]) ++
      (layoutFields h pending ++ ((.u32, checksumExpr h pending) :: runtimeFields c h)) := by
  simp only [optionalFields, List.append_assoc, List.cons_append, List.nil_append]

theorem size_frontFields :
    Record.size (codeFields c h ++ [(c.encoder.addressType, imageBaseExpr c h)]) = layoutPosition := by
  rw [Record.size_append, Record.size_cons, size_codeFields]
  exact size_addressType c.encoder

theorem gives_imageBase : (optionalFields c h pending).Gives
    ⟨imageBasePosition c.encoder.pe64, c.encoder.addressType, h.imageBase⟩ := by
  have hfield : Record.Gives ((c.encoder.addressType, imageBaseExpr c h) :: layoutFields h pending)
      ⟨0, c.encoder.addressType, h.imageBase⟩ := by
    refine ⟨c.encoder.signed_addressType, fun n hn => ?_⟩
    have hvalue : imageBaseExpr c h = .ofSize n.toNat := by
      unfold imageBaseExpr
      rw [show h.imageBase = some n from hn]
    rw [hvalue]
    rfl
  have hright := (hfield.right (size_codeFields c h)).left
    ((.u32, checksumExpr h pending) :: runtimeFields c h)
  rw [Nat.zero_add] at hright
  exact hright

/-- A checksum that is given is in its field, unless it is computed. -/
theorem gives_checksum (hpending : h.checksum ≠ none → pending.checksum = none) :
    (optionalFields c h pending).Gives ⟨64, .u32, h.checksum.map (·.toUInt64)⟩ := by
  have hfield : Record.Gives ((.u32, checksumExpr h pending) :: runtimeFields c h)
      ⟨0, .u32, h.checksum.map (·.toUInt64)⟩ := by
    refine ⟨rfl, fun n hn => ?_⟩
    obtain ⟨x, hx, rfl⟩ := Option.map_eq_some_iff.1 hn
    have hlabel := hpending (by rw [hx]; exact Option.some_ne_none x)
    have hvalue : checksumExpr h pending = .ofSize x.toNat := by
      unfold checksumExpr
      rw [hlabel, hx]
      rfl
    rw [hvalue]
    rfl
  rw [optionalFields_eq]
  exact (hfield.right (size_layoutFields h pending)).right size_frontFields

/-! Behind the image base and behind the checksum, fields are where they are on their own. -/

theorem gives_codeTable : ∀ f ∈ h.codeTable, (optionalFields c h pending).Gives f := by
  have hcode : ∀ {f : HeaderField}, (codeFields c h).Gives f → (optionalFields c h pending).Gives f :=
    fun hf => (hf.left _).left _
  simp only [OptionalHeader.codeTable, List.forall_mem_cons]
  exact ⟨hcode ⟨rfl, Record.field?_numberOr rfl⟩, hcode ⟨rfl, Record.field?_numberOr rfl⟩,
    hcode ⟨rfl, Record.field?_numberOr rfl⟩, hcode ⟨rfl, Record.field?_numberOr rfl⟩,
    hcode ⟨rfl, Record.field?_numberOr rfl⟩, hcode ⟨rfl, Record.field?_numberOr rfl⟩,
    fun _ hf => absurd hf List.not_mem_nil⟩

theorem gives_layoutTable : ∀ f ∈ h.layoutTable, (optionalFields c h pending).Gives f := by
  have hlayout : ∀ {k t g}, (layoutFields h pending).Gives ⟨k, t, g⟩ →
      (optionalFields c h pending).Gives ⟨k + 32, t, g⟩ := fun hf => by
    rw [optionalFields_eq]
    exact (hf.left _).right size_frontFields
  simp only [OptionalHeader.layoutTable, List.forall_mem_cons]
  exact ⟨hlayout ⟨rfl, Record.field?_numberOr rfl⟩, hlayout ⟨rfl, Record.field?_numberOr rfl⟩,
    hlayout ⟨rfl, Record.field?_numberOr rfl⟩, hlayout ⟨rfl, Record.field?_numberOr rfl⟩,
    hlayout ⟨rfl, Record.field?_numberOr rfl⟩, hlayout ⟨rfl, Record.field?_numberOr rfl⟩,
    hlayout ⟨rfl, Record.field?_numberOr rfl⟩, hlayout ⟨rfl, Record.field?_numberOr rfl⟩,
    hlayout ⟨rfl, Record.field?_numberOr rfl⟩, fun _ hf => absurd hf List.not_mem_nil⟩

theorem Record.Gives.runtime {k : Nat} {t : FieldType} {given : Option UInt64}
    (hf : (runtimeFields c h).Gives ⟨k, t, given⟩) :
    (optionalFields c h pending).Gives ⟨k + 68, t, given⟩ := by
  have hbehind := hf.right (r := [(.u32, checksumExpr h pending)]) (o := 4) rfl
  rw [optionalFields_eq]
  exact (hbehind.right (size_layoutFields h pending)).right size_frontFields

theorem gives_kindTable : ∀ f ∈ h.kindTable, (optionalFields c h pending).Gives f := by
  simp only [OptionalHeader.kindTable, List.forall_mem_cons]
  exact ⟨.runtime ⟨rfl, Record.field?_numberOr rfl⟩, .runtime ⟨rfl, Record.field?_numberOr rfl⟩,
    fun _ hf => absurd hf List.not_mem_nil⟩

theorem gives_memoryTable :
    ∀ f ∈ h.memoryTable c.encoder.pe64, (optionalFields c h pending).Gives f := by
  simp only [OptionalHeader.memoryTable, List.forall_mem_cons]
  obtain ⟨pool, ⟨order, pe64⟩, start⟩ := c
  cases pe64
  all_goals exact ⟨.runtime ⟨rfl, Record.field?_wide rfl⟩, .runtime ⟨rfl, Record.field?_wide rfl⟩,
    .runtime ⟨rfl, Record.field?_wide rfl⟩, .runtime ⟨rfl, Record.field?_wide rfl⟩,
    .runtime ⟨rfl, Record.field?_numberOr rfl⟩, .runtime ⟨rfl, Record.field?_numberOr rfl⟩,
    fun _ hf => absurd hf List.not_mem_nil⟩

theorem gives_optionalFields (hpending : h.checksum ≠ none → pending.checksum = none) :
    ∀ f ∈ h.fields c.encoder.pe64, (optionalFields c h pending).Gives f := by
  simp only [OptionalHeader.fields, List.append_assoc, List.cons_append, List.forall_mem_append,
    List.forall_mem_cons]
  exact ⟨gives_codeTable, gives_imageBase, gives_layoutTable, gives_checksum hpending,
    gives_kindTable, gives_memoryTable⟩

/-- No field but that of the checksum is where the checksum is. -/
theorem OptionalHeader.given_of_offset_eq {pe64 : Bool} {f : HeaderField}
    (hf : f ∈ h.fields pe64) (hplace : f.offset = checksumPosition) :
    f.given = h.checksum.map (·.toUInt64) := by
  revert f
  cases pe64 <;>
    simp [fields, codeTable, layoutTable, kindTable, memoryTable, checksumPosition,
      FieldType.width]

end Optional

theorem gives_rowRecord (s : Section) (rva rawSize rawAddress : Expr) :
    ∀ f ∈ s.fields, (rowRecord s rva rawSize rawAddress).Gives f := by
  have hname : Record.size (FieldValues.ofBytes (shortName s.name)).record = 8 := by
    rw [FieldValues.size_record, FieldValues.size_ofBytes, length_shortName]
  have hrow : ∀ {k t g}, (rowFields s rva rawSize rawAddress).Gives ⟨k, t, g⟩ →
      (rowRecord s rva rawSize rawAddress).Gives ⟨k + 8, t, g⟩ := fun hf => hf.right hname
  have hgiven : ∀ {k t} {n : UInt64},
      (rowFields s rva rawSize rawAddress).field? k = some (t, .ofSize n.toNat) →
      ∀ x ∈ some n, (rowFields s rva rawSize rawAddress).field? k = some (t, .ofSize x.toNat) := by
    rintro k t n hn x ⟨⟩
    exact hn
  simp only [Section.fields, List.forall_mem_cons]
  refine ⟨hrow ⟨rfl, ?_⟩, hrow ⟨rfl, hgiven rfl⟩, hrow ⟨rfl, hgiven rfl⟩, hrow ⟨rfl, hgiven rfl⟩,
    hrow ⟨rfl, hgiven rfl⟩, hrow ⟨rfl, hgiven rfl⟩, fun _ hf => absurd hf List.not_mem_nil⟩
  rintro n hn
  obtain ⟨x, hx, rfl⟩ := Option.map_eq_some_iff.1 hn
  show some (_, Expr.ofSize (s.virtSize.getD 0).toNat) = _
  rw [hx]
  rfl

/-! ## What is given is kept -/

/-- Every number that is given in the first table is given for the same field in the second. -/
def HeaderField.Kept (fields fields' : List HeaderField) : Prop :=
  List.Forall₂ (fun f f' => f.offset = f'.offset ∧ f.type = f'.type ∧ ∀ n ∈ f.given, n ∈ f'.given)
    fields fields'

theorem HeaderField.Kept.nil : HeaderField.Kept [] [] := List.Forall₂.nil

theorem HeaderField.Kept.cons {o : Nat} {t : FieldType} {given given' : Option UInt64}
    {fields fields' : List HeaderField} (h : ∀ n ∈ given, n ∈ given')
    (hrest : HeaderField.Kept fields fields') :
    HeaderField.Kept (⟨o, t, given⟩ :: fields) (⟨o, t, given'⟩ :: fields') :=
  List.Forall₂.cons ⟨rfl, rfl, h⟩ hrest

theorem HeaderField.Kept.refl (fields : List HeaderField) : HeaderField.Kept fields fields :=
  List.forall₂_same.2 fun _ _ => ⟨rfl, rfl, fun _ hn => hn⟩

theorem HeaderField.Kept.append {fields fields' behind behind' : List HeaderField}
    (h : HeaderField.Kept fields fields') (hbehind : HeaderField.Kept behind behind') :
    HeaderField.Kept (fields ++ behind) (fields' ++ behind') :=
  List.rel_append h hbehind

theorem HeaderField.Kept.trans {fields fields' fields'' : List HeaderField}
    (h : HeaderField.Kept fields fields') (h' : HeaderField.Kept fields' fields'') :
    HeaderField.Kept fields fields'' :=
  forall₂_trans (fun _ _ _ hx hy => ⟨hx.1.trans hy.1, hx.2.1.trans hy.2.1,
    fun n hn => hy.2.2 n (hx.2.2 n hn)⟩) h h'

/-- A file that has the second has the first. -/
theorem HeaderField.Kept.hasFields {fields fields' : List HeaderField} {v : FileView} {o : Nat}
    (h : HeaderField.Kept fields fields') (hv : v.HasFields o fields') : v.HasFields o fields := by
  intro f hf n hn
  obtain ⟨i, hi⟩ := List.mem_iff_getElem?.1 hf
  obtain ⟨f', hf', hoffset, htype, hgiven⟩ := exists_right_of_forall₂ h hi
  rw [hoffset, htype]
  exact hv f' (List.mem_of_getElem? hf') n (hgiven n hn)

theorem mem_map_of_kept {α : Type} {o o' : Option α} {number : α → UInt64}
    (h : ∀ x, o = some x → o' = some x) : ∀ n ∈ o.map number, n ∈ o'.map number := by
  rintro n hn
  obtain ⟨x, hx, rfl⟩ := Option.map_eq_some_iff.1 hn
  rw [h x hx]
  rfl

theorem some_getD_eq {α : Type} {o : Option α} (d : α) : ∀ x, o = some x → some (o.getD d) = some x := by
  rintro x rfl
  rfl

theorem or_eq_some_of_eq_some {α : Type} {o : Option α} (o' : Option α) :
    ∀ x, o = some x → o.or o' = some x := by
  rintro x rfl
  rfl

theorem sizeOr_eq_ok {given : Option UInt32} {sections : List Section} {flag : SectionFlags}
    {alignment : Nat} {quantity : Quantity} {size : UInt32}
    (h : sizeOr given sections flag alignment quantity = .ok size) :
    ∀ x, given = some x → some size = some x := by
  rintro x rfl
  cases h
  rfl

section Defaults

variable {c : Context} {h h' : OptionalHeader} {sections : List Section} {d : Defaults} {pe64 : Bool}

/-- The optional header is kept if each group of its fields is. -/
theorem HeaderField.Kept.optional (hcode : HeaderField.Kept h.codeTable h'.codeTable)
    (hbase : h'.imageBase = h.imageBase)
    (hlayout : HeaderField.Kept h.layoutTable h'.layoutTable)
    (hchecksum : h'.checksum = h.checksum)
    (hkind : HeaderField.Kept h.kindTable h'.kindTable)
    (hmemory : HeaderField.Kept (h.memoryTable pe64) (h'.memoryTable pe64)) :
    HeaderField.Kept (h.fields pe64) (h'.fields pe64) := by
  unfold OptionalHeader.fields
  rw [hbase, hchecksum]
  exact ((hcode.append (.cons (fun _ hn => hn) hlayout)).append
    (.cons (fun _ hn => hn) hkind)).append hmemory

theorem kept_codeTable_fillDefaults (hd : fillDefaults c h sections = .ok d) :
    HeaderField.Kept h.codeTable d.header.codeTable := by
  simp only [fillDefaults, bind_eq_ok, pure_eq_ok] at hd
  obtain ⟨-, -, -, -, codeSize, hcode, dataSize, hdata, bssSize, hbss, rfl⟩ := hd
  exact .cons (mem_map_of_kept (some_getD_eq _)) <| .cons (mem_map_of_kept (some_getD_eq _)) <|
    .cons (mem_map_of_kept (some_getD_eq _)) <| .cons (mem_map_of_kept (sizeOr_eq_ok hcode)) <|
    .cons (mem_map_of_kept (sizeOr_eq_ok hdata)) <|
    .cons (mem_map_of_kept (sizeOr_eq_ok hbss)) .nil

theorem kept_layoutTable_fillDefaults (hd : fillDefaults c h sections = .ok d) :
    HeaderField.Kept h.layoutTable d.header.layoutTable := by
  simp only [fillDefaults, bind_eq_ok, pure_eq_ok] at hd
  obtain ⟨-, -, -, -, -, -, -, -, -, -, rfl⟩ := hd
  repeat refine .cons (mem_map_of_kept (some_getD_eq _)) ?_
  exact .nil

theorem kept_kindTable_fillDefaults (hd : fillDefaults c h sections = .ok d) :
    HeaderField.Kept h.kindTable d.header.kindTable := by
  simp only [fillDefaults, bind_eq_ok, pure_eq_ok] at hd
  obtain ⟨-, -, -, -, -, -, -, -, -, -, rfl⟩ := hd
  exact .cons (mem_map_of_kept (some_getD_eq _)) (.refl _)

theorem kept_memoryTable_fillDefaults (hd : fillDefaults c h sections = .ok d) :
    HeaderField.Kept (h.memoryTable pe64) (d.header.memoryTable pe64) := by
  simp only [fillDefaults, bind_eq_ok, pure_eq_ok] at hd
  obtain ⟨-, -, -, -, -, -, -, -, -, -, rfl⟩ := hd
  exact .cons (some_getD_eq _) <| .cons (some_getD_eq _) <| .cons (some_getD_eq _) <|
    .cons (some_getD_eq _) <| .cons (mem_map_of_kept (some_getD_eq _)) <|
    .cons (mem_map_of_kept (some_getD_eq _)) .nil

theorem kept_fillDefaults (hd : fillDefaults c h sections = .ok d) (pe64 : Bool) :
    HeaderField.Kept (h.fields pe64) (d.header.fields pe64) :=
  have hfills := fills_fillDefaults hd
  .optional (kept_codeTable_fillDefaults hd) hfills.imageBase (kept_layoutTable_fillDefaults hd)
    hfills.checksum (kept_kindTable_fillDefaults hd) (kept_memoryTable_fillDefaults hd)

/-- The target has a say only in what kind of program it is. -/
theorem kept_withTargetDefaults (image : Image) (target : Target) (pe64 : Bool) :
    HeaderField.Kept (image.optionalHeader.fields pe64)
      ((image.withTargetDefaults target).optionalHeader.fields pe64) := by
  have hkind : HeaderField.Kept image.optionalHeader.kindTable
      (image.withTargetDefaults target).optionalHeader.kindTable :=
    .cons (mem_map_of_kept (or_eq_some_of_eq_some _)) <|
      .cons (mem_map_of_kept (or_eq_some_of_eq_some _)) .nil
  exact .optional (.refl _) rfl (.refl _) rfl hkind (.refl _)

end Defaults

/-- The fields of a file header that are not counted. -/
def FileHeader.uncounted (h : FileHeader) : FileHeader :=
  { h with sectionCount := none, optionalHeaderSize := none }

/-- The target has a say only in the flags of the file header, where none are given. -/
theorem kept_uncounted_withTargetDefaults (image : Image) (target : Target) :
    HeaderField.Kept image.header.uncounted.fields
      (image.withTargetDefaults target).header.uncounted.fields := by
  have hflags : ∀ x, image.header.flags = some x →
      (image.withTargetDefaults target).header.flags = some x := some_getD_eq _
  -- the fields in front of the flags are the same
  repeat refine .cons (fun _ hn => hn) ?_
  exact .cons (mem_map_of_kept hflags) .nil

theorem kept_encodeFileHeader {f : FieldEncoder} {given header : FileHeader}
    {sections optionalSize : Nat} {now : UInt32} {b : Buffer}
    (h : encodeFileHeader f given sections optionalSize now = .ok (b, header)) :
    HeaderField.Kept given.uncounted.fields header.fields := by
  obtain ⟨-, rfl⟩ := spells_encodeFileHeader h
  have hcounted : ∀ {n : UInt64}, ∀ x ∈ (none : Option UInt64), x ∈ some n :=
    fun x hx => absurd hx (Option.not_mem_none x)
  exact .cons (mem_map_of_kept (some_getD_eq _)) <| .cons hcounted <|
    .cons (mem_map_of_kept (some_getD_eq _)) <| .cons (mem_map_of_kept (some_getD_eq _)) <|
    .cons (mem_map_of_kept (some_getD_eq _)) <| .cons hcounted <|
    .cons (mem_map_of_kept (some_getD_eq _)) .nil

/-- A checksum that is given is not left for the end. -/
theorem checksum_pendingHeader {c : Context} {h : OptionalHeader} (hgiven : h.checksum ≠ none) :
    (pendingHeader c h).1.checksum = none := by
  obtain ⟨n, hn⟩ := Option.ne_none_iff_exists'.1 hgiven
  unfold pendingHeader
  rw [hn]

/-- The headers keep the numbers that an image gives, except those that are counted. -/
theorem kept_withHeaders {a : Assembly} {target : Target} {h : HeadedImage}
    (hh : a.withHeaders target = .ok h) (pe64 : Bool) :
    HeaderField.Kept a.image.header.uncounted.fields h.image.header.fields ∧
      HeaderField.Kept (a.image.optionalHeader.fields pe64) (h.image.optionalHeader.fields pe64) ∧
      (h.image.optionalHeader.checksum ≠ none → h.pending.checksum = none) := by
  simp only [Assembly.withHeaders, bind_eq_ok, pure_eq_ok, Prod.exists] at hh
  obtain ⟨table, -, optional, hoptional, stub, -, file, header, hfile, rfl⟩ := hh
  simp only [encodeOptionalHeader, bind_eq_ok, pure_eq_ok] at hoptional
  obtain ⟨d, hd, ⟨⟩, -, _, -, rfl⟩ := hoptional
  exact ⟨(kept_uncounted_withTargetDefaults a.image target).trans (kept_encodeFileHeader hfile),
    (kept_withTargetDefaults a.image target pe64).trans (kept_fillDefaults hd pe64),
    checksum_pendingHeader⟩

/-! ## What is read -/

theorem shortName_eq (name : String) :
    shortName name = (Text.utf8 name ++ List.replicate 8 0).take 8 := by
  rw [shortName, padTo, List.take_append, List.length_take, List.take_replicate]
  congr 2
  omega

namespace Encoding

variable {image : Image} {options : EncodeOptions} {clock : UInt32} {a : Assembly}
  {h : HeadedImage} {q p : Placement} {e : EncodedImage} {size : Nat}
  (enc : Encoding image options clock a h q p e size)

include enc

/-- A number in the headers is read, also that of the checksum if it is given. -/
theorem number_header (hfinish : finish h p = .ok e) {o : Nat} {t : FieldType} {v : LinkValue}
    (ht : t.signed = false) (hv : h.headers.Holds p.binding.env o t a.context.encoder.order v)
    (hc : o = headerStart options.target + fileHeaderSize + checksumPosition →
      h.pending.checksum = none) :
    (e.view image options).number t.width o = v.toNat := by
  by_cases ho : o = headerStart options.target + fileHeaderSize + checksumPosition
  · -- nothing is left for the last step, so any field may take the place of the checksum there
    have hchecksum : ∀ label, h.pending.checksum = some label →
        p.output.fields.get? (o + 1) = some ⟨.label label, .u32, image.order⟩ := fun label hl => by
      rw [hc ho] at hl
      cases hl
    have hfinished : Finished h p e (o + 1) :=
      finished_finish hfinish enc.places.tables.sound.inside hchecksum
    have hread := hfinished.values _ _ _ _ _ enc.agrees_env (by omega) (enc.places.holds_headers hv)
    rw [enc.encoder_eq] at hread
    exact FieldType.toNat_encodeValue ht hread
  · exact enc.number_eq ht hv ho

/-- A record that gives fields their numbers is read so. -/
theorem hasFields (hfinish : finish h p = .ok e) {o : Nat} {r : Record} {fields : List HeaderField}
    (hr : h.headers.HoldsRecord p.binding.env a.context.encoder.order o r)
    (hgives : ∀ f ∈ fields, r.Gives f)
    (hc : ∀ f ∈ fields, f.given ≠ none →
      o + f.offset = headerStart options.target + fileHeaderSize + checksumPosition →
      h.pending.checksum = none) : (e.view image options).HasFields o fields := by
  intro f hf n hn
  have hgiven := hgives f hf
  have hne : f.given ≠ none := by
    rw [hn]
    exact Option.some_ne_none n
  have hread := enc.number_header hfinish hgiven.unsigned (hr.field? (hgiven.field n hn))
    (hc f hf hne)
  exact hread.trans (LinkValue.toNat_ofSize (Nat.lt_trans n.toNat_lt (by decide)))

/-- Constants apart from the checksum are in the bytes. -/
theorem hasAt_headers {vs : FieldValues} {o : Nat}
    (hr : h.headers.HoldsRecord p.binding.env a.context.encoder.order o vs.record)
    (hne : o + vs.size ≤ headerStart options.target + fileHeaderSize + checksumPosition ∨
      headerStart options.target + fileHeaderSize + checksumPosition < o) :
    HasAt e.bytes o (vs.bytes image.order) := by
  induction vs generalizing o with
  | nil => exact List.nil_prefix
  | cons v vs ih =>
    have hpos := v.1.width_pos
    rw [FieldValues.size_cons] at hne
    have hread := enc.finished.values _ _ _ _ _ enc.agrees_env (by omega)
      (enc.places.holds_headers hr.1)
    rw [enc.encoder_eq] at hread
    have hbytes : bytesAt e.bytes o v.1.width = v.1.bytes image.order v.2 :=
      (FieldType.encodeValue_eq_ok.1 hread).2
    rw [FieldValues.bytes_cons, HasAt.append, FieldType.length_bytes, ← hbytes]
    exact ⟨List.take_prefix _ _, ih hr.2 (by omega)⟩

/-- The bytes in front of the file header. -/
theorem bytesAt_stub (hobj : options.target ≠ .obj) : bytesAt e.bytes 0 2 = dosSignature ∧
    bytesAt e.bytes dosHeaderSize 4 = peSignature := by
  have hstub := (holdsRecords_withHeaders enc.headed).stub p.binding.env
  rw [stubRecord, if_neg hobj, holdsRecord_append] at hstub
  have hstart : headerStart options.target = dosHeaderSize + 4 := by rw [headerStart, if_neg hobj]
  have hdos := enc.hasAt_headers hstub.1 (.inl (by rw [hstart]; decide))
  have hpe := enc.hasAt_headers hstub.2.2 (.inl (by rw [hstart]; decide))
  rw [FieldValues.bytes_ofBytes] at hdos hpe
  exact ⟨(HasAt.append.1 hdos).1.bytesAt_eq, hpe.bytesAt_eq⟩

/-- The optional header takes the bytes of its fields and of the data directories. -/
theorem optionalHeaderSize_eq : size = optionalHeaderSize image.pe64 image.directoryCount := by
  have hvirt := (holdsRecords_withHeaders enc.headed).virtSize
  have hstop := enc.lays.stop
  have hwide : a.context.encoder.pe64 = image.pe64 := by rw [enc.encoder_eq]
  rw [enc.directoryCount_eq, hwide] at hvirt
  omega

/-- A row of the section table is read. -/
theorem hasFields_row (hfinish : finish h p = .ok e) {i : Nat} {s : Section}
    (hs : h.image.sections[i]? = some s) :
    bytesAt e.bytes ((e.view image options).sectionTable + sectionHeaderSize * i) 8 =
        shortName s.name ∧
      (e.view image options).HasFields
        ((e.view image options).sectionTable + sectionHeaderSize * i) s.fields := by
  obtain ⟨_, ⟨rva, rawSize, rawAddress, rfl⟩, hr⟩ :=
    (holdsRecords_withHeaders enc.headed).rows p.binding.env i s hs
  have hlarge := enc.lays.large
  have hwide : a.context.encoder.pe64 = image.pe64 := by rw [enc.encoder_eq]
  rw [enc.directoryCount_eq, hwide, ← enc.optionalHeaderSize_eq, ← enc.view_sectionTable] at hr
  have hbehind : headerStart options.target + fileHeaderSize + checksumPosition <
      (e.view image options).sectionTable + sectionHeaderSize * i := by
    rw [enc.view_sectionTable]
    omega
  refine ⟨?_, enc.hasFields hfinish hr (gives_rowRecord s rva rawSize rawAddress)
    fun f _ _ hf => by omega⟩
  have hname := enc.hasAt_headers (holdsRecord_append.1 hr).1 (.inr hbehind)
  rw [FieldValues.bytes_ofBytes] at hname
  rw [← hname.bytesAt_eq, length_shortName]

/-- The file header is read. -/
theorem hasFields_file (hfinish : finish h p = .ok e) :
    (e.view image options).HasFields (e.view image options).fileHeader h.image.header.fields := by
  have hfile := (holdsRecords_withHeaders enc.headed).file p.binding.env
  rw [enc.view_fileHeader]
  refine enc.hasFields hfinish hfile (gives_fileRecord _) fun f hf _ hplace => ?_
  have hsmall : ∀ f ∈ h.image.header.fields, f.offset < fileHeaderSize := by
    simp [FileHeader.fields, fileHeaderSize]
  have hlt := hsmall f hf
  omega

/-- The optional header is read. -/
theorem hasFields_optional (hfinish : finish h p = .ok e) :
    (e.view image options).HasFields (e.view image options).optionalHeader
      (h.image.optionalHeader.fields image.pe64) := by
  have hoptional := (holdsRecords_withHeaders enc.headed).optional p.binding.env
  have hpending := (kept_withHeaders enc.headed image.pe64).2.2
  have hgives := gives_optionalFields (c := a.context) hpending
  have hwide : a.context.encoder.pe64 = image.pe64 := by rw [enc.encoder_eq]
  rw [hwide] at hgives
  rw [enc.view_optionalHeader]
  refine enc.hasFields hfinish hoptional hgives fun f hf hne hplace => hpending fun hnone => hne ?_
  rw [OptionalHeader.given_of_offset_eq hf (by omega), hnone]
  rfl

/-- A data directory is read as what the returned image says about it. -/
theorem view_directoryValue {slot : DirectorySlot} (hslot : slot.index < image.directoryCount) :
    (e.view image options).directory slot = e.image.directoryValue p.binding.env slot := by
  have hplaces : e.image.directory? slot = a.image.directory? slot := by
    rw [enc.finished.image]
    exact congrArg (List.lookup slot) enc.lays.directories
  rw [Image.directoryValue, hplaces]
  cases hplace : a.image.directory? slot with
  | none => exact enc.view_directory_none hslot hplace
  | some place => exact (enc.view_directory hslot hplace).1

/-- The section table stands behind the optional header, and is in the file. -/
theorem view_table : (e.view image options).sectionTable = (e.view image options).optionalHeader +
      optionalHeaderSize image.pe64 image.directoryCount ∧
    (e.view image options).sectionTable + sectionHeaderSize * e.image.sections.length ≤
      e.bytes.length := by
  have hstop := enc.lays.stop
  have hle : h.headers.virtSize ≤ h.headersSize := virtSize_le_align _ _
  have hfile := enc.headersSize_le
  rw [enc.finished.sections.length_eq] at hstop
  rw [enc.view_sectionTable, enc.view_optionalHeader, ← enc.optionalHeaderSize_eq, ← hstop]
  exact ⟨rfl, by omega⟩

/-- A section that is returned has its row. -/
theorem view_finished_row (hfinish : finish h p = .ok e) {i : Nat} {s : Section}
    (hs : e.image.sections[i]? = some s) : s.virtSize.isSome ∧
    bytesAt e.bytes ((e.view image options).sectionTable + sectionHeaderSize * i) 8 =
      (Text.utf8 s.name ++ List.replicate 8 0).take 8 ∧
    (e.view image options).HasFields ((e.view image options).sectionTable + sectionHeaderSize * i)
      s.fields := by
  obtain ⟨s', hs', content, -, rfl⟩ := exists_left_of_forall₂ enc.finished.sections hs
  obtain ⟨s₀, -, hheaded⟩ := exists_left_of_forall₂ enc.lays.sections hs'
  obtain ⟨hname, hfields⟩ := enc.hasFields_row hfinish hs'
  refine ⟨?_, hname.trans (shortName_eq s'.name), hfields⟩
  show s'.virtSize.isSome
  rw [(Section.sizes_headed hheaded).1]
  rfl

end Encoding

/-! ## The names of the sections -/

/-- The name of a section, in the eight bytes that its row has for it. -/
def FileView.sectionName (v : FileView) (i : Nat) : List UInt8 :=
  bytesAt v.data (v.sectionTable + sectionHeaderSize * i) 8

/-- The rows begin with those of the sections of the caller. -/
theorem Encoding.view_sectionName {image : Image} {options : EncodeOptions} {clock : UInt32}
    {a : Assembly} {h : HeadedImage} {q p : Placement} {e : EncodedImage} {size : Nat}
    (enc : Encoding image options clock a h q p e size) (hfinish : finish h p = .ok e) {i : Nat}
    {s : Section} (hs : image.sections[i]? = some s) :
    (e.view image options).sectionName i = (Text.utf8 s.name ++ List.replicate 8 0).take 8 := by
  obtain ⟨t, ht, hgrows⟩ := enc.continued.sections i s hs
  obtain ⟨s', hs', hheaded⟩ := exists_right_of_forall₂ enc.lays.sections ht
  rw [← hgrows.name, ← Section.name_headed hheaded, ← shortName_eq]
  exact (enc.hasFields_row hfinish hs').1

/-! ## Where the program starts -/

/-- Where the optional header holds the place where the program starts. -/
def entryPosition : Nat := 16

/-- The place where the program starts, relative to the start of the image. -/
def FileView.entryPoint (v : FileView) : Nat := v.number 4 (v.optionalHeader + entryPosition)

theorem field?_optionalFields_entry (c : Context) (h : OptionalHeader) (pending : PendingHeader) :
    (optionalFields c h pending).field? entryPosition = some (.u32, entryRva c h.entryPoint) := by
  refine Record.field?_append_left (Record.field?_append_left ?_ _) _
  exact Record.field?_append_left rfl _

/-- The headers keep the place where the program starts. -/
theorem entryPoint_withHeaders {a : Assembly} {target : Target} {h : HeadedImage}
    (hh : a.withHeaders target = .ok h) :
    h.image.optionalHeader.entryPoint = a.image.optionalHeader.entryPoint := by
  simp only [Assembly.withHeaders, bind_eq_ok, pure_eq_ok, Prod.exists] at hh
  obtain ⟨table, -, optional, hoptional, -, -, -, -, -, rfl⟩ := hh
  simp only [encodeOptionalHeader, bind_eq_ok, pure_eq_ok] at hoptional
  obtain ⟨d, hd, -, -, -, -, rfl⟩ := hoptional
  simp only [fillDefaults, bind_eq_ok, pure_eq_ok] at hd
  obtain ⟨-, -, -, -, -, -, -, -, -, -, rfl⟩ := hd
  rfl

/-- The place where the program starts is read as the value of what the image gives for it. -/
theorem Encoding.view_entryPoint {image : Image} {options : EncodeOptions} {clock : UInt32}
    {a : Assembly} {h : HeadedImage} {q p : Placement} {e : EncodedImage} {size : Nat}
    (enc : Encoding image options clock a h q p e size) : (e.view image options).entryPoint =
      ((entryRva a.context image.optionalHeader.entryPoint).eval p.binding.env).toNat := by
  have hoptional := (holdsRecords_withHeaders enc.headed).optional p.binding.env
  have hentry := hoptional.field? (field?_optionalFields_entry _ _ _)
  rw [entryPoint_withHeaders enc.headed, enc.continued.optionalHeader] at hentry
  rw [FileView.entryPoint, enc.view_optionalHeader]
  exact enc.number_eq rfl hentry (by rw [entryPosition, checksumPosition]; omega)

/-- **The headers of a file are those of its image.**  What the image gives for a field is read at
the place and with the width that the format has for the field, and so is every default that was
filled in.  The number of sections and the size of the optional header are those of the image that
is returned; behind the optional header there is a row for each of its sections. -/
theorem encodeImage_showsHeaders {image : Image} {options : EncodeOptions} {clock : UInt32}
    {e : EncodedImage} (he : (encodeImage image options clock).result = .ok e) :
    ∃ h p, placedImage image options clock = .ok (h, p) ∧
      (e.view image options).ShowsHeaders options.target image e.image p.binding.env := by
  obtain ⟨a, h, q, p, size, enc⟩ := encodeImage_eq_ok he
  have hfinish : finish h p = .ok e := by
    rw [result_encodeImage, enc.placedImage_eq] at he
    exact he
  obtain ⟨hfile, hoptional, -⟩ := kept_withHeaders enc.headed image.pe64
  rw [enc.continued.header] at hfile
  rw [enc.continued.optionalHeader] at hoptional
  have hreadFile := enc.hasFields_file hfinish
  have hreadOptional := enc.hasFields_optional hfinish
  have hsize := enc.optionalHeaderSize_eq
  have htable := enc.view_sectionTable
  rw [FileView.sectionTable, enc.view_optionalHeader] at htable
  have hlength := enc.finished.sections.length_eq
  have himage := enc.finished.image
  refine ⟨h, p, enc.placedImage_eq, ?_⟩
  exact {
    object := fun hobj => by rw [enc.view_fileHeader, headerStart, if_pos hobj]
    signatures := fun hobj => by
      obtain ⟨hdos, hpe⟩ := enc.bytesAt_stub hobj
      exact ⟨hdos, hpe, by rw [enc.view_fileHeader, headerStart, if_neg hobj]⟩
    file := hfile.hasFields hreadFile
    optional := hoptional.hasFields hreadOptional
    completed := by
      rw [himage]
      exact ⟨hreadFile, hreadOptional⟩
    sectionCount := enc.view_sectionCount.trans hlength
    optionalSize := (Nat.add_left_cancel htable).trans hsize
    directories := fun slot hslot => enc.view_directoryValue hslot
    table := enc.view_table
    rows := fun i s hs => enc.view_finished_row hfinish hs }

/-- A library with big-endian numbers and long addresses that gives its checksum, three data
directories, and a section with a long name. -/
def givenHeaders : Image :=
  { Image.new .big true with
    header := { FileHeader.empty with machine := some .arm64, symbolCount := some 7 }
    optionalHeader :=
      { OptionalHeader.empty with
        imageBase := some 0x180000000
        fileAlignment := some 16
        checksum := some 0x1234
        stackReserve := some 0x200000000
        directoryCount := some 3 }
    directories := [(.resourceTable, ⟨.const 0x1000, .const 3⟩)]
    sections := [{ Section.new ".resources" .read (ofBytes [1, 2, 3]) with
      relocCount := 5 }] }

theorem encodeImage_showsHeaders_givenHeaders :
    ∃ e h p, (encodeImage givenHeaders (.new .dll) 0).result = .ok e ∧
      placedImage givenHeaders (.new .dll) 0 = .ok (h, p) ∧
      (e.view givenHeaders (.new .dll)).ShowsHeaders .dll givenHeaders e.image p.binding.env ∧
      (e.view givenHeaders (.new .dll)).number 4
        ((e.view givenHeaders (.new .dll)).optionalHeader + 64) = 0x1234 := by
  obtain ⟨e, he⟩ : ∃ e, (encodeImage givenHeaders (.new .dll) 0).result = .ok e := by
    rw [encodeImage_eq_encodeOnce]
    exact isSome_toOption.1 (by decide +kernel)
  obtain ⟨h, p, hplaced, hshows⟩ := encodeImage_showsHeaders he
  refine ⟨e, h, p, he, hplaced, hshows, ?_⟩
  exact hshows.optional ⟨64, .u32, some 0x1234⟩ (by simp [OptionalHeader.fields, givenHeaders])
    0x1234 rfl

end PortableImage
