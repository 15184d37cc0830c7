import PortableImage.Proofs.FileView

/-!
# Reading the data directories

Behind the other fields of the optional header stands the table of data directories: for each its
address and its size.  What a loader reads there are the places that the directories have been given.

* `FileView.directory` — a data directory as it is read.
* `Encoding.view_directory` — it is the place that was given.
* `Encoding.eval_rva` — a place that starts at a label.
-/

set_option autoImplicit false

namespace PortableImage

open Buffer

/-! ## The reader -/

/-- The index of a data directory in the file. -/
def DirectorySlot.index (slot : DirectorySlot) : Nat := all.idxOf slot

theorem DirectorySlot.getElem?_all (slot : DirectorySlot) : all[slot.index]? = some slot := by
  cases slot <;> rfl

/-- A data directory as a loader sees it. -/
structure FileDirectory where
  /-- The address relative to the start of the image. -/
  rva : Nat
  size : Nat
  deriving DecidableEq

/-- A data directory. -/
def FileView.directory (v : FileView) (slot : DirectorySlot) : FileDirectory :=
  let o := v.optionalHeader + directoriesPosition v.pe64 + 8 * slot.index
  ⟨v.number 4 o, v.number 4 (o + 4)⟩

/-! ## The table -/

/-- The fields of a data directory; one without a place is zero. -/
def directoryPlace (image : Image) (slot : DirectorySlot) : Record :=
  match image.directory? slot with
  | some place => [(.u32, place.address), (.u32, place.size)]
  | none => [(.u32, .const 0), (.u32, .const 0)]

theorem size_directoryPlaces (image : Image) (slots : List DirectorySlot) :
    Record.size (slots.flatMap (directoryPlace image)) = 8 * slots.length := by
  induction slots with
  | nil => rfl
  | cons slot rest ih =>
    have hone : Record.size (directoryPlace image slot) = 8 := by
      rw [directoryPlace]
      split <;> rfl
    rw [List.flatMap_cons, Record.size_append, ih, hone, List.length_cons]
    omega

/-- The table, taken apart at a data directory. -/
theorem directoryFields_split (image : Image) {slot : DirectorySlot} {count : Nat}
    (h : slot.index < count) : ∃ before behind : Record,
      directoryFields image count = before ++ (directoryPlace image slot ++ behind) ∧
        before.size = 8 * slot.index := by
  have hlt : slot.index < DirectorySlot.all.length :=
    (List.getElem?_eq_some_iff.1 slot.getElem?_all).1
  have hmem : (DirectorySlot.all.take count)[slot.index]? = some slot := by
    rw [List.getElem?_take_of_lt h, slot.getElem?_all]
  obtain ⟨hin, hslot⟩ := List.getElem?_eq_some_iff.1 hmem
  refine ⟨((DirectorySlot.all.take count).take slot.index).flatMap (directoryPlace image),
    ((DirectorySlot.all.take count).drop (slot.index + 1)).flatMap (directoryPlace image), ?_, ?_⟩
  · rw [← List.flatMap_cons, ← List.flatMap_append]
    show (DirectorySlot.all.take count).flatMap (directoryPlace image) = _
    congr 1
    conv_lhs => rw [← List.take_append_drop slot.index (DirectorySlot.all.take count),
      List.drop_eq_getElem_cons hin, hslot]
  · rw [size_directoryPlaces, List.length_take, Nat.min_eq_left (Nat.le_of_lt hin)]

/-- An address behind the start of the image, relative to it. -/
theorem LinkValue.toNat_ofSize_add_sub {base x : Nat} (h : base + x < 2 ^ 128) :
    (LinkValue.ofSize (base + x) - LinkValue.ofSize base).toNat = x := by
  rw [BitVec.toNat_sub, toNat_ofSize h, toNat_ofSize (by omega)]
  omega

namespace Encoding

variable {image : Image} {options : EncodeOptions} {clock : UInt32} {a : Assembly}
  {h : HeadedImage} {q p : Placement} {e : EncodedImage} {size : Nat}
  (enc : Encoding image options clock a h q p e size)

include enc

theorem directoryCount_eq : a.image.directoryCount = image.directoryCount := by
  rw [Image.directoryCount, enc.continued.optionalHeader]
  rfl

/-- The headers hold the fields of a data directory. -/
theorem holdsRecord_directory {slot : DirectorySlot} (hslot : slot.index < image.directoryCount) :
    h.headers.HoldsRecord p.binding.env a.context.encoder.order
      ((e.view image options).optionalHeader + directoriesPosition image.pe64 + 8 * slot.index)
      (directoryPlace a.image slot) := by
  rw [← enc.directoryCount_eq] at hslot
  obtain ⟨before, behind, hfields, hbefore⟩ := directoryFields_split a.image hslot
  have htable := enc.lays.directoryTable p.binding.env
  rw [hfields] at htable
  have hplaces := (holdsRecord_append.1 (holdsRecord_append.1 htable).2).1
  rw [hbefore] at hplaces
  rw [enc.view_optionalHeader]
  rw [enc.encoder_eq] at hplaces ⊢
  exact hplaces

/-- The data directories lie behind the checksum. -/
theorem directory_ne_checksum (slot : DirectorySlot) (k : Nat) :
    (e.view image options).optionalHeader + directoriesPosition image.pe64 + 8 * slot.index + k ≠
      headerStart options.target + fileHeaderSize + checksumPosition := by
  have hbehind : checksumPosition < directoriesPosition image.pe64 := by
    unfold directoriesPosition
    split <;> decide
  rw [enc.view_optionalHeader]
  omega

/-- **A data directory is read as the place that it was given**, and both numbers take 32 bits. -/
theorem view_directory {slot : DirectorySlot} (hslot : slot.index < image.directoryCount)
    {place : DataDirectory} (hplace : a.image.directory? slot = some place) :
    (e.view image options).directory slot =
        ⟨(place.address.eval p.binding.env).toNat, (place.size.eval p.binding.env).toNat⟩ ∧
      (place.address.eval p.binding.env).toNat < 2 ^ 32 ∧
      (place.size.eval p.binding.env).toNat < 2 ^ 32 := by
  have hplaces := enc.holdsRecord_directory hslot
  rw [directoryPlace, hplace] at hplaces
  have haddress := hplaces.1
  have hsize := hplaces.2.1
  have hne := enc.directory_ne_checksum slot
  exact ⟨congrArg₂ FileDirectory.mk (enc.number_eq rfl haddress (hne 0))
    (enc.number_eq rfl hsize (hne 4)), enc.toNat_lt rfl haddress (hne 0), enc.toNat_lt rfl hsize (hne 4)⟩

/-- A data directory without a place is zero. -/
theorem view_directory_none {slot : DirectorySlot} (hslot : slot.index < image.directoryCount)
    (hplace : a.image.directory? slot = none) : (e.view image options).directory slot = ⟨0, 0⟩ := by
  have hplaces := enc.holdsRecord_directory hslot
  rw [directoryPlace, hplace] at hplaces
  have hne := enc.directory_ne_checksum slot
  exact congrArg₂ FileDirectory.mk (enc.number_eq rfl hplaces.1 (hne 0))
    (enc.number_eq rfl hplaces.2.1 (hne 4))

/-- The address of a label that lies `x` bytes behind the start of the image. -/
theorem eval_rva {label : String} {x : Nat} (hx : x < 2 ^ 66)
    (hlabel : p.binding.get? label = some (.ofSize (h.numbers.base + x))) :
    ((a.context.rva (.label label)).eval p.binding.env).toNat = x := by
  have hbase := h.base_lt
  have hvalue : (Expr.label label).eval p.binding.env = LinkValue.ofSize (h.numbers.base + x) :=
    Binding.env_of_get? hlabel
  show ((Expr.label label).eval p.binding.env - p.binding.env a.context.start).toNat = x
  rw [hvalue, enc.env_start]
  exact LinkValue.toNat_ofSize_add_sub (by omega)

end Encoding

end PortableImage
