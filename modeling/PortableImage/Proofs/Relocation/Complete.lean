import PortableImage.Proofs.Encode.OnePass
import PortableImage.Proofs.Relocation.Emitted

/-!
# Which fields get a base relocation

A field that is as wide as an address and holds a label gets a base relocation when the label is
known at the moment when base relocations are looked for.  The labels of all sections are.  The
labels of address tables that are written in place are not: these tables are put aside until the
sections have their places, and no section has their labels.

* `relocationLabels` — the labels that are known at that moment.
* `relocatedFields` — the fields that get a base relocation.
* `Image.AddressAt` — a field of the caller that is written like an address and holds a label.
* `encodeImage_relocations` — the file lists these fields, and which of the caller's fields they are.
-/

set_option autoImplicit false

namespace PortableImage

open Buffer

/-- The labels that are known when base relocations are looked for. -/
def relocationLabels (image : Image) (options : EncodeOptions) (clock : UInt32) : List String :=
  match atRelocations image options clock with
  | .ok (a, _) =>
    a.context.start :: a.image.sections.flatMap fun s => s.content.exports.map (·.1)
  | .error _ => []

/-- The fields that get a base relocation: the index of the section, and the offset in it. -/
def relocatedFields (image : Image) (options : EncodeOptions) (clock : UInt32) :
    List (Nat × Nat) :=
  match atRelocations image options clock with
  | .ok (a, b) => a.image.sections.zipIdx.flatMap fun x =>
      (relocatedOffsets a.context b x.1).map fun o => (x.2, o)
  | .error _ => []

/-- The address of an offset in a section, as it is computed. -/
def FileSection.address (r : FileSection) (o : Nat) : Nat := (LinkValue.ofSize (r.rva + o)).toNat

/-! ## The fields that are picked -/

section Picked

variable {image : Image} {options : EncodeOptions} {clock : UInt32} {a : Assembly} {b : Binding}
  (h : atRelocations image options clock = .ok (a, b))

include h

theorem mem_relocationLabels {l : String} :
    l ∈ relocationLabels image options clock ↔
      l = a.context.start ∨ ∃ s ∈ a.image.sections, l ∈ s.content.exports.map (·.1) := by
  rw [relocationLabels, h, List.mem_cons, List.mem_flatMap]

theorem mem_relocatedFields {i o : Nat} :
    (i, o) ∈ relocatedFields image options clock ↔
      ∃ s, a.image.sections[i]? = some s ∧ o ∈ relocatedOffsets a.context b s := by
  rw [relocatedFields, h]
  simp only [List.mem_flatMap, List.mem_map, Prod.mk.injEq, Prod.exists, List.mem_zipIdx_iff_getElem?]
  constructor
  · rintro ⟨s, j, hs, o', ho, rfl, rfl⟩
    exact ⟨s, hs, ho⟩
  · rintro ⟨s, hs, ho⟩
    exact ⟨s, i, hs, o, ho, rfl, rfl⟩

/-- The sections are those of an image that continues the caller's. -/
theorem continues_atRelocations :
    (Assembly.start image (options.timestamp.getD clock)).Continues a := by
  simp only [atRelocations, bind_eq_ok, pure_eq_ok, Prod.mk.injEq] at h
  obtain ⟨_, hbefore, _, -, rfl, -⟩ := h
  exact Assembly.continues_beforeRelocations hbefore

/-- The provisional values of the known labels are places. -/
theorem places_atRelocations : b.Places a.context.start ∧
    ∀ l, ((b.get? l).isSome ∨ l = a.context.start) ↔ l ∈ relocationLabels image options clock := by
  have hlabels := @mem_relocationLabels _ _ _ _ _ h
  simp only [atRelocations, bind_eq_ok, pure_eq_ok, Prod.mk.injEq] at h
  obtain ⟨_, -, _, hprovisional, rfl, rfl⟩ := h
  rw [← Expr.place_zero] at hprovisional
  obtain ⟨hplaces, hbound⟩ := provisionalBinding_spec hprovisional fun _ _ he => nomatch he
  refine ⟨hplaces, fun l => ?_⟩
  rw [hbound, hlabels, or_comm]
  exact or_congr_right (or_iff_right fun hnone => nomatch hnone)

end Picked

theorem mem_relocatedOffsets {c : Context} {b : Binding} {s : Section} {o : Nat} :
    o ∈ relocatedOffsets c b s ↔
      ∃ f, s.content.fields.get? o = some f ∧ needsRelocation c b f = true := by
  rw [relocatedOffsets, List.mem_map]
  constructor
  · rintro ⟨⟨k, f⟩, he, rfl⟩
    rw [List.mem_filter] at he
    exact ⟨f, OffsetMap.get?_eq_some.2 he.1, he.2⟩
  · rintro ⟨f, hf, hneeds⟩
    exact ⟨(o, f), List.mem_filter.2 ⟨OffsetMap.get?_eq_some.1 hf, hneeds⟩, rfl⟩

/-- The caller's section `i` has a pending field at `o`, inside its bytes, that is written like an
address and holds the label. -/
def Image.AddressAt (image : Image) (i o : Nat) (l : String) : Prop :=
  ∃ (s : Section) (f : PendingField), image.sections[i]? = some s ∧
    s.content.fields.get? o = some f ∧ o + f.type.width ≤ s.content.rawSize ∧
    f.order = image.encoder.order ∧ f.type = image.encoder.addressType ∧ f.target = .label l

/-- **A field of the caller that holds a label gets a base relocation when the label is known.** -/
theorem mem_relocatedFields_iff {image : Image} {options : EncodeOptions} {clock : UInt32}
    {a : Assembly} {b : Binding} (h : atRelocations image options clock = .ok (a, b)) {i o : Nat}
    {l : String} (hat : image.AddressAt i o l) :
    (i, o) ∈ relocatedFields image options clock ↔
      l ∈ relocationLabels image options clock := by
  obtain ⟨s, f, hs, hf, hraw, horder, htype, htarget⟩ := hat
  have hin : o < s.content.virtSize := by
    have hwidth := f.type.width_pos
    have hle := s.content.rawSize_le_virtSize
    omega
  have hcontinues := continues_atRelocations h
  obtain ⟨hplaces, hknown⟩ := places_atRelocations h
  obtain ⟨t, ht, hgrows⟩ := hcontinues.sections i s hs
  have hfield : t.content.fields.get? o = some f := (hgrows.content.fields o hin).trans hf
  have hencoder : a.context.encoder = image.encoder := hcontinues.context.1
  have hneeds : needsRelocation a.context b f = isImageAddress (.label a.context.start) b f.target := by
    rw [needsRelocation, hencoder, htype, horder]
    simp
  rw [mem_relocatedFields h, ← hknown, ← isImageAddress_label hplaces, ← htarget, ← hneeds]
  constructor
  · rintro ⟨u, hu, ho⟩
    rw [ht, Option.some.injEq] at hu
    rw [mem_relocatedOffsets, ← hu] at ho
    obtain ⟨g, hg, hneeds⟩ := ho
    rw [hfield, Option.some.injEq] at hg
    rw [hg]
    exact hneeds
  · intro hneeds
    exact ⟨t, ht, mem_relocatedOffsets.2 ⟨f, hfield, hneeds⟩⟩

/-- What the caller's sections export is known. -/
theorem mem_relocationLabels_of_export {image : Image} {options : EncodeOptions} {clock : UInt32}
    {a : Assembly} {b : Binding} (h : atRelocations image options clock = .ok (a, b)) {s : Section}
    {l : String} {k : Nat} (hs : s ∈ image.sections) (hl : (l, k) ∈ s.content.exports) :
    l ∈ relocationLabels image options clock := by
  obtain ⟨i, hi⟩ := List.mem_iff_getElem?.1 hs
  obtain ⟨t, ht, hgrows⟩ := (continues_atRelocations h).sections i s hi
  rw [mem_relocationLabels h]
  exact .inr ⟨t, List.mem_of_getElem? ht,
    List.mem_map.2 ⟨(l, k), hgrows.content.exports.subset hl, rfl⟩⟩

namespace Encoding

variable {image : Image} {options : EncodeOptions} {clock : UInt32} {a : Assembly}
  {h : HeadedImage} {q p : Placement} {e : EncodedImage} {size : Nat}
  (enc : Encoding image options clock a h q p e size)

include enc

/-- **No label of a table that is written in place is known when base relocations are looked for.**
A label is bound once, and the labels of all sections are bound before. -/
theorem notMem_relocationLabels {a₀ : Assembly} {b : Binding}
    (hat : atRelocations image options clock = .ok (a₀, b)) (hgrow : a₀.Continues a)
    {t : Nat × Buffer} {l : String} {k : Nat} (ht : t ∈ tablesInPlace image options clock)
    (hl : (l, k) ∈ t.2.exports) : l ∉ relocationLabels image options clock := by
  rw [enc.tablesInPlace_eq, ← mem_orderedTables] at ht
  have hnone := enc.places.tables.fresh t ht l k hl
  rw [mem_relocationLabels hat, ← hgrow.context.2]
  rintro (rfl | ⟨s, hs, hmem⟩)
  · have hstart := enc.places.start a.context.start enc.lays.exports
    rw [hnone] at hstart
    exact nomatch hstart
  · obtain ⟨⟨l', o⟩, hexport, rfl⟩ := List.mem_map.1 hmem
    obtain ⟨i, hi⟩ := List.mem_iff_getElem?.1 hs
    obtain ⟨s', hs', hgrows⟩ := hgrow.sections i s hi
    obtain ⟨s'', r, address, -, -, -, hat, hlabelled⟩ :=
      enc.exists_placed_of_assembled hs'
    have hbound := hat.exports l' o
      (hlabelled.grows.exports.subset (hgrows.content.exports.subset hexport))
    rw [hnone] at hbound
    exact nomatch hbound

/-- The address of a place in the bytes of a section is small. -/
theorem address_eq (hlen : e.bytes.length < UInt64.size) {i o : Nat} {s : Section}
    (hs : image.sections[i]? = some s) (ho : o < s.content.rawSize) :
    ∃ r, (e.view image options).sections[i]? = some r ∧ r.address o = r.rva + o := by
  obtain ⟨s', r, address, hs', hr, -, hat, hgrows⟩ := enc.exists_placed hs
  refine ⟨r.seen, ?_, LinkValue.toNat_ofSize ?_⟩
  · rw [enc.view_sections hlen, List.getElem?_map, hr, Option.map_some]
  · have hrow := (enc.view_row hs' hat hlen).1
    have hsmall : r.seen.rva < 2 ^ 32 := by
      rw [← hrow]
      exact (e.view image options).number_lt 4 _
    have hend := enc.rawAddress_le hat
    have hsize := hat.rawSize
    have hle := hgrows.rawSize_le
    rw [UInt64.size] at hlen
    omega

end Encoding

/-- **Which fields get a base relocation.**  The blocks, unless a table is written over them, list
the addresses of fields only; and of the fields that hold a label as an address, they list those with
a label that is known when base relocations are looked for.  The labels of the caller's sections are
known.  The labels of tables that are written in place are not, and a field that holds one of them
is left out. -/
theorem encodeImage_relocations {image : Image} {options : EncodeOptions} {clock : UInt32}
    {e : EncodedImage} (he : (encodeImage image options clock).result = .ok e)
    (hwants : options.wantsRelocations = true) (hlen : e.bytes.length < UInt64.size)
    (hinside : ∀ s ∈ image.sections, s.content.FieldsInside) :
    ∃ place size, e.BlocksAt (e.view image options) place size ∧
      (ApartFromTables (e.view image options) (tablesInPlace image options clock) place size →
        (∀ x ∈ (e.view image options).relocations place size, ∃ i o r,
          (i, o) ∈ relocatedFields image options clock ∧
          (e.view image options).sections[i]? = some r ∧
          x = ⟨addressKind image.encoder, r.address o⟩) ∧
        ∀ i o l, image.AddressAt i o l → l ∈ relocationLabels image options clock →
          ∃ r, (e.view image options).sections[i]? = some r ∧
            ⟨addressKind image.encoder, r.rva + o⟩ ∈
              (e.view image options).relocations place size) ∧
      (∀ i o l, image.AddressAt i o l → ((i, o) ∈ relocatedFields image options clock ↔
        l ∈ relocationLabels image options clock)) ∧
      (∀ s ∈ image.sections, ∀ x ∈ s.content.exports,
        x.1 ∈ relocationLabels image options clock) ∧
      ∀ t ∈ tablesInPlace image options clock, ∀ x ∈ t.2.exports,
        x.1 ∉ relocationLabels image options clock := by
  obtain ⟨a, h, q, p, _, enc⟩ := encodeImage_eq_ok he
  obtain ⟨a₀, b, tables, content, label, hat, hcontinues, hgrow, hrel⟩ :=
    enc.exists_relocates hwants
  obtain ⟨place, size, hplace, hlisted⟩ := enc.relocations_eq hlen hrel hcontinues hinside
  have hencoder : a₀.context.encoder = image.encoder := hcontinues.context.1
  refine ⟨place, size, hplace, fun hapart => ?_, fun i o l hfield => mem_relocatedFields_iff hat hfield,
    fun s hs x hx => mem_relocationLabels_of_export hat hs hx,
    fun t ht x hx => enc.notMem_relocationLabels hat hgrow ht hx⟩
  rw [enc.tablesInPlace_eq] at hapart
  rw [hlisted hapart, hencoder]
  constructor
  · intro x hx
    obtain ⟨⟨s, r⟩, hzip, hx⟩ := List.mem_flatMap.1 hx
    obtain ⟨o, ho, rfl⟩ := List.mem_map.1 hx
    obtain ⟨i, hi⟩ := List.mem_iff_getElem?.1 hzip
    rw [List.getElem?_zip_eq_some] at hi
    exact ⟨i, o, r, (mem_relocatedFields hat).2 ⟨s, hi.1, ho⟩, hi.2, rfl⟩
  · intro i o l hfield hknown
    obtain ⟨s, hs, ho⟩ := (mem_relocatedFields hat).1 ((mem_relocatedFields_iff hat hfield).2 hknown)
    obtain ⟨t, f, ht, -, hraw, -⟩ := hfield
    have hwidth := f.type.width_pos
    obtain ⟨r, hr, haddress⟩ := enc.address_eq hlen ht (o := o) (by omega)
    refine ⟨r, hr, ?_⟩
    rw [← haddress]
    have hzip : (s, r) ∈ a₀.image.sections.zip (e.view image options).sections :=
      List.mem_of_getElem? (List.getElem?_zip_eq_some.2 ⟨hs, hr⟩)
    exact List.mem_flatMap.2 ⟨(s, r), hzip, List.mem_map.2 ⟨o, ho, rfl⟩⟩

/-- A library whose data starts with room for an address table and goes on with the address of a slot
in it. -/
def slotInPlace : Image :=
  { Image.empty with
    header := { FileHeader.empty with machine := some .i386 }
    sections := [{ Section.new ".data" (.read ||| .write)
      (ofBytes (List.replicate 64 0) ++ placeholder (.label "slot") .u32 .little) with
        address := some 0x1000 }]
    imports := some [{ ImportDirectory.new "k.dll" with
      tableAddress := some 0x1000
      imports := [{ Import.byOrdinal 1 with target := some "slot" }] }] }

theorem encodeImage_relocations_slotInPlace :
    ∃ e, (encodeImage slotInPlace (.new .dll) 0).result = .ok e ∧
      slotInPlace.AddressAt 0 64 "slot" ∧
      (0, 64) ∉ relocatedFields slotInPlace (.new .dll) 0 := by
  obtain ⟨e, he, hlen⟩ : ∃ e, (encodeImage slotInPlace (.new .dll) 0).result = .ok e ∧
      e.bytes.length < UInt64.size := exists_encodeImage (by decide +kernel)
  have hslot : ((tablesInPlace slotInPlace (.new .dll) 0).any fun t =>
      t.2.exports.any fun x => x.1 == "slot") = true := by decide +kernel
  obtain ⟨t, ht, hexports⟩ := List.any_eq_true.1 hslot
  obtain ⟨x, hx, hname⟩ := List.any_eq_true.1 hexports
  have hfield : slotInPlace.AddressAt 0 64 "slot" :=
    ⟨_, ⟨.label "slot", .u32, .little⟩, rfl, by decide +kernel, by decide +kernel, rfl, rfl, rfl⟩
  obtain ⟨place, size, -, -, hpicked, -, hleft⟩ :=
    encodeImage_relocations he rfl hlen (by
      intro s hs
      rw [List.mem_singleton.1 hs]
      exact (fieldsInside_of_noFields rfl).append (fieldsInside_placeholder _ _ _))
  refine ⟨e, he, hfield, fun hlisted => hleft t ht x hx ?_⟩
  rw [eq_of_beq hname]
  exact (hpicked 0 64 "slot" hfield).1 hlisted

end PortableImage
