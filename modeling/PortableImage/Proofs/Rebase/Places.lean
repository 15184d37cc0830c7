import PortableImage.Proofs.Rebase.Sections

/-!
# Where the fields with base relocations are in the file

Where all bytes of the sections are in memory, a loader finds every field that has a base relocation in
the section it belongs to.

* `relocatedPlaces` — the places of these fields; they lie one behind the other.
* `Encoding.loadedAt_eq` — the file as a loader changes it.
-/

set_option autoImplicit false

namespace PortableImage

open Buffer

/-- Where the sections lie one behind the other in memory, an address is in the file where its section
has it. -/
theorem Placement.tableOffset_of_ascending {q : Placement}
    (h : q.placed.Pairwise fun r s => r.rva + r.virtSize ≤ s.rva) {r : PlacedSection}
    (hr : r ∈ q.placed) {o : Nat} (ho : o < r.virtSize) :
    q.tableOffset (r.rva + o) = some (r.rawAddress + o) := by
  have hfind : q.placed.find? (fun s => s.rva ≤ r.rva + o && r.rva + o < s.rva + s.virtSize) =
      some r := by
    generalize q.placed = l at h hr
    induction l with
    | nil => exact nomatch hr
    | cons s rest ih =>
      obtain ⟨hfirst, hrest⟩ := List.pairwise_cons.1 h
      rcases List.mem_cons.1 hr with rfl | hr
      · exact List.find?_cons_of_pos (by simpa using ho)
      · have hle := hfirst r hr
        rw [List.find?_cons_of_neg, ih hrest hr]
        simp only [Bool.and_eq_true, decide_eq_true_eq]
        omega
  rw [tableOffset, hfind, Option.map_some, Nat.add_sub_cancel_left]

/-- The places in the file of the fields of the sections that get a base relocation. -/
def relocatedPlaces (c : Context) (b : Binding) (sections : List Section)
    (placed : List PlacedSection) : List Nat :=
  (sections.zip placed).flatMap fun x => (relocatedOffsets c b x.1).map (x.2.rawAddress + ·)

theorem mem_relocatedPlaces {c : Context} {b : Binding} {sections : List Section}
    {placed : List PlacedSection} {o : Nat} :
    o ∈ relocatedPlaces c b sections placed ↔ ∃ (i : Nat) (s : Section) (r : PlacedSection) (k : Nat),
      sections[i]? = some s ∧ placed[i]? = some r ∧ k ∈ relocatedOffsets c b s ∧
        o = r.rawAddress + k := by
  rw [relocatedPlaces, List.mem_flatMap]
  constructor
  · rintro ⟨⟨s, r⟩, hzip, ho⟩
    obtain ⟨i, hi⟩ := List.mem_iff_getElem?.1 hzip
    obtain ⟨hs, hr⟩ := List.getElem?_zip_eq_some.1 hi
    obtain ⟨k, hk, rfl⟩ := List.mem_map.1 ho
    exact ⟨i, s, r, k, hs, hr, hk, rfl⟩
  · rintro ⟨i, s, r, k, hs, hr, hk, rfl⟩
    exact ⟨(s, r), List.mem_of_getElem? (List.getElem?_zip_eq_some.2 ⟨hs, hr⟩),
      List.mem_map_of_mem hk⟩

/-- The fields of a section that move lie one behind the other. -/
theorem ascending_relocatedOffsets {c : Context} {b : Binding} {s : Section} {width : Nat}
    (hapart : s.content.FieldsApart)
    (hwidth : ∀ f, needsRelocation c b f = true → f.type.width = width) :
    (relocatedOffsets c b s).Pairwise fun x y => x + width ≤ y := by
  rw [relocatedOffsets, List.pairwise_map]
  refine (s.content.fields.ascending.filter _).imp_of_mem fun {x y} hx hy hlt => ?_
  obtain ⟨hx, hneeds⟩ := List.mem_filter.1 hx
  rw [← hwidth x.2 hneeds]
  exact hapart _ _ _ _ (OffsetMap.get?_eq_some.2 hx)
    (OffsetMap.get?_eq_some.2 (List.mem_filter.1 hy).1) hlt

theorem ascending_relocatedPlaces {c : Context} {b : Binding} {sections : List Section}
    {placed : List PlacedSection} {width : Nat}
    (hplaced : placed.Pairwise fun r s => r.rawAddress + r.rawSize ≤ s.rawAddress)
    (hwidth : ∀ f, needsRelocation c b f = true → f.type.width = width)
    (hapart : ∀ s ∈ sections, s.content.FieldsApart)
    (hin : ∀ (i : Nat) s r, sections[i]? = some s → placed[i]? = some r →
      ∀ k ∈ relocatedOffsets c b s, k + width ≤ r.rawSize) :
    (relocatedPlaces c b sections placed).Pairwise fun x y => x + width ≤ y := by
  rw [relocatedPlaces, List.pairwise_flatMap]
  constructor
  · intro x hx
    rw [List.pairwise_map]
    refine (ascending_relocatedOffsets (hapart x.1 (List.of_mem_zip hx).1) hwidth).imp fun hle => ?_
    omega
  · rw [List.pairwise_iff_getElem] at hplaced ⊢
    intro i j hi hj hlt x hx y hy
    rw [List.getElem_zip] at hx hy
    obtain ⟨k, hk, rfl⟩ := List.mem_map.1 hx
    obtain ⟨l, -, rfl⟩ := List.mem_map.1 hy
    have hi' := List.lt_length_right_of_zip hi
    have hj' := List.lt_length_right_of_zip hj
    have hend := hin i _ _ (List.getElem?_eq_getElem (List.lt_length_left_of_zip hi))
      (List.getElem?_eq_getElem hi') k hk
    have hnext := hplaced i j hi' hj' hlt
    dsimp only
    omega

namespace Encoding

variable {image : Image} {options : EncodeOptions} {clock : UInt32} {a : Assembly}
  {h : HeadedImage} {q p : Placement} {e : EncodedImage} {size : Nat}
  (enc : Encoding image options clock a h q p e size)

include enc

variable {a₀ : Assembly} {b : Binding} (hat : atRelocations image options clock = .ok (a₀, b))
  (hwritten : ∀ s ∈ image.sections, s.content.FieldsWritten)

include hat hwritten

/-- A field that gets a base relocation lies in the bytes of its section. -/
theorem relocated_le (hgrow : a₀.Continues a) {i k : Nat} {s₀ : Section} {r : PlacedSection}
    (hs₀ : a₀.image.sections[i]? = some s₀) (hr : q.placed[i]? = some r)
    (hk : k ∈ relocatedOffsets a₀.context b s₀) :
    k + image.encoder.addressType.width ≤ r.rawSize := by
  obtain ⟨f, hf, hneeds⟩ := mem_relocatedOffsets.1 hk
  obtain ⟨s, r', address, -, hr', hsection, hgrows⟩ :=
    enc.exists_placed_of_collected hgrow hs₀
  rw [hr] at hr'
  cases hr'
  have hkeeps := continues_atRelocations hat
  have hle := hkeeps.stable Section.stable_fieldsWritten hwritten s₀ (List.mem_of_getElem? hs₀) k f hf
  have htype := type_of_needsRelocation hneeds
  rw [show a₀.context.encoder = image.encoder from hkeeps.context.1] at htype
  exact htype ▸ Nat.le_trans hle (Nat.le_trans hgrows.rawSize_le hsection.rawSize)

/-- **The file as a loader changes it**: the distance is added to the fields that get a base
relocation, which lie one behind the other.  They start in the part of their section that is in
memory. -/
theorem loadedAt_eq {tables : List RelocationTable} {content : Buffer} {label : String}
    (hrel : a₀.Relocates a b tables content label) (htables : a.tablesInPlace = [])
    (hlen : e.bytes.length < UInt64.size)
    (hroom : (e.view image options).Room)
    (hmemory : ∀ x ∈ relocatedFields image options clock,
      ∀ r ∈ (e.view image options).sections[x.1]?, x.2 < r.virtSize) :
    ∃ place size, e.BlocksAt (e.view image options) place size ∧ ∀ base,
      (e.view image options).loadedAt base ((e.view image options).relocations place size) =
        (relocatedPlaces a₀.context b a₀.image.sections q.placed).foldl
          (addAt image.order image.encoder.addressType.width
            (base + UInt64.size - (e.view image options).imageBase)) e.bytes := by
  have hkeeps := continues_atRelocations hat
  have hinside : ∀ s ∈ image.sections, s.content.FieldsInside := fun s hs => (hwritten s hs).inside
  obtain ⟨place, size, hplace, hlisted⟩ := enc.relocations_eq hlen hrel hkeeps hinside
  refine ⟨place, size, hplace, fun base => ?_⟩
  have hrelocs := hlisted fun t ht => by
    rw [htables] at ht
    exact nomatch ht
  have hencoder : a₀.context.encoder = image.encoder := hkeeps.context.1
  have hkind : ∀ r ∈ (e.view image options).relocations place size,
      relocationWidth r.kind = image.encoder.addressType.width := by
    rw [hrelocs]
    intro r hr
    obtain ⟨x, -, hr⟩ := List.mem_flatMap.1 hr
    obtain ⟨o, -, rfl⟩ := List.mem_map.1 hr
    rw [hencoder]
    exact relocationWidth_addressKind image.encoder
  rw [FileView.loadedAt, FileView.foldl_relocate hkind]
  congr 1
  have hsections := enc.view_sections hlen
  rw [hrelocs, List.filterMap_flatMap, hsections, List.zip_map_right, List.flatMap_map,
    relocatedPlaces]
  refine List.flatMap_congr fun ⟨s₀, r⟩ hx => ?_
  obtain ⟨i, hi⟩ := List.mem_iff_getElem?.1 hx
  obtain ⟨hs₀, hr⟩ := List.getElem?_zip_eq_some.1 hi
  have hseen : (e.view image options).sections[i]? = some r.seen := by
    rw [hsections, List.getElem?_map, hr, Option.map_some]
  rw [List.filterMap_map]
  refine List.filterMap_eq_map_iff_forall_eq_some.2 fun k hk => ?_
  have hlt : k < r.virtSize :=
    hmemory (i, k) ((mem_relocatedFields hat).2 ⟨s₀, hs₀, hk⟩) r.seen hseen
  -- the address is small enough to be computed without wrapping around
  have hend := hroom.sections r.seen (List.mem_of_getElem? hseen)
  rw [PlacedSection.seen, UInt64.size] at hend
  dsimp only at hend
  have hsmall : (LinkValue.ofSize (r.rva + k)).toNat = r.rva + k :=
    LinkValue.toNat_ofSize (by omega)
  show (e.view image options).offset? (LinkValue.ofSize (r.rva + k)).toNat = _
  rw [hsmall, enc.view_offset? hlen]
  exact Placement.tableOffset_of_ascending (enc.ascending hlen hroom) (List.mem_of_getElem? hr) hlt

end Encoding

end PortableImage
