import PortableImage.Encode.Placement
import PortableImage.Proofs.AddressRuns
import PortableImage.Proofs.Binding
import PortableImage.Proofs.Growth

/-!
# Where sections are placed

Each section gets the next place in the file and an address, and its labels are bound to what follows
from the address.  Placing another section behind it changes none of this.

* `Placement.Extends` — what placing more keeps.
* `SectionAt` — the section is in the output, at its place and with its labels bound.
* `Tiles` — sections that lie in the file one behind the other.
* `placeSection_spec` — one step; `placeSections_spec` — all sections are placed, one behind the
  other.
-/

set_option autoImplicit false

namespace PortableImage

open Buffer

/-! ## What placing more keeps -/

/-- The second placement continues the first. -/
structure Placement.Extends (p p' : Placement) : Prop where
  output : p.output.Grows p'.output
  binding : p.binding.Extends p'.binding
  placed : p.placed <+: p'.placed

theorem Placement.Extends.refl (p : Placement) : p.Extends p :=
  ⟨.refl _, .refl _, List.prefix_rfl⟩

theorem Placement.Extends.trans {p q r : Placement} (hpq : p.Extends q) (hqr : q.Extends r) :
    p.Extends r :=
  ⟨hpq.output.trans hqr.output, hpq.binding.trans hqr.binding, hpq.placed.trans hqr.placed⟩

/-- A placement whose values are all constants and whose pending fields all lie inside. -/
structure Placement.Sound (p : Placement) : Prop where
  constant : p.binding.Constant
  inside : p.output.FieldsInside

/-- The section is in the output: its bytes, its pending fields and the values of its labels. -/
structure SectionAt (n : LayoutNumbers) (s : Section) (p : Placement) (q : PlacedSection)
    (address : Nat) : Prop where
  rva : q.rva = address - n.base
  virtSize : q.virtSize = (s.virtSize.getD 0).toNat
  fixed : ∀ a, s.address = some a → address = n.base + a.toNat
  floating : s.address = none → ∃ next, address = alignAddress next n.sectionAlignment
  small : address ≤ maxAddress ∨ address < n.base + UInt32.size
  rawAddress : ∀ l, s.rawAddressLabel = some l →
    p.binding.get? l.name = some (.ofSize q.rawAddress)
  rawSizeLabel : ∀ l, s.rawSizeLabel = some l → p.binding.get? l.name = some (.ofSize q.rawSize)
  exports : ∀ l k, (l, k) ∈ s.content.exports → p.binding.get? l = some (.ofSize (address + k))
  rawSize : s.content.rawSize ≤ q.rawSize
  rounded : q.rawAddress + q.rawSize = max (q.rawAddress + s.content.rawSize)
    (alignSize (q.rawAddress + s.content.rawSize) n.fileAlignment)
  inside : q.rawAddress + q.rawSize ≤ p.output.virtSize
  front : ∀ k f, k < q.rawAddress → p.output.fields.get? k = some f →
    k + f.type.width ≤ q.rawAddress
  bytes : ∀ i, i < q.rawSize →
    p.output.contents[q.rawAddress + i]? = (padTo q.rawSize s.content.data)[i]?
  fields : ∀ k, k < q.rawSize → p.output.fields.get? (q.rawAddress + k) =
    (s.content.slice 0 s.content.rawSize).fields.get? k
  holds : ∀ env o t order v, (s.content.slice 0 s.content.rawSize).Holds env o t order v →
    p.output.Holds env (q.rawAddress + o) t order v

/-- Placing more keeps what is placed. -/
theorem SectionAt.extends {n : LayoutNumbers} {s : Section} {p p' : Placement}
    {q : PlacedSection} {address : Nat} (h : SectionAt n s p q address) (he : p.Extends p') :
    SectionAt n s p' q address where
  rva := h.rva
  virtSize := h.virtSize
  fixed := h.fixed
  floating := h.floating
  small := h.small
  rawAddress l hl := he.binding _ _ (h.rawAddress l hl)
  rawSizeLabel l hl := he.binding _ _ (h.rawSizeLabel l hl)
  exports l k hm := he.binding _ _ (h.exports l k hm)
  rawSize := h.rawSize
  rounded := h.rounded
  inside := Nat.le_trans h.inside he.output.virtSize_le
  front k f hk hf := by
    have hle := h.inside
    rw [he.output.fields k (by omega)] at hf
    exact h.front k f hk hf
  bytes i hi := by
    have hle := h.inside
    rw [he.output.contents _ (by omega), h.bytes i hi]
  fields k hk := by
    have hle := h.inside
    rw [he.output.fields _ (by omega), h.fields k hk]
  holds env o t order v hv := (h.holds env o t order v hv).grows he.output

/-! ## One section -/

theorem Binding.bindOption_spec {b b' : Binding} {hint : String} {label : Option (LinkerLabel hint)}
    {value : Nat} (h : b.bindOption (label.map (·.name)) value = .ok b') (hb : b.Constant) :
    b.Extends b' ∧ b'.Constant ∧ ∀ l, label = some l → b'.get? l.name = some (.ofSize value) := by
  unfold bindOption at h
  cases label with
  | some label =>
    refine ⟨extends_bind h, Constant.bind h hb ⟨_, rfl⟩, ?_⟩
    rintro _ ⟨⟩
    exact get?_bind_self h
  | none =>
    cases h
    exact ⟨.refl b, hb, fun _ hnone => nomatch hnone⟩

theorem alignAddress_le (n alignment : Nat) : alignAddress n alignment ≤ maxAddress := by
  have hle : clearBits (min (n + (alignment - 1)) maxAddress) (alignment - 1) ≤
      min (n + (alignment - 1)) maxAddress := Nat.sub_le _ _
  exact Nat.le_trans hle (Nat.min_le_right _ _)

theorem Binding.merge_spec {b b' exported : Binding} {s : Buffer} {address : Nat}
    (hexported : s.binding (.ofSize address) = .ok exported) (h : b.merge exported = .ok b')
    (hb : b.Constant) : b.Extends b' ∧ b'.Constant ∧
      ∀ l k, (l, k) ∈ s.exports → b'.get? l = some (.ofSize (address + k)) := by
  have hentries := Buffer.binding_eq_ok hexported
  rw [Buffer.addresses_ofSize] at hentries
  refine ⟨extends_bindAll h, Constant.bindAll h hb fun e he => ?_, fun l k hm => ?_⟩
  · rw [hentries] at he
    obtain ⟨x, -, rfl⟩ := List.mem_map.1 he
    exact ⟨_, rfl⟩
  · refine get?_bindAll_of_mem h ?_
    rw [hentries]
    exact List.mem_map_of_mem (f := fun e => (e.1, Expr.ofSize (address + e.2))) hm

/-- The bytes of a section that is put behind a buffer, with the zeros that round it up. -/
theorem getElem?_placed {b c : Buffer} {boundary i : Nat}
    (hi : i < ((b ++ c.slice 0 c.rawSize).align boundary).virtSize - b.virtSize) :
    ((b ++ c.slice 0 c.rawSize).align boundary).contents[b.virtSize + i]? =
      (padTo (((b ++ c.slice 0 c.rawSize).align boundary).virtSize - b.virtSize) c.data)[i]? := by
  have hsize : (b ++ c.slice 0 c.rawSize).virtSize = b.virtSize + c.rawSize := by
    rw [virtSize_append, virtSize_slice]
  rw [align, virtSize_growTo, hsize] at hi ⊢
  rw [contents_growTo, contents_append, contents_slice, getElem?_padTo, getElem?_padTo,
    List.length_append, length_contents]
  rw [rawSize] at *
  by_cases hlt : i < c.data.length
  · rw [if_pos (by omega), if_pos hlt, List.getElem?_append_right (by rw [length_contents]; omega),
      length_contents, Nat.add_sub_cancel_left]
  · rw [if_neg (by omega), if_neg hlt, if_pos (by omega), if_pos (by omega)]

/-- The pending fields of a section that is put behind a buffer. -/
theorem get?_fields_placed {b c : Buffer} (hb : b.FieldsInside) {boundary k : Nat} :
    ((b ++ c.slice 0 c.rawSize).align boundary).fields.get? (b.virtSize + k) =
      (c.slice 0 c.rawSize).fields.get? k := by
  have hnone : b.fields.get? (b.virtSize + k) = none := by
    cases hf : b.fields.get? (b.virtSize + k) with
    | none => rfl
    | some f =>
      have hle := hb _ f hf
      have hpos := f.type.width_pos
      omega
  rw [fields_align, get?_fields_append, if_pos (Nat.le_add_right _ _), Nat.add_sub_cancel_left,
    hnone, Option.or_none]

section Step

variable {n : LayoutNumbers} {s : Section} {p p' : Placement}
  (h : (placeSection n s p).result = .ok p')

include h

theorem placeSection_eq_ok : ∃ address b₁ exported b₂ b₃,
    p.binding.bindOption (s.rawAddressLabel.map (·.name)) p.output.virtSize = .ok b₁ ∧
    (p.cursor.place s.name (s.address.map (·.toNat)) (s.virtSize.getD 0).toNat).1 = .ok address ∧
    s.content.binding (.ofSize address) = .ok exported ∧ b₁.merge exported = .ok b₂ ∧
    b₂.bindOption (s.rawSizeLabel.map (·.name))
      (((p.output ++ s.content.slice 0 s.content.rawSize).align n.fileAlignment).virtSize -
        p.output.virtSize) = .ok b₃ ∧
    p' = ⟨(p.output ++ s.content.slice 0 s.content.rawSize).align n.fileAlignment, b₃,
      (p.cursor.place s.name (s.address.map (·.toNat)) (s.virtSize.getD 0).toNat).2,
      p.placed ++ [⟨address - n.base, (s.virtSize.getD 0).toNat, p.output.virtSize,
        ((p.output ++ s.content.slice 0 s.content.rawSize).align n.fileAlignment).virtSize -
          p.output.virtSize⟩]⟩ := by
  simp only [placeSection, Logged.bind_eq_ok, Logged.result_liftM, Logged.result_note,
    Logged.result_pure, Except.ok.injEq] at h
  obtain ⟨b₁, h₁, address, ha, exported, he, b₂, h₂, b₃, h₃, ⟨⟩, -, rfl⟩ := h
  exact ⟨address, b₁, exported, b₂, b₃, h₁, ha, he, h₂, h₃, rfl⟩

/-- **One section is placed behind the others.** -/
theorem placeSection_spec (hp : p.Sound) (hbase : p.cursor.base = n.base)
    (halignment : p.cursor.alignment = n.sectionAlignment) :
    p.Extends p' ∧ p'.Sound ∧ p'.cursor.base = n.base ∧
    p'.cursor.alignment = n.sectionAlignment ∧
    ∃ q address, p'.placed = p.placed ++ [q] ∧ q.rawAddress = p.output.virtSize ∧
      q.rawAddress + q.rawSize = p'.output.virtSize ∧ SectionAt n s p' q address := by
  obtain ⟨address, b₁, exported, b₂, b₃, h₁, ha, he, h₂, h₃, rfl⟩ := placeSection_eq_ok h
  obtain ⟨hext₁, hb₁, haddress⟩ := Binding.bindOption_spec h₁ hp.constant
  obtain ⟨hext₂, hb₂, hexports⟩ := Binding.merge_spec he h₂ hb₁
  obtain ⟨hext₃, hb₃, hlabel⟩ := Binding.bindOption_spec h₃ hb₂
  obtain ⟨hcursor, -, hfixed, hfloating⟩ := AddressCursor.place_of_eq_ok ha
  have hslice := fieldsInside_slice s.content
  have hsize : ((p.output ++ s.content.slice 0 s.content.rawSize).align n.fileAlignment).virtSize =
      max (p.output.virtSize + s.content.rawSize)
        (alignSize (p.output.virtSize + s.content.rawSize) n.fileAlignment) := by
    rw [align, virtSize_growTo, virtSize_append, virtSize_slice]
  refine ⟨⟨(grows_append _ _).trans (grows_align _ _), ?_, List.prefix_append _ _⟩,
    ⟨hb₃, (hp.inside.append hslice).align _⟩, (congrArg AddressCursor.base hcursor).trans hbase,
    (congrArg AddressCursor.alignment hcursor).trans halignment, _, address, rfl, rfl, ?_, ?_⟩
  · exact (hext₁.trans hext₂).trans hext₃
  · dsimp only
    omega
  refine
    { rva := rfl
      virtSize := rfl
      fixed := ?_
      floating := fun hnone => ⟨p.cursor.next, ?_⟩
      small := ?_
      rawAddress := fun l hl => (hext₂.trans hext₃) _ _ (haddress l hl)
      rawSizeLabel := hlabel
      exports := fun l k hm => hext₃ _ _ (hexports l k hm)
      rawSize := ?_
      rounded := ?_
      inside := ?_
      front := fun k f hk hf => ?_
      bytes := fun i hi => ?_
      fields := fun k hk => ?_
      holds := fun env o t order v hv => (hv.append_right hp.inside).align _ }
  · intro a hsome
    rw [hfixed a.toNat (by rw [hsome]; rfl), hbase]
  · rw [hfloating (by rw [hnone]; rfl), AddressCursor.aligned, halignment]
  · cases hsome : s.address with
    | none =>
      rw [hfloating (by rw [hsome]; rfl)]
      exact .inl (alignAddress_le _ _)
    | some a =>
      rw [hfixed a.toNat (by rw [hsome]; rfl), hbase]
      have := a.toNat_lt
      exact .inr (Nat.add_lt_add_left this _)
  · dsimp only
    omega
  · dsimp only
    omega
  · dsimp only
    omega
  · dsimp only at hk hf ⊢
    rw [fields_align, get?_fields_append_left hk] at hf
    exact hp.inside k f hf
  · exact getElem?_placed hi
  · exact get?_fields_placed hp.inside

end Step

/-! ## All sections -/

/-- The sections lie in the file one behind the other, from one place to the other. -/
def Tiles (start : Nat) : List PlacedSection → Nat → Prop
  | [], stop => start = stop
  | q :: rest, stop => q.rawAddress = start ∧ Tiles (start + q.rawSize) rest stop

/-- **All sections are placed, one behind the other.** -/
theorem placeSections_spec {n : LayoutNumbers} {l : List Section} {p p' : Placement}
    (h : (placeSections n l p).result = .ok p') (hp : p.Sound)
    (hbase : p.cursor.base = n.base) (halignment : p.cursor.alignment = n.sectionAlignment) :
    p.Extends p' ∧ p'.Sound ∧ p'.cursor.base = n.base ∧
    p'.cursor.alignment = n.sectionAlignment ∧
    ∃ new, p'.placed = p.placed ++ new ∧
      List.Forall₂ (fun s q => p.output.virtSize ≤ q.rawAddress ∧
        ∃ address, SectionAt n s p' q address) l new ∧
      new.Pairwise (fun q r => q.rawAddress + q.rawSize ≤ r.rawAddress) ∧
      Tiles p.output.virtSize new p'.output.virtSize := by
  induction l generalizing p with
  | nil =>
    cases h
    exact ⟨.refl _, hp, hbase, halignment, [], by rw [List.append_nil], .nil, .nil, rfl⟩
  | cons e rest ih =>
    simp only [placeSections, Logged.bind_eq_ok] at h
    obtain ⟨p₁, h₁, h₂⟩ := h
    obtain ⟨hext₁, hp₁, hbase₁, halignment₁, q, address, hplaced₁, hq, hend, hat⟩ :=
      placeSection_spec h₁ hp hbase halignment
    obtain ⟨hext₂, hp', hbase', halignment', new, hplaced₂, hnew, hpairwise, htiles⟩ :=
      ih h₂ hp₁ hbase₁ halignment₁
    refine ⟨hext₁.trans hext₂, hp', hbase', halignment', q :: new, ?_,
      .cons ⟨?_, address, hat.extends hext₂⟩ ?_,
      List.pairwise_cons.2 ⟨fun r hr => ?_, hpairwise⟩, hq, ?_⟩
    · rw [hplaced₂, hplaced₁, List.append_assoc, List.singleton_append]
    · rw [hq]
    · exact hnew.imp fun e q hq => ⟨Nat.le_trans hext₁.output.virtSize_le hq.1, hq.2⟩
    · -- what is placed later lies behind everything that was placed before
      obtain ⟨i, hi⟩ := List.mem_iff_getElem?.1 hr
      obtain ⟨e', -, hle, -⟩ := exists_left_of_forall₂ hnew hi
      exact Nat.le_trans hat.inside hle
    · rw [← hq, hend]
      exact htiles

end PortableImage
