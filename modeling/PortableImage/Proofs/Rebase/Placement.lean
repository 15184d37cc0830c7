import PortableImage.Proofs.Encode.Memory
import PortableImage.Proofs.Rebase.Headers

/-!
# Placing an image at two bases

Away from the largest address, a section lies as far from the start of the image at one base as at
the other.  The two placements run alongside each other: they have the same rows, and all labels but
those of addresses get the same values.

* `Placement.Alongside` — two placements with the same rows.
* `alongside_placeSections` — sections placed at both bases.
-/

set_option autoImplicit false

namespace PortableImage

/-- A cursor that is `x` behind the start of the image, with the next address that is placed. -/
theorem AddressCursor.place_add {base x alignment size address : Nat} {name : String}
    {fixed : Option Nat} (hpower : isPowerOfTwo alignment = true) (hbase : alignment ∣ base)
    (hroom : base + x + alignment ≤ UInt64.size)
    (h : ((⟨base, base + x, alignment⟩ : AddressCursor).place name fixed size).1 = .ok address) :
    address = base + fixed.getD (roundUp x alignment) ∧
      ((⟨base, base + x, alignment⟩ : AddressCursor).place name fixed size).2 =
        ⟨base, base + (fixed.getD (roundUp x alignment) + size), alignment⟩ := by
  have haligned : (⟨base, base + x, alignment⟩ : AddressCursor).aligned =
      base + roundUp x alignment := alignAddress_add hpower hbase hroom
  obtain ⟨hcursor, -, hfixed, hfloating⟩ := place_of_eq_ok h
  have haddress : address = base + fixed.getD (roundUp x alignment) := by
    cases fixed with
    | none => exact (hfloating rfl).trans haligned
    | some rva => exact hfixed rva rfl
  rw [hcursor, haddress, Nat.add_assoc]
  exact ⟨rfl, rfl⟩

/-- The same numbers at another base. -/
def LayoutNumbers.withBase (n : LayoutNumbers) (base : Nat) : LayoutNumbers := { n with base }

/-- The two placements, of which the second is at another base, have the same rows, and the labels that
do not stand for addresses have the same values. -/
structure Placement.Alongside (n : LayoutNumbers) (base : Nat) (address : String → Prop)
    (p q : Placement) : Prop where
  size : q.output.virtSize = p.output.virtSize
  placed : q.placed = p.placed
  cursor : ∃ x, n.Room x ∧ (n.withBase base).Room x ∧
    p.cursor = ⟨n.base, n.base + x, n.sectionAlignment⟩ ∧
    q.cursor = ⟨base, base + x, n.sectionAlignment⟩
  binding : ∀ l, ¬ address l → q.binding.get? l = p.binding.get? l

theorem Buffer.lookup_addresses_ofSize (s : Buffer) {address : String → Prop} {l : String}
    (hs : ∀ x ∈ s.exports, address x.1) (hl : ¬ address l) (n : Nat) :
    (s.addresses (.ofSize n)).lookup l = none := by
  rw [addresses_ofSize, ← Option.not_isSome_iff_eq_none, Binding.isSome_lookup, List.map_map]
  intro hmem
  obtain ⟨x, hx, rfl⟩ := List.mem_map.1 hmem
  exact hl (hs x hx)

section Values

variable {address : String → Prop} {b b' c c' : Binding}
  (hbc : ∀ l, ¬ address l → c.get? l = b.get? l)

include hbc

/-- A label gets the same value in both. -/
theorem Binding.get?_bind_alongside {name : String} {value : Expr} (hb : b.bind name value = .ok b')
    (hc : c.bind name value = .ok c') : ∀ l, ¬ address l → c'.get? l = b'.get? l := by
  intro l hl
  rw [get?_bind hb, get?_bind hc, hbc l hl]

theorem Binding.get?_bindOption_alongside {name : Option String} {value : Nat}
    (hb : b.bindOption name value = .ok b') (hc : c.bindOption name value = .ok c') :
    ∀ l, ¬ address l → c'.get? l = b'.get? l := by
  cases name with
  | none =>
    cases hb
    cases hc
    exact hbc
  | some name => exact get?_bind_alongside hbc hb hc

/-- Labels of addresses get any values. -/
theorem Binding.get?_merge_alongside {s : Buffer} {m n : Nat} {exported exported' : Binding}
    (hs : ∀ x ∈ s.exports, address x.1) (hm : s.binding (.ofSize m) = .ok exported)
    (hn : s.binding (.ofSize n) = .ok exported') (hb : b.merge exported = .ok b')
    (hc : c.merge exported' = .ok c') : ∀ l, ¬ address l → c'.get? l = b'.get? l := by
  intro l hl
  rw [get?_bindAll hb, get?_bindAll hc, Buffer.binding_eq_ok hm, Buffer.binding_eq_ok hn,
    s.lookup_addresses_ofSize hs hl, s.lookup_addresses_ofSize hs hl, hbc l hl]

end Values

section Run

variable {n : LayoutNumbers} {base : Nat} {address : String → Prop}
  (hpower : isPowerOfTwo n.sectionAlignment = true) (hn : n.sectionAlignment ∣ n.base)
  (hbase : n.sectionAlignment ∣ base)

include hpower hn hbase

/-- **One section is placed at both bases.** -/
theorem alongside_placeSection {s : Section} {p p' q q' : Placement}
    (hpq : p.Alongside n base address q) (h : (placeSection n s p).result = .ok p')
    (h' : (placeSection (n.withBase base) s q).result = .ok q')
    (hs : ∀ x ∈ s.content.exports, address x.1)
    (hroom : ∀ r ∈ p'.placed, n.Room (r.rva + r.virtSize))
    (hroom' : ∀ r ∈ q'.placed, (n.withBase base).Room (r.rva + r.virtSize)) :
    p'.Alongside n base address q' := by
  obtain ⟨x, hx, hx', hp, hq⟩ := hpq.cursor
  obtain ⟨place, b₁, exported, b₂, b₃, h₁, ha, he, h₂, h₃, rfl⟩ := placeSection_eq_ok h
  obtain ⟨place', b₁', exported', b₂', b₃', h₁', ha', he', h₂', h₃', rfl⟩ := placeSection_eq_ok h'
  rw [hp] at ha hroom ⊢
  rw [hq] at ha' hroom' ⊢
  obtain ⟨rfl, hcursor⟩ := AddressCursor.place_add hpower hn hx ha
  obtain ⟨rfl, hcursor'⟩ := AddressCursor.place_add hpower hbase hx' ha'
  rw [hcursor]
  rw [hcursor']
  generalize (s.address.map (·.toNat)).getD (roundUp x n.sectionAlignment) = y at *
  have hsize : ((q.output ++ s.content.slice 0 s.content.rawSize).align n.fileAlignment).virtSize =
      ((p.output ++ s.content.slice 0 s.content.rawSize).align n.fileAlignment).virtSize := by
    simp only [Buffer.align, Buffer.virtSize_growTo, Buffer.virtSize_append, hpq.size]
  have hrva : n.base + y - n.base = y := Nat.add_sub_cancel_left _ _
  have hrva' : base + y - (n.withBase base).base = y := Nat.add_sub_cancel_left _ _
  have hvalues := Binding.get?_bindOption_alongside hpq.binding h₁ (hpq.size ▸ h₁')
  have hvalues' := Binding.get?_merge_alongside hvalues hs he he' h₂ h₂'
  refine ⟨hsize, ?_, ⟨y + (s.virtSize.getD 0).toNat, ?_, ?_, rfl, rfl⟩, ?_⟩
  · rw [hpq.placed, hrva, hrva', hpq.size]
    exact congrArg (fun size => p.placed ++ [(⟨y, _, _, size - _⟩ : PlacedSection)]) hsize
  · have hr := hroom _ (List.mem_append_right _ (List.mem_singleton.2 rfl))
    rw [hrva] at hr
    exact hr
  · have hr := hroom' _ (List.mem_append_right _ (List.mem_singleton.2 rfl))
    rw [hrva'] at hr
    exact hr
  · refine Binding.get?_bindOption_alongside hvalues' h₃ ?_
    rw [← hsize, ← hpq.size]
    exact h₃'

/-- **The sections are placed at both bases.** -/
theorem alongside_placeSections {l : List Section} {p p' q q' : Placement}
    (hpq : p.Alongside n base address q) (h : (placeSections n l p).result = .ok p')
    (h' : (placeSections (n.withBase base) l q).result = .ok q')
    (hl : ∀ s ∈ l, ∀ x ∈ s.content.exports, address x.1)
    (hroom : ∀ r ∈ p'.placed, n.Room (r.rva + r.virtSize))
    (hroom' : ∀ r ∈ q'.placed, (n.withBase base).Room (r.rva + r.virtSize)) :
    p'.Alongside n base address q' := by
  induction l generalizing p q with
  | nil =>
    cases h
    cases h'
    exact hpq
  | cons s rest ih =>
    simp only [placeSections, Logged.bind_eq_ok] at h h'
    obtain ⟨p₁, h₁, h₂⟩ := h
    obtain ⟨q₁, h₁', h₂'⟩ := h'
    have hkept := placed_placeSections h₂
    have hkept' := placed_placeSections h₂'
    exact ih (alongside_placeSection hpower hn hbase hpq h₁ h₁' (hl s List.mem_cons_self)
      (fun r hr => hroom r (hkept.subset hr)) fun r hr => hroom' r (hkept'.subset hr)) h₂ h₂'
      fun s hs => hl s (List.mem_cons_of_mem _ hs)

end Run

/-- **The whole image is placed at both bases.**  No tables are written over its sections. -/
theorem alongside_place {h h' : HeadedImage} {p p' : Placement} {given : Option UInt64}
    {address : String → Prop} (hp : (place h []).result = .ok p)
    (hp' : (place h' []).result = .ok p') (himage : h'.image = h.image.withBase given)
    (hpending : h'.pending = h.pending)
    (hsize : h'.headers.virtSize = h.headers.virtSize)
    (hpower : isPowerOfTwo h.numbers.sectionAlignment = true)
    (hbase : h.numbers.sectionAlignment ∣ h.numbers.base)
    (hbase' : h.numbers.sectionAlignment ∣ h'.numbers.base)
    (hstart : ∀ x ∈ h.headers.exports, address x.1)
    (hstart' : ∀ x ∈ h'.headers.exports, address x.1)
    (haddress : ∀ s ∈ h.image.sections, ∀ x ∈ s.content.exports, address x.1)
    (hheaders : h.numbers.Room h.headersSize) (hheaders' : h'.numbers.Room h.headersSize)
    (hroom : ∀ r ∈ p.placed, h.numbers.Room (r.rva + r.virtSize))
    (hroom' : ∀ r ∈ p'.placed, h'.numbers.Room (r.rva + r.virtSize)) :
    p.Alongside h.numbers h'.numbers.base address p' := by
  have hnumbers : h'.numbers = h.numbers.withBase h'.numbers.base := by
    rw [HeadedImage.numbers, himage]
    rfl
  have hsections : h'.image.sections = h.image.sections := by
    rw [himage]
    rfl
  have halignment : h'.numbers.sectionAlignment = h.numbers.sectionAlignment := by
    rw [hnumbers]
    rfl
  have hfile : (h'.headers.align h'.numbers.fileAlignment).virtSize =
      (h.headers.align h.numbers.fileAlignment).virtSize := by
    rw [hnumbers]
    simp only [Buffer.align, Buffer.virtSize_growTo, hsize]
    rfl
  simp only [place, Logged.bind_eq_ok, Logged.result_liftM] at hp hp'
  rw [hsections, hpending] at hp'
  obtain ⟨b₀, h₀, b₁, h₁, q, hq, b₂, h₂, hdone⟩ := hp
  obtain ⟨b₀', h₀', b₁', h₁', q', hq', b₂', h₂', hdone'⟩ := hp'
  cases hdone
  cases hdone'
  -- the headers export nothing but the start of the image
  have hvalues : ∀ l, ¬ address l → b₀'.get? l = b₀.get? l := fun l hl => by
    rw [Binding.get?, Binding.get?, Buffer.binding_eq_ok h₀, Buffer.binding_eq_ok h₀']
    rw [(h.headers.align _).lookup_addresses_ofSize hstart hl,
      (h'.headers.align _).lookup_addresses_ofSize hstart' hl]
  have hbefore : Placement.Alongside h.numbers h'.numbers.base address
      ⟨h.headers.align h.numbers.fileAlignment, b₁,
        .new h.numbers.base h.headersSize h.numbers.sectionAlignment, []⟩
      ⟨h'.headers.align h'.numbers.fileAlignment, b₁',
        .new h'.numbers.base h.headersSize h.numbers.sectionAlignment, []⟩ := by
    refine ⟨hfile, rfl, ⟨_, hheaders, ?_, rfl, rfl⟩,
      Binding.get?_bind_alongside hvalues h₁ (hfile ▸ h₁')⟩
    rw [← hnumbers]
    exact hheaders'
  have hrun : q.Alongside h.numbers h'.numbers.base address q' := by
    refine alongside_placeSections hpower hbase hbase' hbefore hq ?_
      haddress hroom ?_
    · rw [← hnumbers, HeadedImage.headersSize, ← hfile, ← halignment]
      exact hq'
    · rw [← hnumbers]
      exact hroom'
  obtain ⟨x, hx, hx', hcursor, hcursor'⟩ := hrun.cursor
  have hlength : q'.cursor.imageSize = q.cursor.imageSize := by
    rw [hcursor, hcursor', AddressCursor.imageSize, AddressCursor.imageSize,
      AddressCursor.aligned, AddressCursor.aligned, alignAddress_add hpower hbase hx,
      alignAddress_add hpower hbase' hx', Nat.add_sub_cancel_left, Nat.add_sub_cancel_left]
  rw [hlength] at h₂'
  exact ⟨hrun.size, hrun.placed, hrun.cursor,
    Binding.get?_bind_alongside hrun.binding h₂ h₂'⟩

end PortableImage
