import PortableImage.Proofs.Encode.Placement
import PortableImage.Proofs.Rounding

/-!
# Sections one behind the other in memory

Every section gets an address behind the sections before it.  This holds as long as rounding up stays
away from the largest address there is; from there on, all sections get the same address.

* `LayoutNumbers.Room` — the image ends before the last unit of the address space.
* `Placement.Ascending` — the sections lie in memory one behind the other.
* `ascending_placeSection`, `ascending_placeSections` — one section, all sections.
* `behind_placeSections` — the sections lie behind everything that was there before them.
-/

set_option autoImplicit false

namespace PortableImage

/-- An image of the given length that starts at the base ends before the last unit of the address
space. -/
def LayoutNumbers.Room (n : LayoutNumbers) (length : Nat) : Prop :=
  n.base + length + n.sectionAlignment ≤ UInt64.size

/-- A section lies behind the cursor. -/
theorem AddressCursor.le_place {c : AddressCursor} {name : String} {fixed : Option Nat}
    {size address : Nat} (hpower : isPowerOfTwo c.alignment = true)
    (hroom : c.next + c.alignment ≤ UInt64.size) (h : (c.place name fixed size).1 = .ok address) :
    c.next ≤ address ∧ (c.place name fixed size).2 = { c with next := address + size } := by
  have hpos := pos_of_isPowerOfTwo hpower
  have hle : c.next ≤ c.aligned := le_alignAddress (by omega)
  obtain ⟨hcursor, haddress, -⟩ := place_of_eq_ok h
  exact ⟨Nat.le_trans hle haddress, hcursor⟩

/-- The sections lie in memory one behind the other, and the next one goes behind all of them. -/
structure Placement.Ascending (p : Placement) (n : LayoutNumbers) : Prop where
  cursor : ∃ x, n.Room x ∧ p.cursor = ⟨n.base, n.base + x, n.sectionAlignment⟩ ∧
    ∀ r ∈ p.placed, r.rva + r.virtSize ≤ x
  apart : p.placed.Pairwise fun r s => r.rva + r.virtSize ≤ s.rva

/-- What is placed stays placed. -/
theorem placed_placeSections {n : LayoutNumbers} {l : List Section}
    {p p' : Placement} (h : (placeSections n l p).result = .ok p') : p.placed <+: p'.placed := by
  induction l generalizing p with
  | nil =>
    cases h
    exact List.prefix_rfl
  | cons e rest ih =>
    simp only [placeSections, Logged.bind_eq_ok] at h
    obtain ⟨p₁, h₁, h₂⟩ := h
    obtain ⟨_, _, _, _, _, _, _, _, _, _, rfl⟩ := placeSection_eq_ok h₁
    exact (List.prefix_append _ _).trans (ih h₂)

section Run

variable {n : LayoutNumbers} (hpower : isPowerOfTwo n.sectionAlignment = true)

include hpower

/-- **One section is placed behind the others.** -/
theorem ascending_placeSection {s : Section} {p p' : Placement}
    (hp : p.Ascending n) (h : (placeSection n s p).result = .ok p')
    (hroom : ∀ r ∈ p'.placed, n.Room (r.rva + r.virtSize)) : p'.Ascending n := by
  obtain ⟨x, hx, hcursor, hbelow⟩ := hp.cursor
  obtain ⟨address, b₁, exported, b₂, b₃, -, ha, -, -, -, rfl⟩ := placeSection_eq_ok h
  rw [hcursor] at ha hroom ⊢
  rw [LayoutNumbers.Room] at hx
  obtain ⟨hle, hnext⟩ := AddressCursor.le_place hpower hx ha
  rw [hnext]
  dsimp only at hle hroom ⊢
  refine ⟨⟨address - n.base + (s.virtSize.getD 0).toNat, ?_, ?_, fun r hr => ?_⟩,
    List.pairwise_append.2 ⟨hp.apart, List.pairwise_singleton _ _, fun r hr r' hr' => ?_⟩⟩
  · exact hroom _ (List.mem_append_right _ (List.mem_singleton.2 rfl))
  · rw [AddressCursor.mk.injEq]
    exact ⟨rfl, by omega, rfl⟩
  · rcases List.mem_append.1 hr with hr | hr
    · have hold := hbelow r hr
      omega
    · rw [List.mem_singleton.1 hr]
  · rw [List.mem_singleton.1 hr']
    have hold := hbelow r hr
    dsimp only
    omega

/-- **All sections are placed one behind the other.** -/
theorem ascending_placeSections {l : List Section} {p p' : Placement}
    (hp : p.Ascending n) (h : (placeSections n l p).result = .ok p')
    (hroom : ∀ r ∈ p'.placed, n.Room (r.rva + r.virtSize)) : p'.Ascending n := by
  induction l generalizing p with
  | nil =>
    cases h
    exact hp
  | cons e rest ih =>
    simp only [placeSections, Logged.bind_eq_ok] at h
    obtain ⟨p₁, h₁, h₂⟩ := h
    have hkept := placed_placeSections h₂
    exact ih (ascending_placeSection hpower hp h₁ fun r hr => hroom r (hkept.subset hr)) h₂

/-- **All sections are placed behind what is there before them.** -/
theorem behind_placeSections {l : List Section} {p p' : Placement} {x : Nat}
    (hp : p.Ascending n) (h : (placeSections n l p).result = .ok p')
    (hroom : ∀ r ∈ p'.placed, n.Room (r.rva + r.virtSize)) (hnext : n.base + x ≤ p.cursor.next)
    (hbehind : ∀ r ∈ p.placed, x ≤ r.rva) : ∀ r ∈ p'.placed, x ≤ r.rva := by
  induction l generalizing p with
  | nil =>
    cases h
    exact hbehind
  | cons e rest ih =>
    simp only [placeSections, Logged.bind_eq_ok] at h
    obtain ⟨p₁, h₁, h₂⟩ := h
    have hkept := placed_placeSections h₂
    have hp₁ := ascending_placeSection hpower hp h₁ fun r hr => hroom r (hkept.subset hr)
    obtain ⟨y, hy, hcursor, -⟩ := hp.cursor
    rw [hcursor] at hnext
    rw [LayoutNumbers.Room] at hy
    obtain ⟨address, _, _, _, _, -, ha, -, -, -, rfl⟩ := placeSection_eq_ok h₁
    rw [hcursor] at ha
    obtain ⟨hle, hplaced⟩ := AddressCursor.le_place hpower hy ha
    dsimp only at hle hnext
    refine ih hp₁ h₂ ?_ fun r hr => ?_
    · rw [hcursor, hplaced]
      dsimp only
      omega
    · rcases List.mem_append.1 hr with hr | hr
      · exact hbehind r hr
      · rw [List.mem_singleton.1 hr]
        dsimp only
        omega

end Run

end PortableImage
