import Mathlib.Algebra.Ring.Nat
import PortableImage.Proofs.AddressRuns

/-!
# Sizes and addresses are rounded alike

One routine rounds the sizes that the headers count and the places in the file, another one the
addresses.  Below `2 ^ 64` both give the least multiple of a power of two that is large enough.  So the
file is laid out as addresses are, and a total in the headers is what the sections take up when they get
their addresses one after the other.

## What is here

* `alignSize_eq_alignAddress` — the two routines agree.
* `AddressCursor.aligned_run` — what sections without fixed addresses take up, from `aligned_answer` for
  one of them.
* `AddressCursor.aligned_run_requestsFor` — it is the total in the headers.
* `rounding_laws` — all of this, and what is left of it with any alignment.
-/

set_option autoImplicit false

namespace PortableImage

/-- Where there is room for the sum, a size and an address are rounded to the same number. -/
theorem alignSize_eq_alignAddress {n boundary : Nat} (hpower : isPowerOfTwo boundary = true)
    (hroom : n + (boundary - 1) < UInt64.size) : alignSize n boundary = alignAddress n boundary :=
  (isLeast_alignSize hpower n).unique (isLeast_alignAddress hpower hroom)

theorem totalSize_eq_sum (sections : List Section) (flag : SectionFlags) (alignment : Nat) :
    totalSize sections flag alignment = ((sections.filter (·.flags.contains flag)).map fun s =>
      alignSize ((s.virtSize.map (·.toNat)).getD 0) alignment).sum := by
  rw [totalSize, List.sum_eq_foldl, List.foldl_map]

namespace AddressCursor

/-- What is asked for the sections with the flag, if none of them has a fixed address. -/
def requestsFor (sections : List Section) (flag : SectionFlags) : List Request :=
  (sections.filter (·.flags.contains flag)).map fun s =>
    ⟨s.name, none, (s.virtSize.map (·.toNat)).getD 0⟩

variable {c : AddressCursor}

theorem answer_of_floating (c : AddressCursor) {r : Request} (hr : r.fixed = none) :
    (c.answer r).2 = { c with next := c.aligned + r.size } := by
  rw [answer, hr]
  rfl

/-- One section takes up its size, rounded up as in the headers. -/
theorem aligned_answer {r : Request} {rest : List Request} (hpower : isPowerOfTwo c.alignment = true)
    (hr : r.fixed = none) (hfits : c.Fits (r :: rest)) :
    (c.answer r).2.aligned = c.aligned + alignSize r.size c.alignment := by
  have hpos := pos_of_isPowerOfTwo hpower
  have hroom : c.aligned + r.size + (c.alignment - 1) < UInt64.size := by
    have hstart := hfits.tail.start
    rwa [c.answer_of_floating hr] at hstart
  rw [c.answer_of_floating hr, alignSize_eq hpower]
  show alignAddress (c.aligned + r.size) c.alignment = c.aligned + roundUp r.size c.alignment
  exact alignAddress_add hpower (dvd_alignAddress hpower c.next) (by omega)

/-- **Sections without fixed addresses take up the sum of their sizes, each rounded up.** -/
theorem aligned_run {requests : List Request} (hpower : isPowerOfTwo c.alignment = true)
    (hfloating : ∀ r ∈ requests, r.fixed = none) (hfits : c.Fits requests) :
    (c.run requests).2.aligned =
      c.aligned + (requests.map fun r => alignSize r.size c.alignment).sum := by
  induction requests generalizing c with
  | nil => rfl
  | cons r rest ih =>
    obtain ⟨hr, hrest⟩ := List.forall_mem_cons.1 hfloating
    have halignment : (c.answer r).2.alignment = c.alignment := by
      rw [c.answer_of_floating hr]
    have hnext := ih (halignment ▸ hpower) hrest hfits.tail
    rw [run_cons, hnext, halignment, aligned_answer hpower hr hfits, List.map_cons, List.sum_cons,
      Nat.add_assoc]

/-- **A total in the headers counts what its sections take up.** -/
theorem aligned_run_requestsFor {sections : List Section} {flag : SectionFlags}
    (hpower : isPowerOfTwo c.alignment = true) (hfits : c.Fits (requestsFor sections flag)) :
    (c.run (requestsFor sections flag)).2.aligned =
      c.aligned + totalSize sections flag c.alignment := by
  have hfloating : ∀ r ∈ requestsFor sections flag, r.fixed = none := fun r hr => by
    obtain ⟨s, -, rfl⟩ := List.mem_map.1 hr
    rfl
  rw [aligned_run hpower hfloating hfits, totalSize_eq_sum, requestsFor, List.map_map]
  rfl

end AddressCursor

open AddressCursor

/-- **Rounding.**  Up to a power of two, and with room for the sum, sizes and addresses are rounded to the
least multiple that is large enough.  Buffers grow as addresses do, and a total in the headers is what a
cursor gives to its sections.  With any alignment, rounding an address twice is rounding it once, and
with room for the sum it does not go down. -/
theorem rounding_laws :
    (∀ boundary, isPowerOfTwo boundary = true →
      (∀ n, n + (boundary - 1) < UInt64.size →
        IsLeast {m | boundary ∣ m ∧ n ≤ m} (alignSize n boundary) ∧
          IsLeast {m | boundary ∣ m ∧ n ≤ m} (alignAddress n boundary)) ∧
      (∀ b : Buffer, b.virtSize + (boundary - 1) < UInt64.size →
        (b.align boundary).virtSize = alignAddress b.virtSize boundary) ∧
      (∀ (c : AddressCursor) sections flag, c.alignment = boundary →
        c.Fits (requestsFor sections flag) →
          (c.run (requestsFor sections flag)).2.aligned =
            c.aligned + totalSize sections flag boundary)) ∧
    (∀ n alignment, alignment < UInt64.size →
      alignAddress (alignAddress n alignment) alignment = alignAddress n alignment) ∧
    ∀ n alignment, n + (alignment - 1) < UInt64.size → n ≤ alignAddress n alignment := by
  refine ⟨fun boundary hpower => ⟨fun n hroom => ?_, fun b hroom => ?_, ?_⟩, fun n alignment h => ?_,
    fun n alignment hroom => le_alignAddress hroom⟩
  · exact ⟨isLeast_alignSize hpower n, isLeast_alignAddress hpower hroom⟩
  · rw [b.virtSize_align hpower, alignSize_eq_alignAddress hpower hroom]
  · rintro c sections flag rfl hfits
    exact aligned_run_requestsFor hpower hfits
  · exact alignAddress_alignAddress (Nat.le_of_lt h) n

/-- Code on two pages, data of one byte, and code on one page. -/
def codeAroundData : List Section :=
  [{ Section.new ".text" (.containsCode ||| .read) .empty with virtSize := some 0x1001 },
    { Section.new ".data" (.containsData ||| .read) .empty with virtSize := some 1 },
    { Section.new ".stub" (.containsCode ||| .read) .empty with virtSize := some 0x1000 }]

theorem rounding_laws_codeAroundData :
    IsLeast {m | 0x1000 ∣ m ∧ 0x1001 ≤ m} (alignSize 0x1001 0x1000) ∧
    IsLeast {m | 0x1000 ∣ m ∧ 0x1001 ≤ m} (alignAddress 0x1001 0x1000) ∧
    ((Buffer.ofBytes [0x90, 0xc3]).align 0x1000).virtSize = alignAddress 2 0x1000 ∧
    ((new 0x400000 0x400 0x1000).run (requestsFor codeAroundData .containsCode)).2.aligned =
      0x401000 + totalSize codeAroundData .containsCode 0x1000 ∧
    totalSize codeAroundData .containsCode 0x1000 = 0x3000 ∧
    alignAddress (alignAddress 0x1007 12) 12 = alignAddress 0x1007 12 ∧
    0x1007 ≤ alignAddress 0x1007 12 := by
  obtain ⟨hpowers, htwice, hle⟩ := rounding_laws
  obtain ⟨hleast, hbuffer, hcursor⟩ := hpowers 0x1000 rfl
  obtain ⟨hsize, haddress⟩ := hleast 0x1001 (by decide)
  have haligned : (new 0x400000 0x400 0x1000).aligned = 0x401000 := by decide +kernel
  have hrun := hcursor (new 0x400000 0x400 0x1000) codeAroundData .containsCode rfl
    (by decide +kernel)
  rw [haligned] at hrun
  exact ⟨hsize, haddress, hbuffer (.ofBytes [0x90, 0xc3]) (by decide), hrun, by decide +kernel,
    htwice 0x1007 12 (by decide), hle 0x1007 12 (by decide)⟩

end PortableImage
