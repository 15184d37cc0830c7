import Mathlib.Algebra.Group.Nat.Defs
import Mathlib.Data.Nat.Basic
import Mathlib.Order.Bounds.Basic
import PortableImage.Header

/-!
# Rounding up

The alignments of an image are powers of two, so clearing the low bits is rounding down to a
multiple.  With any other alignment nothing becomes a multiple, but rounding up still does not go down,
and doing it twice is doing it once.

* `clearBits_eq` — clearing bits as a remainder taken away.
* `roundUp` — the least multiple that is large enough; `alignSize_eq` says that sizes become it, and
  `Buffer.virtSize_align` that buffers grow to it.
* `alignAddress_add` — an address rounds up as far as its distance from the start of the image does.
* `le_alignAddress`, `alignAddress_alignAddress` — what rounding does with any alignment.
-/

set_option autoImplicit false

namespace PortableImage

theorem isPowerOfTwo_iff {n : Nat} : isPowerOfTwo n = true ↔ ∃ k, n = 2 ^ k := by
  rw [isPowerOfTwo, Bool.and_eq_true, bne_iff_ne, beq_iff_eq]
  exact Nat.ne_zero_and_sub_one_eq_zero_iff_isPowerOfTwo

theorem pos_of_isPowerOfTwo {n : Nat} (h : isPowerOfTwo n = true) : 0 < n := by
  obtain ⟨k, rfl⟩ := isPowerOfTwo_iff.1 h
  exact Nat.two_pow_pos k

/-- Clearing the bits below a power of two takes the remainder away. -/
theorem clearBits_eq {alignment : Nat} (h : isPowerOfTwo alignment = true) (n : Nat) :
    clearBits n (alignment - 1) = n - n % alignment := by
  obtain ⟨k, rfl⟩ := isPowerOfTwo_iff.1 h
  rw [clearBits, Nat.and_two_pow_sub_one_eq_mod]

/-- The distance `n` rounded up to the alignment. -/
def roundUp (n alignment : Nat) : Nat :=
  n + (alignment - 1) - (n + (alignment - 1)) % alignment

theorem le_roundUp {n alignment : Nat} (h : 0 < alignment) : n ≤ roundUp n alignment := by
  have hlt := Nat.mod_lt (n + (alignment - 1)) h
  rw [roundUp]
  omega

theorem dvd_roundUp (n alignment : Nat) : alignment ∣ roundUp n alignment :=
  Nat.dvd_sub_mod _

/-- There is no smaller multiple that is large enough. -/
theorem roundUp_le {n m alignment : Nat} (hpos : 0 < alignment) (hdvd : alignment ∣ m)
    (hle : n ≤ m) : roundUp n alignment ≤ m := by
  -- otherwise the two multiples differ by one alignment at least
  by_contra hlt
  have hstep : alignment ≤ roundUp n alignment - m :=
    Nat.le_of_dvd (by omega) (Nat.dvd_sub (dvd_roundUp n alignment) hdvd)
  have hless : roundUp n alignment ≤ n + (alignment - 1) := Nat.sub_le _ _
  omega

/-- A size is rounded up to the least multiple of a power of two. -/
theorem alignSize_eq {boundary : Nat} (h : isPowerOfTwo boundary = true) (n : Nat) :
    alignSize n boundary = roundUp n boundary := by
  have hpos := pos_of_isPowerOfTwo h
  rw [alignSize]
  split
  · next hle =>
    obtain rfl : boundary = 1 := by omega
    rw [roundUp, Nat.mod_one]
    rfl
  · rw [clearBits_eq h, roundUp]

/-- The same, said without a formula. -/
theorem isLeast_alignSize {boundary : Nat} (hpower : isPowerOfTwo boundary = true) (n : Nat) :
    IsLeast {m | boundary ∣ m ∧ n ≤ m} (alignSize n boundary) := by
  have hpos := pos_of_isPowerOfTwo hpower
  rw [alignSize_eq hpower]
  exact ⟨⟨dvd_roundUp n boundary, le_roundUp hpos⟩, fun m hm => roundUp_le hpos hm.1 hm.2⟩

theorem Buffer.virtSize_align (b : Buffer) {boundary : Nat} (hpower : isPowerOfTwo boundary = true) :
    (b.align boundary).virtSize = alignSize b.virtSize boundary := by
  rw [align, virtSize_growTo, Nat.max_eq_right (isLeast_alignSize hpower b.virtSize).1.2]

/-- A size grows by no more than the boundary. -/
theorem alignSize_le (n boundary : Nat) : alignSize n boundary ≤ n + boundary := by
  rw [alignSize]
  split
  · exact Nat.le_add_right _ _
  · have hle : clearBits (n + (boundary - 1)) (boundary - 1) ≤ n + (boundary - 1) := Nat.sub_le _ _
    omega

/-- Wherever it comes from, an address is rounded to a multiple. -/
theorem dvd_alignAddress {alignment : Nat} (hpower : isPowerOfTwo alignment = true) (n : Nat) :
    alignment ∣ alignAddress n alignment := by
  rw [alignAddress, clearBits_eq hpower]
  exact Nat.dvd_sub_mod _

/-- **Below the largest address, an address rounds up as far as its distance from the start of the
image**, which lies at a multiple of the alignment. -/
theorem alignAddress_add {base n alignment : Nat} (hpower : isPowerOfTwo alignment = true)
    (hbase : alignment ∣ base) (hroom : base + n + alignment ≤ UInt64.size) :
    alignAddress (base + n) alignment = base + roundUp n alignment := by
  have hpos := pos_of_isPowerOfTwo hpower
  have hmin : min (base + n + (alignment - 1)) maxAddress = base + (n + (alignment - 1)) := by
    rw [maxAddress]
    omega
  have hmod : (base + (n + (alignment - 1))) % alignment = (n + (alignment - 1)) % alignment := by
    obtain ⟨m, rfl⟩ := hbase
    exact Nat.mul_add_mod _ _ _
  have hle := Nat.mod_le (n + (alignment - 1)) alignment
  rw [alignAddress, clearBits_eq hpower, hmin, hmod, roundUp]
  omega

/-! ## Any alignment -/

/-- Numbers without a common bit add up to the number that has the bits of both. -/
theorem or_eq_add {a b : Nat} (h : a &&& b = 0) : a ||| b = a + b := by
  induction a using Nat.strongRecOn generalizing b with
  | _ a ih =>
    rcases Nat.eq_zero_or_pos a with rfl | hpos
    · rw [Nat.zero_or, Nat.zero_add]
    -- the halves have no common bit, and of the two last bits one is zero
    have hdiv : (a ||| b) / 2 = a / 2 ||| b / 2 := Nat.or_div_two_pow (n := 1)
    have hmod : (a ||| b) % 2 = a % 2 ||| b % 2 := Nat.or_mod_two_pow (n := 1)
    have hdiv0 : (a &&& b) / 2 = a / 2 &&& b / 2 := Nat.and_div_two_pow (n := 1)
    have hmod0 : (a &&& b) % 2 = a % 2 &&& b % 2 := Nat.and_mod_two_pow (n := 1)
    rw [h] at hdiv0 hmod0
    have hrest := ih (a / 2) (by omega) hdiv0.symm
    have hlast : a % 2 ||| b % 2 = a % 2 + b % 2 := by
      rcases Nat.mod_two_eq_zero_or_one a with ha | ha
      · rw [ha, Nat.zero_or, Nat.zero_add]
      · rcases Nat.mod_two_eq_zero_or_one b with hb | hb
        · rw [hb, Nat.or_zero, Nat.add_zero]
        · rw [ha, hb] at hmod0
          exact absurd hmod0 (by decide)
    omega

/-- What is left has none of the bits that were cleared. -/
theorem clearBits_and (n mask : Nat) : clearBits n mask &&& mask = 0 := by
  let r := Nat.bitwise (fun x y => x && !y) n mask
  have hbit : ∀ i, r.testBit i = (n.testBit i && !mask.testBit i) := fun i =>
    Nat.testBit_bitwise rfl n mask i
  have hclear : r &&& mask = 0 := Nat.eq_of_testBit_eq fun i => by
    rw [Nat.testBit_and, hbit, Nat.zero_testBit]
    cases n.testBit i <;> cases mask.testBit i <;> rfl
  have hor : r ||| (n &&& mask) = n := Nat.eq_of_testBit_eq fun i => by
    rw [Nat.testBit_or, Nat.testBit_and, hbit]
    cases n.testBit i <;> cases mask.testBit i <;> rfl
  have hand : r &&& (n &&& mask) = 0 := by
    rw [Nat.and_comm n, ← Nat.and_assoc, hclear, Nat.zero_and]
  have hr : clearBits n mask = r := by
    have hsum := or_eq_add hand
    rw [hor] at hsum
    rw [clearBits]
    omega
  rw [hr, hclear]

/-- Where none of the bits is set, adding them all and clearing them again changes nothing. -/
theorem clearBits_add {n mask : Nat} (h : n &&& mask = 0) : clearBits (n + mask) mask = n := by
  have hmask : (n ||| mask) &&& mask = mask := Nat.eq_of_testBit_eq fun i => by
    rw [Nat.testBit_and, Nat.testBit_or]
    cases n.testBit i <;> cases mask.testBit i <;> rfl
  rw [clearBits, ← or_eq_add h, hmask, or_eq_add h, Nat.add_sub_cancel]

/-- Where there is room for the sum, an address is not rounded down. -/
theorem le_alignAddress {n alignment : Nat} (hroom : n + (alignment - 1) < UInt64.size) :
    n ≤ alignAddress n alignment := by
  have hle : (n + (alignment - 1)) &&& (alignment - 1) ≤ alignment - 1 := Nat.and_le_right
  have hmin : n + (alignment - 1) ≤ maxAddress := Nat.le_sub_one_of_lt hroom
  rw [alignAddress, Nat.min_eq_left hmin, clearBits]
  omega

/-- **Rounding up twice is rounding up once.** -/
theorem alignAddress_alignAddress {alignment : Nat} (hsmall : alignment ≤ UInt64.size) (n : Nat) :
    alignAddress (alignAddress n alignment) alignment = alignAddress n alignment := by
  have hclear : alignAddress n alignment &&& (alignment - 1) = 0 := clearBits_and _ _
  have hle : alignAddress n alignment ≤ maxAddress :=
    Nat.le_trans (Nat.sub_le _ _) (Nat.min_le_right _ _)
  -- the sum sets bits that are clear, so it is no larger than the largest address
  have hroom : alignAddress n alignment + (alignment - 1) < 2 ^ 64 := by
    have hmask : alignment - 1 < 2 ^ 64 := by
      rw [UInt64.size] at hsmall
      omega
    rw [← or_eq_add hclear]
    exact Nat.or_lt_two_pow (Nat.lt_of_le_of_lt hle (by decide)) hmask
  have hmin : alignAddress n alignment + (alignment - 1) ≤ maxAddress := Nat.le_sub_one_of_lt hroom
  rw [alignAddress.eq_1 (alignAddress n alignment), Nat.min_eq_left hmin, clearBits_add hclear]

/-- Where there is room for the sum, an address goes to the least multiple of a power of two that does
not lie in front of it. -/
theorem isLeast_alignAddress {n alignment : Nat} (hpower : isPowerOfTwo alignment = true)
    (hroom : n + (alignment - 1) < UInt64.size) :
    IsLeast {m | alignment ∣ m ∧ n ≤ m} (alignAddress n alignment) := by
  have hpos := pos_of_isPowerOfTwo hpower
  have hround : alignAddress n alignment = roundUp n alignment := by
    rw [← Nat.zero_add n, alignAddress_add hpower (Nat.dvd_zero _) (by omega), Nat.zero_add,
      Nat.zero_add]
  refine ⟨⟨dvd_alignAddress hpower n, le_alignAddress hroom⟩, fun m hm => ?_⟩
  rw [hround]
  exact roundUp_le hpos hm.1 hm.2

end PortableImage
