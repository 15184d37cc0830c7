import Mathlib.Tactic.NormNum
import PortableImage.Field.Value

/-!
# Values of fields are read back

What is written into a field is what is read out of it: a value that a field holds is the value of
the bytes it is written as.

* `ofLittleEndian_littleEndian` — the low bytes of a number give the number modulo their span.
* `littleEndian_ofLittleEndian` — bytes are the low bytes of their number; so they depend on the number
  modulo their span alone (`littleEndian_congr`).
* `FieldType.decodeValue_encodeValue` — reading a field back.
* `FieldType.toNat_encodeValue` — the same for unsigned fields, as plain numbers.
-/

set_option autoImplicit false

namespace PortableImage

theorem littleEndian_zero (width : Nat) : littleEndian width 0 = List.replicate width 0 := by
  induction width with
  | zero => rfl
  | succ width ih =>
    rw [littleEndian, ih, List.replicate_succ]
    rfl

theorem ofLittleEndian_littleEndian (width n : Nat) :
    ofLittleEndian (littleEndian width n) = n % 256 ^ width := by
  induction width generalizing n with
  | zero => rw [littleEndian, ofLittleEndian, pow_zero, Nat.mod_one]
  | succ width ih =>
    rw [littleEndian, ofLittleEndian, ih, UInt8.toNat_ofNat', pow_succ' 256, Nat.mod_mul]

theorem ofLittleEndian_lt (bytes : List UInt8) : ofLittleEndian bytes < 256 ^ bytes.length := by
  induction bytes with
  | nil => exact Nat.one_pos
  | cons b rest ih =>
    have hb := b.toNat_lt
    rw [ofLittleEndian, List.length_cons, pow_succ']
    omega

theorem littleEndian_ofLittleEndian (bytes : List UInt8) :
    littleEndian bytes.length (ofLittleEndian bytes) = bytes := by
  induction bytes with
  | nil => rfl
  | cons b rest ih =>
    have hb := b.toNat_lt
    have hfirst : UInt8.ofNat (b.toNat + 256 * ofLittleEndian rest) = b := by
      refine UInt8.toNat_inj.1 ?_
      rw [UInt8.toNat_ofNat', Nat.add_mul_mod_self_left, Nat.mod_eq_of_lt hb]
    have hrest : (b.toNat + 256 * ofLittleEndian rest) / 256 = ofLittleEndian rest := by omega
    rw [List.length_cons, ofLittleEndian, littleEndian, hfirst, hrest, ih]

/-- The low bytes of a number are those of its remainder. -/
theorem littleEndian_mod (width n : Nat) :
    littleEndian width (n % 256 ^ width) = littleEndian width n := by
  have hbytes := littleEndian_ofLittleEndian (littleEndian width n)
  rwa [length_littleEndian, ofLittleEndian_littleEndian] at hbytes

theorem littleEndian_congr {width n m : Nat} (h : n % 256 ^ width = m % 256 ^ width) :
    littleEndian width n = littleEndian width m := by
  rw [← littleEndian_mod, h, littleEndian_mod]

theorem ByteOrder.toNat_arrange (o : ByteOrder) (bytes : List UInt8) :
    o.toNat (o.arrange bytes) = ofLittleEndian bytes := by
  rw [toNat, arrange_arrange]

theorem LinkValue.toNat_ofSize {n : Nat} (h : n < 2 ^ 128) : (LinkValue.ofSize n).toNat = n := by
  rw [ofSize, BitVec.toNat_ofNat, Nat.mod_eq_of_lt h]

/-- Sizes that are the same value are the same up to what a value can hold. -/
theorem LinkValue.mod_eq_of_ofSize {m n : Nat} (h : LinkValue.ofSize m = LinkValue.ofSize n) :
    m % 2 ^ 128 = n % 2 ^ 128 := by
  have hvalues := congrArg BitVec.toNat h
  rwa [ofSize, ofSize, BitVec.toNat_ofNat, BitVec.toNat_ofNat] at hvalues

namespace FieldType

theorem span_eq (t : FieldType) : t.span = 2 ^ t.bits := by cases t <;> rfl

theorem bits_le (t : FieldType) : t.bits ≤ 64 := by cases t <;> decide

theorem bits_pos (t : FieldType) : 0 < t.bits := by cases t <;> decide

theorem pow_width (t : FieldType) : 256 ^ t.width = 2 ^ t.bits := by
  rw [bits, pow_mul, show 2 ^ 8 = 256 from rfl]

/-- Writing succeeds exactly for the values that fit, and then gives their bytes. -/
theorem encodeValue_eq_ok {t : FieldType} {v : LinkValue} {o : ByteOrder} {bytes : List UInt8} :
    t.encodeValue v o = .ok bytes ↔
      t.Fits v ∧ bytes = o.arrange (littleEndian t.width v.toNat) := by
  rw [encodeValue]
  split
  · next h => simp [h, eq_comm]
  · next h => simp [h]

/-- Writing fails exactly for the values that do not fit, and the error carries the value. -/
theorem encodeValue_eq_error {t : FieldType} {v : LinkValue} {o : ByteOrder} {e : EncodeError} :
    t.encodeValue v o = .error e ↔ ¬ t.Fits v ∧ e = .encodingOverflow v (.field t) := by
  rw [encodeValue]
  split
  · next h => simp [h]
  · next h => simp [h, eq_comm]

theorem length_encodeValue {t : FieldType} {v : LinkValue} {o : ByteOrder} {bytes : List UInt8}
    (h : t.encodeValue v o = .ok bytes) : bytes.length = t.width := by
  rw [(encodeValue_eq_ok.1 h).2, ByteOrder.length_arrange, length_littleEndian]

theorem toNat_lt_of_fits {t : FieldType} {v : LinkValue} (hs : t.signed = false) (h : t.Fits v) :
    v.toNat < 2 ^ t.bits := by
  obtain ⟨hmin, hmax⟩ := h
  rw [min, if_neg (by simp [hs])] at hmin
  rw [max, if_neg (by simp [hs]), span_eq] at hmax
  have hv : v.toInt = v.toNat := BitVec.toInt_eq_toNat_of_msb (BitVec.msb_eq_false_iff_two_mul_lt.2
    (by rw [BitVec.toInt_eq_toNat_cond] at hmin; split at hmin <;> omega))
  omega

/-- An unsigned field is read back as the number that was written. -/
theorem toNat_encodeValue {t : FieldType} {v : LinkValue} {o : ByteOrder} {bytes : List UInt8}
    (hs : t.signed = false) (h : t.encodeValue v o = .ok bytes) : o.toNat bytes = v.toNat := by
  obtain ⟨hfits, rfl⟩ := encodeValue_eq_ok.1 h
  rw [ByteOrder.toNat_arrange, ofLittleEndian_littleEndian, pow_width,
    Nat.mod_eq_of_lt (toNat_lt_of_fits hs hfits)]

/-- **What is written into a field is read out of it.** -/
theorem decodeValue_encodeValue {t : FieldType} {v : LinkValue} {o : ByteOrder}
    {bytes : List UInt8} (h : t.encodeValue v o = .ok bytes) : t.decodeValue o bytes = v := by
  obtain ⟨hfits, rfl⟩ := encodeValue_eq_ok.1 h
  have hbits := t.bits_le
  rw [decodeValue, ByteOrder.toNat_arrange, ofLittleEndian_littleEndian, pow_width]
  split
  · next hs =>
    obtain ⟨hmin, hmax⟩ := hfits
    rw [min, if_pos hs, span_eq] at hmin
    rw [max, if_pos hs, span_eq] at hmax
    have hpow : 2 * (2 ^ t.bits / 2) = 2 ^ t.bits :=
      Nat.mul_div_cancel' (dvd_pow_self 2 t.bits_pos.ne')
    apply BitVec.eq_of_toInt_eq
    rw [BitVec.toInt_signExtend_of_le (by omega), BitVec.toInt_eq_toNat_bmod, BitVec.toNat_ofNat,
      Nat.mod_mod]
    have hv : ((v.toNat % 2 ^ t.bits : Nat) : Int).bmod (2 ^ t.bits)
        = v.toInt.bmod (2 ^ t.bits) := by
      rw [Int.natCast_mod, Int.emod_bmod, BitVec.toInt_eq_toNat_bmod, Int.bmod_bmod_of_dvd]
      exact pow_dvd_pow 2 (by omega)
    rw [hv]
    exact Int.bmod_eq_of_le (by omega) (by omega)
  · next hs =>
    apply BitVec.eq_of_toNat_eq
    have hlt := toNat_lt_of_fits (by simpa using hs) hfits
    rw [BitVec.toNat_setWidth, BitVec.toNat_ofNat, Nat.mod_eq_of_lt hlt, Nat.mod_eq_of_lt hlt,
      Nat.mod_eq_of_lt v.isLt]

end FieldType

end PortableImage
