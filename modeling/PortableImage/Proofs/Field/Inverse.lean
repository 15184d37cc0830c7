import Mathlib.Data.Set.Defs
import PortableImage.Proofs.Field.Value

/-!
# Fields hold numbers exactly

A field of `n` bits holds the numbers from `0` up to `2 ^ n`, or in two's complement those from
`-2 ^ (n - 1)` up to `2 ^ (n - 1)`, without the upper end.  Writing and reading are inverse to each other
between these numbers and the bytes of that width.

* `FieldType.values` — the numbers of a type, by its bits; `fits_iff` says that they are those that are
  written.
* `FieldType.toInt_decodeValue` — the number that is read.
* `FieldType.encodeValue_decodeValue` — what is read is written as the bytes that it was read from.
* `FieldType.encodeValue_laws` — **every value has its own bytes, and all bytes have a value**.
-/

set_option autoImplicit false

namespace PortableImage.FieldType

/-- The numbers that a field of this type is for. -/
def values (t : FieldType) : Set Int :=
  if t.signed then {n | -2 ^ (t.bits - 1) ≤ n ∧ n < 2 ^ (t.bits - 1)}
  else {n | 0 ≤ n ∧ n < 2 ^ t.bits}

variable {t : FieldType} {v : LinkValue} {o : ByteOrder} {bytes : List UInt8}

theorem fits_iff : t.Fits v ↔ v.toInt ∈ t.values := by
  have hspan : (t.span : Int) = 2 ^ t.bits := by rw [span_eq, Nat.cast_pow, Nat.cast_ofNat]
  have hhalf : ((t.span / 2 : Nat) : Int) = 2 ^ (t.bits - 1) := by
    have hpow := Nat.two_pow_pred_add_two_pow_pred t.bits_pos
    rw [span_eq, show 2 ^ t.bits / 2 = 2 ^ (t.bits - 1) by omega, Nat.cast_pow, Nat.cast_ofNat]
  rw [Fits, min, max, values]
  split
  · rw [hhalf, Int.le_sub_one_iff, Set.mem_ofPred_eq]
  · rw [hspan, Int.le_sub_one_iff, Set.mem_ofPred_eq]

/-! ## Reading -/

theorem toNat_lt_of_length (h : bytes.length = t.width) : o.toNat bytes < 2 ^ t.bits := by
  have hlt := ofLittleEndian_lt (o.arrange bytes)
  rwa [ByteOrder.length_arrange, h, pow_width] at hlt

/-- What is read is the number of the bytes; in two's complement, that number less `2 ^ n` if its top
bit is set. -/
theorem toInt_decodeValue (h : bytes.length = t.width) :
    (t.decodeValue o bytes).toInt =
      if t.signed then Int.bmod (o.toNat bytes) (2 ^ t.bits) else (o.toNat bytes : Int) := by
  have hbits := t.bits_le
  have hlt := toNat_lt_of_length (o := o) h
  rw [decodeValue]
  split
  · rw [BitVec.toInt_signExtend_of_le (by omega), BitVec.toInt_eq_toNat_bmod, BitVec.toNat_ofNat,
      Nat.mod_eq_of_lt hlt]
  · -- with 128 bits, the number is far from the sign
    have hpow : 2 ^ t.bits ≤ 2 ^ 64 := Nat.pow_le_pow_right (by decide) hbits
    rw [BitVec.toInt_setWidth, BitVec.toNat_ofNat, Nat.mod_eq_of_lt hlt]
    exact Int.bmod_eq_of_le (by omega) (by omega)

/-- What is read can be written. -/
theorem fits_decodeValue (h : bytes.length = t.width) : t.Fits (t.decodeValue o bytes) := by
  have hlt := toNat_lt_of_length (o := o) h
  rw [fits_iff, toInt_decodeValue h, values]
  split
  · have hpos := Nat.two_pow_pos t.bits
    have hlow := Int.le_bmod (x := (o.toNat bytes : Int)) hpos
    have hhigh := Int.bmod_lt (x := (o.toNat bytes : Int)) hpos
    have hpow : (2 : Int) ^ (t.bits - 1) + 2 ^ (t.bits - 1) = 2 ^ t.bits := by
      exact_mod_cast Nat.two_pow_pred_add_two_pow_pred t.bits_pos
    rw [Nat.cast_pow, Nat.cast_ofNat] at hlow hhigh
    exact ⟨by omega, by omega⟩
  · exact ⟨Int.natCast_nonneg _, by exact_mod_cast hlt⟩

/-- Extending the sign changes none of the bits of the field. -/
theorem toNat_decodeValue_mod (t : FieldType) (o : ByteOrder) (bytes : List UInt8) :
    (t.decodeValue o bytes).toNat % 2 ^ t.bits = o.toNat bytes % 2 ^ t.bits := by
  have hdvd : 2 ^ t.bits ∣ 2 ^ 128 := pow_dvd_pow 2 (Nat.le_trans t.bits_le (by decide))
  rw [decodeValue]
  split
  · rw [BitVec.toNat_signExtend, BitVec.toNat_setWidth, BitVec.toNat_ofNat]
    split
    · obtain ⟨k, hk⟩ := Nat.dvd_sub hdvd (Nat.dvd_refl (2 ^ t.bits))
      rw [hk, Nat.add_mul_mod_self_left, Nat.mod_mod_of_dvd _ hdvd, Nat.mod_mod]
    · rw [Nat.add_zero, Nat.mod_mod_of_dvd _ hdvd, Nat.mod_mod]
  · rw [BitVec.toNat_setWidth, BitVec.toNat_ofNat, Nat.mod_mod_of_dvd _ hdvd, Nat.mod_mod]

/-! ## Writing what was read -/

/-- **What is read from a field is written as the bytes that it was read from.** -/
theorem encodeValue_decodeValue (h : bytes.length = t.width) :
    t.encodeValue (t.decodeValue o bytes) o = .ok bytes := by
  have hlength : t.width = (o.arrange bytes).length := by rw [ByteOrder.length_arrange, h]
  have hbytes : littleEndian t.width (t.decodeValue o bytes).toNat = o.arrange bytes := calc
    _ = littleEndian t.width (o.toNat bytes) :=
      littleEndian_congr (t.pow_width ▸ t.toNat_decodeValue_mod o bytes)
    _ = o.arrange bytes := by rw [hlength, ByteOrder.toNat, littleEndian_ofLittleEndian]
  refine encodeValue_eq_ok.2 ⟨fits_decodeValue h, ?_⟩
  rw [hbytes, ByteOrder.arrange_arrange]

/-- Bytes are those of a value exactly if there are as many as the field is wide, and the value is what
is read from them. -/
theorem encodeValue_eq_ok_iff_decodeValue :
    t.encodeValue v o = .ok bytes ↔ bytes.length = t.width ∧ t.decodeValue o bytes = v := by
  constructor
  · exact fun h => ⟨length_encodeValue h, decodeValue_encodeValue h⟩
  · rintro ⟨hlength, rfl⟩
    exact encodeValue_decodeValue hlength

theorem encodeValue_big (t : FieldType) (v : LinkValue) :
    t.encodeValue v .big = (t.encodeValue v .little).map List.reverse := by
  rw [encodeValue, encodeValue]
  split <;> rfl

/-- **Writing and reading fields are inverse to each other.**  A value is written exactly if it is one of
the numbers of the type.  Its bytes are the ones, as many as the field is wide, that it is read from, and
all bytes of that width are the bytes of exactly one value.  With the most significant byte first they
are the others in reverse.  A value that is none of the numbers of the type is an error that carries
it. -/
theorem encodeValue_laws (t : FieldType) (o : ByteOrder) :
    (∀ v, (∃ bytes, t.encodeValue v o = .ok bytes) ↔ v.toInt ∈ t.values) ∧
    (∀ v bytes, t.encodeValue v o = .ok bytes ↔
      bytes.length = t.width ∧ t.decodeValue o bytes = v) ∧
    (∀ bytes, (∃! v, t.encodeValue v o = .ok bytes) ↔ bytes.length = t.width) ∧
    (∀ v, t.encodeValue v .big = (t.encodeValue v .little).map List.reverse) ∧
    (∀ v e, t.encodeValue v o = .error e ↔
      v.toInt ∉ t.values ∧ e = .encodingOverflow v (.field t)) := by
  refine ⟨fun v => ?_, fun v bytes => encodeValue_eq_ok_iff_decodeValue, fun bytes => ?_,
    t.encodeValue_big, fun v e => ?_⟩
  · rw [← fits_iff]
    constructor
    · rintro ⟨bytes, h⟩
      exact (encodeValue_eq_ok.1 h).1
    · exact fun h => ⟨_, encodeValue_eq_ok.2 ⟨h, rfl⟩⟩
  · constructor
    · rintro ⟨v, h, -⟩
      exact length_encodeValue h
    · exact fun h => ⟨_, encodeValue_decodeValue h, fun v hv => (decodeValue_encodeValue hv).symm⟩
  · rw [encodeValue_eq_error, fits_iff]

example : i16.encodeValue (-32768) .big = .ok [0x80, 0x00] ∧
    i16.encodeValue 32768 .big = .error (.encodingOverflow 32768 (.field .i16)) := ⟨rfl, rfl⟩

end PortableImage.FieldType
