import Mathlib.Data.List.Lex
import PortableImage.Text.Units

/-!
# The bytes of texts

Texts are compared by their characters when names are put in order, and by their bytes when a loader
looks for one.  The two agree: a greater character has greater bytes.

* `Text.utf8_lt` — a smaller text has smaller bytes; `Text.utf8_le_iff` is the order of texts.
* `Text.zero_notMem_utf8` — a text without the zero character has no zero byte.
-/

set_option autoImplicit false

namespace PortableImage.Text

theorem utf8_eq (s : String) : utf8 s = s.toList.flatMap String.utf8EncodeChar := by
  conv => lhs; rw [← String.ofList_toList (s := s)]
  exact List.toList_data_toByteArray

/-- Texts with the same bytes are the same. -/
theorem utf8_injective : Function.Injective utf8 := fun _ _ h =>
  String.toByteArray_inj.1 (ByteArray.ext (Array.toList_inj.1 h))

/-- A smaller character has smaller bytes, whatever follows. -/
theorem utf8EncodeChar_append_lt {c d : Char} (h : c < d) (x y : List UInt8) :
    String.utf8EncodeChar c ++ x < String.utf8EncodeChar d ++ y := by
  have hlt : c.val.toNat < d.val.toNat := h
  have hd : d.val.toNat < 1114112 := by
    rcases d.valid with hsmall | ⟨-, hlarge⟩
    · exact Nat.lt_trans hsmall (by decide)
    · exact hlarge
  simp only [String.utf8EncodeChar]
  generalize c.val.toNat = v at hlt
  generalize d.val.toNat = w at hlt hd
  -- the first byte grows with the number of bytes, then the bytes are the digits of the number
  by_cases h1 : v ≤ 127
  · rw [if_pos h1]
    by_cases k1 : w ≤ 127
    · rw [if_pos k1]
      simp only [List.cons_append, List.nil_append, List.cons_lt_cons_iff, UInt8.lt_iff_toNat_lt,
        UInt8.toNat_ofNat']
      omega
    · rw [if_neg k1]
      split <;> [skip; split] <;>
        simp only [List.cons_append, List.nil_append, List.cons_lt_cons_iff,
          UInt8.lt_iff_toNat_lt, UInt8.toNat_ofNat'] <;> omega
  · rw [if_neg h1, if_neg (by omega : ¬w ≤ 127)]
    by_cases h2 : v ≤ 2047
    · rw [if_pos h2]
      split <;> [skip; split] <;>
        simp only [List.cons_append, List.nil_append, List.cons_lt_cons_iff,
          UInt8.lt_iff_toNat_lt, ← UInt8.toNat_inj, UInt8.toNat_ofNat'] <;> omega
    · rw [if_neg h2, if_neg (by omega : ¬w ≤ 2047)]
      by_cases h3 : v ≤ 65535
      · rw [if_pos h3]
        split <;>
          simp only [List.cons_append, List.nil_append, List.cons_lt_cons_iff,
            UInt8.lt_iff_toNat_lt, ← UInt8.toNat_inj, UInt8.toNat_ofNat'] <;> omega
      · rw [if_neg h3, if_neg (by omega : ¬w ≤ 65535)]
        simp only [List.cons_append, List.nil_append, List.cons_lt_cons_iff,
          UInt8.lt_iff_toNat_lt, ← UInt8.toNat_inj, UInt8.toNat_ofNat']
        have hv : v = 262144 * (v / 262144 % 8) + 4096 * (v / 4096 % 64) + 64 * (v / 64 % 64) +
          v % 64 := by omega
        have hw : w = 262144 * (w / 262144 % 8) + 4096 * (w / 4096 % 64) + 64 * (w / 64 % 64) +
          w % 64 := by omega
        have hmod : ∀ n k : Nat, (n % 64 + 128) % 256 = n % 64 + 128 ∧ n % 64 < 64 ∧
            (k % 8 + 240) % 256 = k % 8 + 240 := by omega
        simp only [(hmod _ 0).1, (hmod 0 _).2.2]
        have hdigits := fun n => (hmod n 0).2.1
        have h4 := hdigits (v / 4096)
        have h5 := hdigits (v / 64)
        have h6 := hdigits v
        generalize v / 262144 % 8 = v₁ at hv
        generalize v / 4096 % 64 = v₂ at hv h4
        generalize v / 64 % 64 = v₃ at hv h5
        generalize v % 64 = v₄ at hv h6
        have k4 := hdigits (w / 4096)
        have k5 := hdigits (w / 64)
        have k6 := hdigits w
        generalize w / 262144 % 8 = w₁ at hw
        generalize w / 4096 % 64 = w₂ at hw k4
        generalize w / 64 % 64 = w₃ at hw k5
        generalize w % 64 = w₄ at hw k6
        clear hmod hdigits
        omega

theorem append_lt_append_left {x y : List UInt8} (h : x < y) (z : List UInt8) :
    z ++ x < z ++ y := by
  induction z with
  | nil => exact h
  | cons b rest ih => exact List.Lex.cons ih

theorem flatMap_utf8EncodeChar_lt {l m : List Char} (h : l < m) :
    l.flatMap String.utf8EncodeChar < m.flatMap String.utf8EncodeChar := by
  induction h with
  | @nil d m =>
    rw [List.flatMap_nil, List.flatMap_cons]
    cases hbytes : String.utf8EncodeChar d with
    | nil => exact absurd hbytes String.utf8EncodeChar_ne_nil
    | cons b rest => exact List.Lex.nil
  | cons _ ih =>
    rw [List.flatMap_cons, List.flatMap_cons]
    exact append_lt_append_left ih _
  | rel hlt => exact utf8EncodeChar_append_lt hlt _ _

/-- **A smaller text has smaller bytes.** -/
theorem utf8_lt {s t : String} (h : s < t) : utf8 s < utf8 t := by
  rw [utf8_eq, utf8_eq]
  exact flatMap_utf8EncodeChar_lt (String.lt_iff.1 h)

/-- Texts are in the order of their bytes. -/
theorem utf8_le_iff {s t : String} : utf8 s ≤ utf8 t ↔ (compare s t).isLE = true := by
  cases h : compare s t with
  | lt =>
    exact iff_of_true (List.le_of_lt (utf8_lt (compareOfLessAndEq_eq_lt.1 h))) rfl
  | eq =>
    rw [Std.LawfulEqCmp.eq_of_compare h]
    exact iff_of_true (List.le_refl _) rfl
  | gt =>
    have hlt : compare t s = .lt := Std.OrientedCmp.lt_of_gt h
    exact iff_of_false (List.not_le.2 (utf8_lt (compareOfLessAndEq_eq_lt.1 hlt))) Bool.false_ne_true

/-- **A text without the zero character has no zero byte.** -/
theorem zero_notMem_utf8 {s : String} (h : '\x00' ∉ s.toList) : 0 ∉ utf8 s := by
  rw [utf8_eq, List.mem_flatMap]
  rintro ⟨c, hc, hzero⟩
  have hne : c.val.toNat ≠ 0 := fun hval => by
    have hnul : c = '\x00' := Char.ext (UInt32.toNat_inj.1 hval)
    exact h (hnul ▸ hc)
  have hd : c.val.toNat < 1114112 := by
    rcases c.valid with hsmall | ⟨-, hlarge⟩
    · exact Nat.lt_trans hsmall (by decide)
    · exact hlarge
  simp only [String.utf8EncodeChar] at hzero
  generalize c.val.toNat = v at hzero hne hd
  split at hzero <;> [skip; split at hzero <;> [skip; split at hzero]] <;>
    simp only [List.mem_cons, List.not_mem_nil, or_false, ← UInt8.toNat_inj, UInt8.toNat_ofNat',
      UInt8.toNat_ofNat] at hzero <;> omega

end PortableImage.Text
