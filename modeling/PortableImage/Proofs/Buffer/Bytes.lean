import PortableImage.Buffer

/-!
# Ranges of bytes

Where bytes are written and where they are read, byte by byte.

* `bytesAt` — the bytes of a range.
* `getElem?_overwrite` — writing changes the bytes of its range and no others.
* `SameApart` — data that differ in one range at most.
-/

set_option autoImplicit false

namespace PortableImage

/-- The `len` bytes from `offset` on; fewer where the data ends before. -/
def bytesAt (data : List UInt8) (offset len : Nat) : List UInt8 := (data.drop offset).take len

theorem getElem?_bytesAt (data : List UInt8) (offset len i : Nat) :
    (bytesAt data offset len)[i]? = if i < len then data[offset + i]? else none := by
  rw [bytesAt, List.getElem?_take]
  split
  · rw [List.getElem?_drop]
  · rfl

theorem length_bytesAt {data : List UInt8} {offset len : Nat} (h : offset + len ≤ data.length) :
    (bytesAt data offset len).length = len := by
  rw [bytesAt, List.length_take, List.length_drop]
  omega

/-- A range reads the same from data that agree on it. -/
theorem bytesAt_congr {d d' : List UInt8} {o o' len : Nat}
    (h : ∀ i, i < len → d[o + i]? = d'[o' + i]?) : bytesAt d o len = bytesAt d' o' len := by
  refine List.ext_getElem? fun i => ?_
  rw [getElem?_bytesAt, getElem?_bytesAt]
  split
  · next hi => exact h i hi
  · rfl

/-- Two ranges next to each other are one. -/
theorem bytesAt_append (data : List UInt8) (o m n : Nat) :
    bytesAt data o m ++ bytesAt data (o + m) n = bytesAt data o (m + n) := by
  rw [bytesAt, bytesAt, bytesAt, ← List.drop_drop, ← List.take_add]

theorem bytesAt_bytesAt {data : List UInt8} {o len p n : Nat} (h : p + n ≤ len) :
    bytesAt (bytesAt data o len) p n = bytesAt data (o + p) n := by
  refine bytesAt_congr fun i hi => ?_
  rw [getElem?_bytesAt, if_pos (by omega), Nat.add_assoc]

theorem bytesAt_append_left {d e : List UInt8} {o n : Nat} (h : o + n ≤ d.length) :
    bytesAt (d ++ e) o n = bytesAt d o n :=
  bytesAt_congr fun i hi => List.getElem?_append_left (by omega)

theorem bytesAt_append_right (d e : List UInt8) (o n : Nat) :
    bytesAt (d ++ e) (d.length + o) n = bytesAt e o n :=
  bytesAt_congr fun i hi => by
    rw [List.getElem?_append_right (by omega)]
    congr 1
    omega

theorem bytesAt_self (d : List UInt8) : bytesAt d 0 d.length = d := by
  rw [bytesAt, List.drop_zero, List.take_length]

/-! ## Writing -/

theorem getElem?_padTo (size : Nat) (data : List UInt8) (i : Nat) :
    (padTo size data)[i]? = if i < data.length then data[i]? else if i < size then some 0 else none := by
  rw [padTo, List.getElem?_append]
  split
  · rfl
  · rw [List.getElem?_replicate]
    split <;> split <;> first | rfl | omega

/-- Writing changes the bytes of its range and no others. -/
theorem getElem?_overwrite {data : List UInt8} {offset : Nat} {bytes : List UInt8}
    (h : offset + bytes.length ≤ data.length) (i : Nat) :
    (overwrite data offset bytes)[i]? =
      if offset ≤ i ∧ i < offset + bytes.length then bytes[i - offset]? else data[i]? := by
  have hlen : (data.take offset).length = offset := by
    rw [List.length_take]
    omega
  rw [overwrite, List.append_assoc, List.getElem?_append, hlen]
  by_cases h1 : i < offset
  · rw [if_pos h1, if_neg (by omega), List.getElem?_take, if_pos h1]
  · rw [if_neg h1, List.getElem?_append]
    by_cases h2 : i - offset < bytes.length
    · rw [if_pos h2, if_pos ⟨by omega, by omega⟩]
    · rw [if_neg h2, if_neg (by omega), List.getElem?_drop]
      congr 1
      omega

theorem bytesAt_overwrite_self {data : List UInt8} {offset : Nat} {bytes : List UInt8}
    (h : offset + bytes.length ≤ data.length) :
    bytesAt (overwrite data offset bytes) offset bytes.length = bytes := by
  refine List.ext_getElem? fun i => ?_
  rw [getElem?_bytesAt]
  split
  · rw [getElem?_overwrite h, if_pos ⟨by omega, by omega⟩]
    congr 1
    omega
  · rw [List.getElem?_eq_none (by omega)]

/-- Writing leaves what follows. -/
theorem overwrite_append_left {d : List UInt8} {o : Nat} {bytes : List UInt8}
    (h : o + bytes.length ≤ d.length) (e : List UInt8) :
    overwrite (d ++ e) o bytes = overwrite d o bytes ++ e := by
  rw [overwrite, overwrite, List.take_append_of_le_length (by omega), List.drop_append_of_le_length h,
    List.append_assoc _ _ e]

/-! ## Data that differ in one range -/

/-- Data of one length, with the same bytes apart from the `len` bytes from `o` on. -/
structure SameApart (o len : Nat) (d d' : List UInt8) : Prop where
  length_eq : d.length = d'.length
  getElem?_eq : ∀ i, i < o ∨ o + len ≤ i → d[i]? = d'[i]?

namespace SameApart

variable {o len : Nat} {d d' : List UInt8}

theorem refl (o len : Nat) (d : List UInt8) : SameApart o len d d := ⟨rfl, fun _ _ => rfl⟩

theorem symm (h : SameApart o len d d') : SameApart o len d' d :=
  ⟨h.length_eq.symm, fun i hi => (h.getElem?_eq i hi).symm⟩

/-- Apart from the range, the same is read. -/
theorem bytesAt_eq (h : SameApart o len d d') {p n : Nat} (hapart : p + n ≤ o ∨ o + len ≤ p) :
    bytesAt d p n = bytesAt d' p n :=
  bytesAt_congr fun i hi => h.getElem?_eq (p + i) (by omega)

/-- With the range overwritten, the data are the same. -/
theorem overwrite_eq (h : SameApart o len d d') {bytes : List UInt8} (hbytes : bytes.length = len)
    (hin : o + len ≤ d.length) : overwrite d o bytes = overwrite d' o bytes := by
  refine List.ext_getElem? fun i => ?_
  rw [getElem?_overwrite (by omega), getElem?_overwrite (by rw [← h.length_eq]; omega)]
  split
  · rfl
  · exact h.getElem?_eq i (by omega)

end SameApart

end PortableImage
