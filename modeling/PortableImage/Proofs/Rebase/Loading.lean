import PortableImage.Proofs.Relocation.Synthesis

/-!
# Loading a file at another base

A loader that puts an image somewhere else than its headers say adds the distance to every field that
has a base relocation.

* `addAt` — one field; `getElem?_foldl_addAt` and `bytesAt_foldl_addAt` say what becomes of the bytes
  when there are several.
* `FileView.loadedAt` — the whole file.
-/

set_option autoImplicit false

namespace PortableImage

/-! ## Fields that move -/

/-- A field that gets the value and `d` more has the bytes of the sum. -/
theorem FieldType.encodeValue_add {t : FieldType} {order : ByteOrder} {v d : LinkValue} {n : Nat}
    {bytes bytes' : List UInt8} (ht : t.signed = false) (hd : n % 2 ^ 64 = d.toNat % 2 ^ 64)
    (h : t.encodeValue v order = .ok bytes) (h' : t.encodeValue (v + d) order = .ok bytes') :
    bytes' = order.arrange (littleEndian t.width (order.toNat bytes + n)) := by
  rw [(encodeValue_eq_ok.1 h').2, toNat_encodeValue ht h]
  congr 1
  refine littleEndian_congr ?_
  have hdvd : 256 ^ t.width ∣ 2 ^ 64 := t.pow_width ▸ pow_dvd_pow 2 t.bits_le
  have hmod : (v + d).toNat % 2 ^ 64 = (v.toNat + n) % 2 ^ 64 := by
    rw [BitVec.toNat_add]
    omega
  rw [← Nat.mod_mod_of_dvd _ hdvd, hmod, Nat.mod_mod_of_dvd _ hdvd]

/-- The data with `d` added to the number of `width` bytes at `o`. -/
def addAt (order : ByteOrder) (width d : Nat) (data : List UInt8) (o : Nat) : List UInt8 :=
  overwrite data o (order.arrange (littleEndian width (order.toNat (bytesAt data o width) + d)))

section AddAt

variable {order : ByteOrder} {width d : Nat} {data : List UInt8}

theorem length_addAt {o : Nat} (h : o + width ≤ data.length) :
    (addAt order width d data o).length = data.length :=
  length_overwrite (by rwa [ByteOrder.length_arrange, length_littleEndian])

theorem getElem?_addAt {o i : Nat} (h : o + width ≤ data.length) (hi : i < o ∨ o + width ≤ i) :
    (addAt order width d data o)[i]? = data[i]? := by
  have hlength : (order.arrange (littleEndian width (order.toNat (bytesAt data o width) + d))).length
      = width := by rw [ByteOrder.length_arrange, length_littleEndian]
  rw [addAt, getElem?_overwrite (by rwa [hlength]), hlength, if_neg (by omega)]

theorem bytesAt_addAt {o : Nat} (h : o + width ≤ data.length) :
    bytesAt (addAt order width d data o) o width =
      order.arrange (littleEndian width (order.toNat (bytesAt data o width) + d)) := by
  have hlength : (order.arrange (littleEndian width (order.toNat (bytesAt data o width) + d))).length
      = width := by rw [ByteOrder.length_arrange, length_littleEndian]
  have hself := bytesAt_overwrite_self (hlength.symm ▸ h : o + (order.arrange (littleEndian width
    (order.toNat (bytesAt data o width) + d))).length ≤ data.length)
  rwa [hlength] at hself

/-- Away from all fields, nothing changes. -/
theorem getElem?_foldl_addAt {offsets : List Nat} {i : Nat}
    (hin : ∀ o ∈ offsets, o + width ≤ data.length)
    (hi : ∀ o ∈ offsets, i < o ∨ o + width ≤ i) :
    (offsets.foldl (addAt order width d) data)[i]? = data[i]? := by
  induction offsets generalizing data with
  | nil => rfl
  | cons x rest ih =>
    have hx := hin x List.mem_cons_self
    rw [List.foldl_cons, ih (fun o ho => ?_) fun o ho => hi o (List.mem_cons_of_mem _ ho),
      getElem?_addAt hx (hi x List.mem_cons_self)]
    rw [length_addAt hx]
    exact hin o (List.mem_cons_of_mem _ ho)

/-- **Every field is changed once**, if the fields lie one behind the other. -/
theorem bytesAt_foldl_addAt {offsets : List Nat} {o : Nat}
    (hin : ∀ o ∈ offsets, o + width ≤ data.length)
    (hascending : offsets.Pairwise fun x y => x + width ≤ y) (ho : o ∈ offsets) :
    bytesAt (offsets.foldl (addAt order width d) data) o width =
      order.arrange (littleEndian width (order.toNat (bytesAt data o width) + d)) := by
  induction offsets generalizing data with
  | nil => exact nomatch ho
  | cons x rest ih =>
    obtain ⟨hfirst, hrest⟩ := List.pairwise_cons.1 hascending
    have hx := hin x List.mem_cons_self
    have hin' : ∀ o ∈ rest, o + width ≤ (addAt order width d data x).length := fun o ho => by
      rw [length_addAt hx]
      exact hin o (List.mem_cons_of_mem _ ho)
    rw [List.foldl_cons]
    rcases List.mem_cons.1 ho with rfl | ho
    · rw [← bytesAt_addAt hx]
      refine bytesAt_congr fun i hi => getElem?_foldl_addAt hin' fun y hy => .inl ?_
      have hle := hfirst y hy
      omega
    · have hle := hfirst o ho
      rw [ih hin' hrest ho, show bytesAt (addAt order width d data x) o width = bytesAt data o width
        from bytesAt_congr fun i hi => getElem?_addAt hx (by omega)]

/-- Data that differ from the first in the fields only, each of which has `d` more, are the first with
`d` added to the fields. -/
theorem getElem?_eq_foldl_addAt {offsets : List Nat} {data' : List UInt8} {i : Nat}
    (hin : ∀ o ∈ offsets, o + width ≤ data.length)
    (hascending : offsets.Pairwise fun x y => x + width ≤ y)
    (hchanged : ∀ o ∈ offsets, bytesAt data' o width =
      order.arrange (littleEndian width (order.toNat (bytesAt data o width) + d)))
    (hsame : (∀ o ∈ offsets, i < o ∨ o + width ≤ i) → data'[i]? = data[i]?) :
    data'[i]? = (offsets.foldl (addAt order width d) data)[i]? := by
  by_cases hcovered : ∃ o ∈ offsets, o ≤ i ∧ i < o + width
  · obtain ⟨o, ho, hle, hlt⟩ := hcovered
    have hfield := (hchanged o ho).trans (bytesAt_foldl_addAt hin hascending ho).symm
    have hbyte := congrArg (·[i - o]?) hfield
    rwa [getElem?_bytesAt, getElem?_bytesAt, if_pos (by omega), if_pos (by omega),
      Nat.add_sub_cancel' hle] at hbyte
  · have hfree : ∀ o ∈ offsets, i < o ∨ o + width ≤ i := fun o ho => by
      by_contra hnot
      exact hcovered ⟨o, ho, by omega, by omega⟩
    rw [getElem?_foldl_addAt hin hfree, hsame hfree]

end AddAt

/-- The second data are the first with `n` added to the numbers of `width` bytes that are moved. -/
structure DataMoved (order : ByteOrder) (width n : Nat) (moved : Nat → Prop) (d d' : List UInt8) :
    Prop where
  length_eq : d'.length = d.length
  same : ∀ j, (∀ k, moved k → j < k ∨ k + width ≤ j) → d'[j]? = d[j]?
  changed : ∀ k, moved k → k + width ≤ d.length ∧ bytesAt d' k width =
    order.arrange (littleEndian width (order.toNat (bytesAt d k width) + n))

/-- Zeros behind the data are the same in both. -/
theorem DataMoved.padTo {order : ByteOrder} {width n size : Nat} {moved : Nat → Prop}
    {d d' : List UInt8} (h : DataMoved order width n moved d d') :
    DataMoved order width n moved (padTo size d) (padTo size d') where
  length_eq := by
    rw [PortableImage.padTo, PortableImage.padTo, List.length_append, List.length_append, h.length_eq]
  same j hj := by
    rw [getElem?_padTo, getElem?_padTo, h.length_eq, h.same j hj]
  changed k hk := by
    obtain ⟨hle, hbytes⟩ := h.changed k hk
    rw [PortableImage.padTo, PortableImage.padTo, List.length_append, bytesAt_append_left hle,
      bytesAt_append_left (h.length_eq ▸ hle)]
    exact ⟨by omega, hbytes⟩

/-! ## The file -/

/-- How many bytes a base relocation of the kind changes. -/
def relocationWidth (kind : Nat) : Nat := if kind = BaseRelocKind.dir64.raw.toNat then 8 else 4

/-- A base relocation of an address changes all its bytes. -/
theorem relocationWidth_addressKind (f : FieldEncoder) :
    relocationWidth (addressKind f) = f.addressType.width := by
  rw [addressKind, addressRelocKind, FieldEncoder.addressType]
  cases f.pe64 <;> rfl

namespace FileView

/-- The data with `d` added to the field of the base relocation. -/
def relocate (v : FileView) (d : Nat) (data : List UInt8) (r : FileRelocation) : List UInt8 :=
  match v.offset? r.rva with
  | some o => addAt v.order (relocationWidth r.kind) d data o
  | none => data

/-- The file as a loader changes it that puts the image at `base`. -/
def loadedAt (v : FileView) (base : Nat) (relocs : List FileRelocation) : List UInt8 :=
  relocs.foldl (v.relocate (base + UInt64.size - v.imageBase)) v.data

/-- The fields are changed where the file has them. -/
theorem foldl_relocate {v : FileView} {width d : Nat} {data : List UInt8}
    {relocs : List FileRelocation} (h : ∀ r ∈ relocs, relocationWidth r.kind = width) :
    relocs.foldl (v.relocate d) data =
      (relocs.filterMap fun r => v.offset? r.rva).foldl (addAt v.order width d) data := by
  induction relocs generalizing data with
  | nil => rfl
  | cons r rest ih =>
    rw [List.foldl_cons, ih fun s hs => h s (List.mem_cons_of_mem _ hs), List.filterMap_cons, relocate,
      h r List.mem_cons_self]
    cases v.offset? r.rva <;> rfl

end FileView

end PortableImage
