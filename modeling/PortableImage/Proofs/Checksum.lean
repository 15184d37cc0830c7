import Mathlib.Data.List.Induction
import PortableImage.Checksum
import PortableImage.Proofs.Buffer.Bytes
import PortableImage.Proofs.Field.Value
import PortableImage.Proofs.Outcome

/-!
# What the checksum adds up

The carry of every addition goes back in at the low end, so that what is kept is the sum modulo
65535.  The parts of the image are read one after the other; where they all lie in it, reading them
succeeds.

* `onesComplementSum` — the sum in 16-bit one's complement.
* `foldedSum_eq` — adding with end-around carry gives this sum.
* `ImageReader.checkedBytes_eq` — the bytes that the checksum covers, from the numbers that lead to
  them.
-/

set_option autoImplicit false

namespace PortableImage

/-! ## The sum -/

/-- The sum in 16-bit one's complement: the sum modulo 65535, zero only if there is nothing but
zeros. -/
def onesComplementSum (hs : List Nat) : Nat :=
  if hs.sum = 0 then 0 else (hs.sum - 1) % (UInt16.size - 1) + 1

theorem halves_lt (order : ByteOrder) (bytes : List UInt8) :
    ∀ n ∈ halves order bytes, n < UInt16.size := by
  have hpair : ∀ a b : UInt8, order.toNat [a, b] < UInt16.size := fun a b => by
    have hlt := ofLittleEndian_lt (order.arrange [a, b])
    rwa [ByteOrder.length_arrange, List.length_cons, List.length_singleton] at hlt
  induction bytes using halves.induct with
  | case1 => exact fun _ hn => nomatch hn
  | case2 b => exact List.forall_mem_singleton.2 (hpair b 0)
  | case3 a b rest ih => exact List.forall_mem_cons.2 ⟨hpair a b, ih⟩

/-- One more half, with the carry back in at the low end. -/
theorem addHalf_onesComplementSum {hs : List Nat} {n : Nat} (hn : n < UInt16.size) :
    addHalf (onesComplementSum hs) n = onesComplementSum (hs ++ [n]) := by
  unfold addHalf onesComplementSum
  rw [List.sum_append, List.sum_singleton, UInt16.size] at *
  generalize hs.sum = sum
  split
  · split <;> omega
  · rw [if_neg (by omega)]
    omega

/-- **Adding with end-around carry gives the sum in one's complement.** -/
theorem foldedSum_eq {hs : List Nat} (h : ∀ n ∈ hs, n < UInt16.size) :
    foldedSum hs = onesComplementSum hs := by
  induction hs using List.reverseRecOn with
  | nil => rfl
  | append_singleton hs n ih =>
    rw [foldedSum, List.foldl_append, List.foldl_cons, List.foldl_nil, ← foldedSum,
      ih fun m hm => h m (List.mem_append_left _ hm),
      addHalf_onesComplementSum (h n (List.mem_append_right _ (List.mem_singleton.2 rfl)))]

/-! ## Reading -/

namespace ImageReader

variable {r : ImageReader}

theorem bytes_eq {offset len : Nat} (h : offset + len ≤ r.data.length) (part : ImagePart) :
    r.bytes offset len part = .ok (bytesAt r.data offset len) := if_pos h

theorem number_eq {width offset : Nat} (h : offset + width ≤ r.data.length) (part : ImagePart) :
    r.number width offset part = .ok (r.order.toNat (bytesAt r.data offset width)) := by
  rw [number, bytes_eq h]
  rfl

/-- The sections are read from the places in the section table. -/
theorem sectionBytes_eq {l : List (Nat × Nat)} {offset : Nat}
    (hsize : ∀ (i : Nat) x, l[i]? = some x →
      r.word (offset + sectionHeaderSize * i + 16) .sectionRawSize = .ok x.2)
    (hplace : ∀ (i : Nat) x, l[i]? = some x →
      r.word (offset + sectionHeaderSize * i + 20) .sectionRawAddress = .ok x.1)
    (hin : ∀ x ∈ l, x.1 + x.2 ≤ r.data.length) :
    r.sectionBytes l.length offset = .ok (l.map fun x => bytesAt r.data x.1 x.2) := by
  induction l generalizing offset with
  | nil => rfl
  | cons x rest ih =>
    have hnext : ∀ i k, offset + sectionHeaderSize * (i + 1) + k =
        offset + sectionHeaderSize + sectionHeaderSize * i + k := fun i k => by
      rw [Nat.mul_succ]
      omega
    have hrest : r.sectionBytes rest.length (offset + sectionHeaderSize) =
        .ok (rest.map fun x => bytesAt r.data x.1 x.2) :=
      ih (fun i y hy => hnext i 16 ▸ hsize (i + 1) y hy)
        (fun i y hy => hnext i 20 ▸ hplace (i + 1) y hy)
        fun y hy => hin y (List.mem_cons_of_mem _ hy)
    simp only [List.length_cons, sectionBytes, bind_eq_ok, pure_eq_ok]
    exact ⟨_, hsize 0 x rfl, _, hplace 0 x rfl, _, bytes_eq (hin x List.mem_cons_self) _, _, hrest, rfl⟩

/-- **The bytes that the checksum covers**, from the numbers that lead to them: the headers with the
checksum zero, and the sections. -/
theorem checkedBytes_eq {header optionalSize headersSize : Nat} {l : List (Nat × Nat)}
    (hheader : r.fileHeaderOffset = .ok header)
    (hcount : r.half (header + 2) .sectionCount = .ok l.length)
    (hoptional : r.half (header + 16) .optionalHeaderSize = .ok optionalSize)
    (hheaders : r.word (header + fileHeaderSize + headersSizePosition) .headersSize =
      .ok headersSize)
    (hfield : header + fileHeaderSize + checksumPosition + 4 ≤ headersSize)
    (hin : headersSize ≤ r.data.length)
    (hsections : r.sectionBytes l.length (header + fileHeaderSize + optionalSize) =
      .ok (l.map fun x => bytesAt r.data x.1 x.2)) :
    r.checkedBytes = .ok (overwrite (bytesAt r.data 0 headersSize)
      (header + fileHeaderSize + checksumPosition) (List.replicate 4 0) ++
        (l.map fun x => bytesAt r.data x.1 x.2).flatten) := by
  have hlength : (bytesAt r.data 0 headersSize).length = headersSize := length_bytesAt (by omega)
  simp only [checkedBytes, bind_eq_ok, pure_eq_ok]
  refine ⟨_, hheader, _, hcount, _, hoptional, _, hheaders, _, bytes_eq (by omega) _, _, hsections, ?_⟩
  rw [if_pos (by omega)]
  rfl

end ImageReader

end PortableImage
