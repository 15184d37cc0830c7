import PortableImage.Proofs.Buffer.Written

/-!
# The same fields in two buffers

A byte that several pending fields cover is, in the end, that of the last of them.  So a buffer and
the range of another one with the same bytes and fields become the same when both are fixed up.

* `Buffer.getElem?_fixup_last` — the byte that the last field over it writes.
* `Buffer.getElem?_fixup_same` — a byte over which two buffers have the same fields.
* `Buffer.getElem?_fixup_window` — a range of a buffer that is like another buffer.
-/

set_option autoImplicit false

namespace PortableImage.Buffer

/-- Writing fields that lie in the bytes does not change their number. -/
theorem FieldsWritten.rawSize_fixup {b b' : Buffer} {binding : Binding} (hb : b.FieldsWritten)
    (h : b.fixup binding = .ok b') : b'.rawSize = b.rawSize := by
  obtain ⟨resolved, hres, rfl⟩ := fixup_eq_ok.1 h
  have hin : ∀ e ∈ resolved, e.1 + e.2.length ≤ b.rawSize := fun e he => by
    obtain ⟨f, v, hf, hv, hbytes⟩ := (mem_resolvedFields hres).1 he
    rw [FieldType.length_encodeValue hbytes]
    exact hb _ f (OffsetMap.get?_eq_some.2 hf)
  clear hres h hb
  induction resolved generalizing b with
  | nil => rfl
  | cons e rest ih =>
    have hfirst : (b.writeField e.1 e.2).rawSize = b.rawSize := by
      have hle := hin e List.mem_cons_self
      rw [rawSize_writeField]
      omega
    rw [writeFields_cons, ih fun x hx => hfirst ▸ hin x (List.mem_cons_of_mem _ hx), hfirst]

section Last

variable {b b' : Buffer} {binding : Binding} (h : b.fixup binding = .ok b')

include h

/-- The byte `i` is written by the field at `k`, if no field that gets a value starts behind `k` and
covers `i` too. -/
theorem getElem?_fixup_last {k i : Nat} {f : PendingField} {v : LinkValue}
    (hf : b.fields.get? k = some f) (hv : f.target.constantUnder binding = some v) (hk : k ≤ i)
    (hi : i < k + f.type.width)
    (hlast : ∀ j g, k < j → j ≤ i → b.fields.get? j = some g →
      (g.target.constantUnder binding).isSome → j + g.type.width ≤ i) :
    ∃ bytes, f.type.encodeValue v f.order = .ok bytes ∧ b'.data[i]? = bytes[i - k]? := by
  obtain ⟨resolved, hres, rfl⟩ := fixup_eq_ok.1 h
  obtain ⟨bytes, hb⟩ := encodes_of_resolvedFields hres (OffsetMap.get?_eq_some.1 hf) hv
  refine ⟨bytes, hb, ?_⟩
  have hlen := FieldType.length_encodeValue hb
  have hmem : (k, bytes) ∈ resolved :=
    (mem_resolvedFields hres).2 ⟨f, v, OffsetMap.get?_eq_some.1 hf, hv, hb⟩
  have hascending : (resolved.map (·.1)).Pairwise (· < ·) :=
    List.Pairwise.sublist (sublist_resolvedFields hres) (List.pairwise_map.2 b.fields.ascending)
  obtain ⟨before, behind, hsplit⟩ := List.append_of_mem hmem
  -- what is written behind this field lies elsewhere
  have hbehind : ∀ x ∈ behind, i < x.1 ∨ x.1 + x.2.length ≤ i := by
    intro x hx
    have hlt : k < x.1 := by
      rw [hsplit, List.map_append, List.map_cons, List.pairwise_append] at hascending
      exact (List.pairwise_cons.1 hascending.2.1).1 x.1 (List.mem_map_of_mem hx)
    have hxmem : x ∈ resolved := by
      rw [hsplit]
      exact List.mem_append_right _ (List.mem_cons_of_mem _ hx)
    obtain ⟨g, w, hg, hw, hgb⟩ := (mem_resolvedFields hres).1 hxmem
    by_cases hle : x.1 ≤ i
    · refine .inr ?_
      rw [FieldType.length_encodeValue hgb]
      exact hlast x.1 g hlt hle (OffsetMap.get?_eq_some.2 hg) (by rw [hw]; rfl)
    · exact .inl (by omega)
  have hwritten : b.writeFields resolved =
      ((b.writeFields before).writeField k bytes).writeFields behind := by
    rw [hsplit, writeFields, List.foldl_append]
    rfl
  have hself := bytesAt_writeField_self (b.writeFields before) k bytes
  rw [hwritten, getElem?_writeFields (by rw [rawSize_writeField]; omega) hbehind, ← hself,
    getElem?_bytesAt, if_pos (by omega), hself]
  congr 1
  omega

end Last

/-- **A byte over which two buffers have the same fields is fixed up to the same byte**, where these
fields have the same values in both.  The range of the first buffer that is compared starts at `o`. -/
theorem getElem?_fixup_same {b b' c c' : Buffer} {binding binding' : Binding} {o j : Nat}
    (hb : b.fixup binding = .ok b') (hc : c.fixup binding' = .ok c') (hj : o + j < b.rawSize)
    (hj' : j < c.rawSize) (hbytes : b.data[o + j]? = c.data[j]?)
    (hfields : ∀ k f, k ≤ j → j < k + f.type.width →
      (b.fields.get? (o + k) = some f ↔ c.fields.get? k = some f))
    (hfront : ∀ k f, k < o → b.fields.get? k = some f → k + f.type.width ≤ o + j)
    (hvalues : ∀ k f, k ≤ j → j < k + f.type.width → c.fields.get? k = some f →
      f.target.constantUnder binding = f.target.constantUnder binding') :
    b'.data[o + j]? = c'.data[j]? := by
  classical
  let Covers (k : Nat) : Prop := ∃ f, c.fields.get? k = some f ∧
    (f.target.constantUnder binding').isSome ∧ j < k + f.type.width
  -- a field with a value that covers the byte of the first buffer covers that of the second
  have hcovers : ∀ i f, o ≤ i → i ≤ o + j → o + j < i + f.type.width → b.fields.get? i = some f →
      (f.target.constantUnder binding).isSome → Covers (i - o) := by
    intro i f hle hi hlt hf hsome
    have hat : c.fields.get? (i - o) = some f := by
      rw [← hfields (i - o) f (by omega) (by omega), Nat.add_sub_cancel' hle, hf]
    rw [hvalues (i - o) f (by omega) (by omega) hat] at hsome
    exact ⟨f, hat, hsome, by omega⟩
  by_cases hcovered : ∃ k, k ≤ j ∧ Covers k
  · -- both bytes are written by the last field that covers them
    obtain ⟨k, hk, hcovers'⟩ := hcovered
    have hlast := Nat.findGreatest_spec hk hcovers'
    generalize hm : Nat.findGreatest Covers j = m at hlast
    obtain ⟨f, hf, hvalue, hwidth⟩ := hlast
    have hmj : m ≤ j := hm ▸ Nat.findGreatest_le j
    obtain ⟨v, hv⟩ := Option.isSome_iff_exists.1 hvalue
    have hgreatest : ∀ i, m < i → i ≤ j → ¬ Covers i := fun i hlt hle =>
      Nat.findGreatest_is_greatest (hm ▸ hlt) hle
    obtain ⟨bytes, he, hbyte⟩ := getElem?_fixup_last hc hf hv hmj hwidth
      fun i g hlt hle hg hsome => by
        by_contra hnot
        exact hgreatest i hlt hle ⟨g, hg, hsome, by omega⟩
    obtain ⟨bytes', he', hbyte'⟩ := getElem?_fixup_last hb (k := o + m) (i := o + j)
      ((hfields m f hmj hwidth).2 hf) ((hvalues m f hmj hwidth hf).trans hv) (by omega) (by omega)
      fun i g hlt hle hg hsome => by
        by_contra hnot
        exact hgreatest (i - o) (by omega) (by omega)
          (hcovers i g (by omega) hle (by omega) hg hsome)
    rw [he] at he'
    cases he'
    rw [hbyte, hbyte']
    congr 1
    omega
  · -- neither byte is written
    rw [not_exists] at hcovered
    rw [getElem?_fixup hb hj fun k f hf hvalue => ?_, getElem?_fixup hc hj' fun k f hf hvalue => ?_,
      hbytes]
    · by_contra hnot
      exact hcovered k ⟨by omega, f, hf, hvalue, by omega⟩
    · by_cases hk : k < o
      · exact .inr (hfront k f hk hf)
      · by_contra hnot
        exact hcovered (k - o) ⟨by omega, hcovers k f (by omega) (by omega) (by omega) hf hvalue⟩

/-- **A range that has the bytes and the fields of a buffer is fixed up to what the buffer is fixed
up to**, where the fields over a byte have the same value in both.  The range starts at `o`; the fields
before it end there at last. -/
theorem getElem?_fixup_window {b b' c c' : Buffer} {binding binding' : Binding} {o j : Nat}
    (hb : b.fixup binding = .ok b') (hc : c.fixup binding' = .ok c') (hj : o + j < b.rawSize)
    (hj' : j < c.rawSize) (hbytes : b.data[o + j]? = c.data[j]?)
    (hfields : ∀ k, k ≤ j → b.fields.get? (o + k) = c.fields.get? k)
    (hfront : ∀ k f, k < o → b.fields.get? k = some f → k + f.type.width ≤ o)
    (hvalues : ∀ k f, k ≤ j → j < k + f.type.width → c.fields.get? k = some f →
      f.target.constantUnder binding = f.target.constantUnder binding') :
    b'.data[o + j]? = c'.data[j]? :=
  getElem?_fixup_same hb hc hj hj' hbytes (fun k f hk _ => by rw [hfields k hk])
    (fun k f hk hf => Nat.le_trans (hfront k f hk hf) (Nat.le_add_right o j)) hvalues

end PortableImage.Buffer
