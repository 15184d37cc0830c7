import PortableImage.Proofs.Header.Layout
import PortableImage.Proofs.Labels.Assembly

/-!
# Labels of the headers

What the headers leave open until the layout is known has a fresh label each: the place and the size
of a section in the file, the size of the image and of the headers, the checksum.

* `Section.fileLabels`, `PendingHeader.names` — these labels.
* `brings_withHeaders` — the headers are written with them and with labels for the starts of
  sections.  All of them are fresh, apart from those that an earlier encoding has left.
-/

set_option autoImplicit false

namespace PortableImage

open LabelPool Buffer

variable {X : String → Prop}

/-- The labels of a section's place and size in the file. -/
def Section.fileLabels (s : Section) : List String :=
  (s.rawAddressLabel.map (·.name)).toList ++ (s.rawSizeLabel.map (·.name)).toList

/-- The labels of the sizes that are known in the end. -/
def PendingHeader.names (pending : PendingHeader) : List String :=
  [pending.imageSize, pending.headersSize]

/-- A fresh label. -/
theorem Context.brings_fresh (c : Context) {hint : String} (h : IsEncoderHint hint) :
    Brings X c.pool [] (c.fresh hint).2.pool [(c.fresh hint).1] :=
  brings_of_pays (c.notes_fresh h) (c.pays_fresh hint [])

/-! ## The section table -/

theorem brings_sectionRva (c : Context) (s : Section) :
    Brings X c.pool s.content.labels (sectionRva c s).2.2.pool
      (sectionRva c s).2.1.content.labels := by
  cases h : s.address with
  | some address =>
    rw [sectionRva_fixed h]
    exact .refl _ _
  | none =>
    rw [sectionRva_floating h]
    exact c.brings_labelAt s.content 0 (by decide)

/-- The label of the size in the file is fresh, or one that was left. -/
theorem brings_sectionRawSize (c : Context) (s : Section) :
    Brings X c.pool s.leftover (sectionRawSize c s).2.2.pool
      ((sectionRawSize c s).2.1.rawSizeLabel.map (·.name)).toList := by
  cases h : s.rawSize with
  | some size =>
    rw [sectionRawSize_fixed h, Section.leftover, h]
    exact .refl _ _
  | none =>
    rw [sectionRawSize_floating h, Section.leftover, h]
    exact c.brings_fresh (by decide)

/-- What an earlier encoding has left is a label of its own. -/
theorem isEncoderLabel_of_mem_leftoverLabels {sections : List Section} {l : String}
    (h : l ∈ leftoverLabels sections) : IsEncoderLabel l := by
  obtain ⟨s, -, hl⟩ := List.mem_flatMap.1 h
  rw [Section.leftover] at hl
  split at hl
  · obtain ⟨label, -, rfl⟩ := Option.map_eq_some_iff.1 (Option.mem_toList.1 hl)
    exact isEncoderLabel_of_namedAfter (by decide) label.named
  · exact absurd hl List.not_mem_nil

theorem leftover_withContentFlags (s : Section) : s.withContentFlags.leftover = s.leftover := by
  rw [s.withContentFlags_eq]
  rfl

theorem brings_encodeSectionHeader {c : Context} {s : Section} {row : SectionRow}
    (h : encodeSectionHeader c s = .ok row) :
    Brings X c.pool (s.content.labels ++ s.leftover) row.context.pool
      (row.entry.content.labels ++ row.entry.fileLabels) := by
  simp only [encodeSectionHeader, bind_eq_ok, pure_eq_ok] at h
  obtain ⟨s', hs', fields, -, rfl⟩ := h
  obtain ⟨rfl, -⟩ := sizeSection_eq_ok hs'
  let rva := sectionRva c s.sized
  let size := sectionRawSize rva.2.2 rva.2.1
  let address := size.2.2.fresh "sect_rawaddr"
  let sizeLabel := (size.2.1.rawSizeLabel.map (·.name)).toList
  have hrva : Brings X c.pool s.content.labels rva.2.2.pool rva.2.1.content.labels :=
    brings_sectionRva c s.sized
  have hleftover : rva.2.1.leftover = s.leftover := by
    obtain ⟨content, -, heq⟩ := labelled_sectionRva c s.sized
    rw [show rva.2.1 = _ from heq]
    rfl
  have hsize : Brings X rva.2.2.pool s.leftover size.2.2.pool sizeLabel :=
    hleftover ▸ brings_sectionRawSize rva.2.2 rva.2.1
  have haddress : Brings X size.2.2.pool [] address.2.pool [address.1] :=
    size.2.2.brings_fresh (by decide)
  have hcontent : size.2.1.content = rva.2.1.content := content_sectionRawSize _ _
  refine (hrva.frame s.leftover).trans (((hsize.frame rva.2.1.content.labels).trans
    (haddress.frame (sizeLabel ++ rva.2.1.content.labels))).of_le (fun l => ?_) fun l => ?_)
  · simp only [List.count_append]
    omega
  · show (size.2.1.content.labels ++ ([address.1] ++ sizeLabel)).count l ≤ _
    rw [hcontent]
    simp only [List.count_append]
    omega

theorem labels_withContentFlags (s : Section) :
    s.withContentFlags.content.labels = s.content.labels := by
  unfold Section.withContentFlags
  split <;> rfl

/-- **The rows of the section table are written with fresh labels and those that were left.** -/
theorem brings_encodeSectionTable {c : Context} {sections : List Section} {table : SectionTable}
    (h : encodeSectionTable c sections = .ok table) :
    Brings X c.pool (definedLabels sections ++ leftoverLabels sections) table.context.pool
      (definedLabels table.sections ++ table.sections.flatMap Section.fileLabels) := by
  induction sections generalizing c table with
  | nil =>
    cases h
    exact .refl _ _
  | cons s rest ih =>
    simp only [encodeSectionTable, bind_eq_ok, pure_eq_ok] at h
    obtain ⟨row, hrow, others, hothers, rfl⟩ := h
    have hfirst := (brings_encodeSectionHeader (X := X) hrow).frame
      (definedLabels rest ++ leftoverLabels rest)
    rw [labels_withContentFlags, leftover_withContentFlags] at hfirst
    have hrest := (ih hothers).frame (row.entry.content.labels ++ row.entry.fileLabels)
    refine (hfirst.of_le (fun l => ?_) fun l => Nat.le_refl _).trans
      (hrest.of_le (fun l => ?_) fun l => ?_)
    · simp only [definedLabels_eq, leftoverLabels, List.flatMap_cons, List.count_append]
      omega
    · simp only [List.count_append]
      omega
    · simp only [definedLabels_eq, List.flatMap_cons, List.count_append]
      omega

/-! ## The optional header -/

theorem brings_firstRva (flag : SectionFlags) (sections : List Section) (c : Context) :
    Brings X c.pool (definedLabels sections) (firstRva flag sections c).2.2.pool
      (definedLabels (firstRva flag sections c).2.1) := by
  induction sections with
  | nil => exact .refl _ _
  | cons s rest ih =>
    unfold firstRva
    split
    · exact (brings_sectionRva c s).frame (definedLabels rest)
    · refine (ih.frame s.content.labels).of_le (fun l => ?_) fun l => ?_
      · simp only [definedLabels_eq, List.flatMap_cons, List.count_append]
        omega
      · show (s.content.labels ++ definedLabels (firstRva flag rest c).2.1).count l ≤ _
        simp only [List.count_append]
        omega

theorem brings_rvaOr (given : Option Expr) (flag : SectionFlags) (sections : List Section)
    (c : Context) :
    Brings X c.pool (definedLabels sections) (rvaOr given flag sections c).2.2.pool
      (definedLabels (rvaOr given flag sections c).2.1) := by
  cases given with
  | some rva => exact .refl _ _
  | none => exact brings_firstRva flag sections c

theorem brings_fillDefaults {c : Context} {h : OptionalHeader} {sections : List Section}
    {d : Defaults} (hd : fillDefaults c h sections = .ok d) :
    Brings X c.pool (definedLabels sections) d.context.pool (definedLabels d.sections) := by
  simp only [fillDefaults, bind_eq_ok, pure_eq_ok] at hd
  obtain ⟨⟨⟩, -, ⟨⟩, -, codeSize, -, dataSize, -, bssSize, -, rfl⟩ := hd
  exact (brings_rvaOr h.baseOfCode .containsCode sections c).trans
    (brings_rvaOr h.baseOfData .containsData _ _)

/-- The label of the checksum is the last one that is made. -/
theorem brings_pendingHeader (c : Context) (h : OptionalHeader) :
    ∃ p, Brings X c.pool [] p (pendingHeader c h).1.names ∧
      ∀ label, (pendingHeader c h).1.checksum = some label → label ∉ p.known := by
  let size := c.fresh "image_size"
  let headers := size.2.fresh "headers_size"
  have hnames : Brings X c.pool [] headers.2.pool [headers.1, size.1] :=
    (c.brings_fresh (by decide)).trans ((size.2.brings_fresh (by decide)).frame [size.1])
  refine ⟨headers.2.pool, hnames.of_le (fun l => Nat.le_refl _) fun l => ?_, fun label hlabel => ?_⟩
  · have hperm : (pendingHeader c h).1.names = [size.1, headers.1] := by
      unfold pendingHeader
      cases h.checksum <;> rfl
    rw [hperm]
    exact Nat.le_of_eq ((List.Perm.swap _ _ []).count_eq l)
  · unfold pendingHeader at hlabel
    cases hc : h.checksum with
    | some _ =>
      rw [hc] at hlabel
      exact nomatch hlabel
    | none =>
      rw [hc] at hlabel
      cases hlabel
      exact fresh_notMem headers.2.pool "checksum"

theorem brings_encodeOptionalHeader {c : Context} {image : Image} {r : OptionalHeaderResult}
    (h : encodeOptionalHeader c image = .ok r) :
    ∃ p, Brings X c.pool (definedLabels image.sections) p
        (definedLabels r.image.sections ++ r.pending.names) ∧
      ∀ label, r.pending.checksum = some label → label ∉ p.known := by
  simp only [encodeOptionalHeader, bind_eq_ok, pure_eq_ok] at h
  obtain ⟨d, hd, ⟨⟩, -, header, -, rfl⟩ := h
  obtain ⟨p, hpending, hchecksum⟩ := brings_pendingHeader (X := X) d.context d.header
  refine ⟨p, (brings_fillDefaults hd).trans ((hpending.frame (definedLabels d.sections)).of_le
    (fun l => Nat.le_refl _) fun l => ?_), hchecksum⟩
  simp only [List.count_append]
  omega

/-! ## All headers -/

/-- The labels of the sections of an image with headers, and those that the headers leave open; the
checksum is not among them. -/
def HeadedImage.labelNames (h : HeadedImage) : List String :=
  definedLabels h.image.sections ++ h.image.sections.flatMap Section.fileLabels ++ h.pending.names

/-- More labels in the sections are none for their places and sizes in the file. -/
theorem fileLabels_labelled {l l' : List Section} (h : List.Forall₂ Section.Labelled l l') :
    l'.flatMap Section.fileLabels = l.flatMap Section.fileLabels := by
  induction h with
  | nil => rfl
  | cons hs _ ih =>
    obtain ⟨content, -, rfl⟩ := hs
    rw [List.flatMap_cons, List.flatMap_cons, ih]
    rfl

/-- **The headers are written with fresh labels and those that were left in sections.  The label of
the checksum differs from all fresh ones.** -/
theorem brings_withHeaders {a : Assembly} {target : Target} {h : HeadedImage}
    (hh : a.withHeaders target = .ok h) :
    ∃ p, Brings X a.context.pool (definedLabels a.image.sections ++ leftoverLabels a.image.sections)
        p h.labelNames ∧
      ∀ label, h.pending.checksum = some label → label ∉ p.known := by
  simp only [Assembly.withHeaders, bind_eq_ok, pure_eq_ok, Prod.exists] at hh
  obtain ⟨table, htable, optional, hoptional, stub, -, file, header, -, rfl⟩ := hh
  obtain ⟨p, hbrings, hchecksum⟩ := brings_encodeOptionalHeader (X := X) hoptional
  have hfile := fileLabels_labelled (lays_encodeOptionalHeader hoptional).sections
  refine ⟨p, (brings_encodeSectionTable htable).trans
    ((hbrings.frame (table.sections.flatMap Section.fileLabels)).of_le
      (fun l => Nat.le_refl _) fun l => ?_), hchecksum⟩
  simp only [HeadedImage.labelNames, List.count_append, hfile]
  omega

end PortableImage
