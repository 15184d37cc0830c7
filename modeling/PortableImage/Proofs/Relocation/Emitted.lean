import PortableImage.Proofs.Linking
import PortableImage.Proofs.Relocation.Synthesis

/-!
# The base relocations of an encoded image

The blocks are found in the file where the finished image says they are.  Unless an address table is
written over them, what they list are the addresses of the fields that were picked.

* `atRelocations` — the image when base relocations are looked for, and the provisional values.
* `EncodedImage.BlocksAt` — where the blocks are.
* `Encoding.exists_reads` — they are read there.
* `Encoding.relocations_eq` — what they list.
-/

set_option autoImplicit false

namespace PortableImage

open Buffer

/-- The image at the moment when base relocations are looked for, and the values that its labels have
then. -/
def atRelocations (image : Image) (options : EncodeOptions) (clock : UInt32) :
    Except EncodeError (Assembly × Binding) := do
  let a ← ((Assembly.start image (options.timestamp.getD clock)).beforeRelocations options).result
  let b ← provisionalBinding (.label a.context.start) .empty a.image.sections
  return (a, b)

/-- The blocks of base relocations take `size` bytes of the file from `place` on, says the finished
image. -/
def EncodedImage.BlocksAt (e : EncodedImage) (v : FileView) (place size : Nat) : Prop :=
  ∃ label start r k, e.image.directory? .baseRelocationTable =
      some ⟨.label label - .label start, .ofSize size⟩ ∧
    e.LabelIn v label r k ∧ place = r.rawAddress + k

/-- The range of the file lies apart from the tables that are written in place. -/
def ApartFromTables (v : FileView) (tables : List (Nat × Buffer)) (place size : Nat) : Prop :=
  ∀ t ∈ tables, ∀ start, v.offset? t.1 = some start →
    place + size ≤ start ∨ start + t.2.virtSize ≤ place

/-- Every table of several is read somewhere. -/
theorem FileView.reads_of_mem {v : FileView} {env : String → LinkValue} {o : Nat}
    {tables : List RelocationTable} (h : v.Reads env o (tables.flatMap RelocationTable.record))
    {t : RelocationTable} (ht : t ∈ tables) : ∃ o', v.Reads env o' t.record := by
  induction tables generalizing o with
  | nil => exact nomatch ht
  | cons u rest ih =>
    rw [List.flatMap_cons, reads_append] at h
    rcases List.mem_cons.1 ht with rfl | ht
    · exact ⟨o, h.1⟩
    · exact ih h.2 ht

namespace Encoding

variable {image : Image} {options : EncodeOptions} {clock : UInt32} {a : Assembly}
  {h : HeadedImage} {q p : Placement} {e : EncodedImage} {size : Nat}
  (enc : Encoding image options clock a h q p e size)

include enc

/-- Where base relocations are wanted, they are looked for. -/
theorem exists_relocates (hwants : options.wantsRelocations = true) :
    ∃ a₀ b tables content label, atRelocations image options clock = .ok (a₀, b) ∧
      (Assembly.start image (options.timestamp.getD clock)).Continues a₀ ∧ a₀.Continues a ∧
      a₀.Relocates a b tables content label := by
  obtain ⟨a₀, a₁, h₀, h₁, h₂⟩ := Assembly.withDirectories_eq_ok.1 enc.assembled
  obtain ⟨b, tables, content, label, hrel⟩ := Assembly.relocates_addRelocations hwants h₁ h₂
  refine ⟨a₀, b, tables, content, label, ?_, Assembly.continues_beforeRelocations h₀,
    (Assembly.continues_findRelocations h₁).trans (Assembly.continues_addRelocations h₂), hrel⟩
  rw [atRelocations, h₀]
  show (provisionalBinding (.label a₀.context.start) .empty a₀.image.sections >>= _) = _
  rw [hrel.provisional]
  rfl

/-- The labels of a placed section are labels of the finished one. -/
theorem labelIn_of_mem (hlen : e.bytes.length < UInt64.size) {i k : Nat} {l : String} {s : Section}
    {r : PlacedSection} (hs : h.image.sections[i]? = some s) (hr : q.placed[i]? = some r)
    (hl : (l, k) ∈ s.content.exports) : e.LabelIn (e.view image options) l r.seen k := by
  obtain ⟨s', hs', content, hfix, rfl⟩ := exists_right_of_forall₂ enc.finished.sections hs
  refine ⟨i, _, hs', ?_, ?_⟩
  · rw [enc.view_sections hlen, List.getElem?_map, hr, Option.map_some]
  · rw [exports_fixup hfix]
    exact hl

/-- The start of a section is as far from the start of the image as its row says. -/
theorem env_sub_start (hlen : e.bytes.length < UInt64.size) {i : Nat} {l : String} {s : Section}
    {r : PlacedSection} {address : Nat} (hs : h.image.sections[i]? = some s)
    (hat : SectionAt h.numbers s q r address) (hl : (l, 0) ∈ s.content.exports) :
    p.binding.env l - p.binding.env a.context.start = LinkValue.ofSize r.rva := by
  have hrow := enc.view_row hs hat hlen
  rw [Binding.env_of_get? (enc.places.tables.binding _ _ (hat.exports l 0 hl)), enc.env_start,
    hrow.2, Nat.add_zero, LinkValue.ofSize, BitVec.ofNat_add]
  exact add_sub_cancel_left _ _

section Emitted

variable {a₀ : Assembly} {b : Binding} {tables : List RelocationTable} {content : Buffer}
  {label : String} (hrel : a₀.Relocates a b tables content label)

include hrel

/-- **The section with the blocks is in the output.** -/
theorem exists_blocks (hinside : ∀ s ∈ a₀.image.sections, s.content.FieldsInside) :
    ∃ (i : Nat) (s : Section) (r : PlacedSection) (address k : Nat),
      h.image.sections[i]? = some s ∧ q.placed[i]? = some r ∧
      h.headersSize ≤ r.rawAddress ∧ SectionAt h.numbers s q r address ∧
      (label, k) ∈ s.content.exports ∧
      r.rawAddress + k + content.virtSize ≤ e.bytes.length ∧
      ∀ env, q.ApartFrom (orderedTables a.tablesInPlace) (r.rawAddress + k) content.virtSize →
        p.output.HoldsRecord env a₀.context.encoder.order (r.rawAddress + k)
          (tables.flatMap RelocationTable.record) := by
  obtain ⟨i, t, front, ht, hcontent, hfront⟩ := exists_appendSection
    (collectTables b a₀.image.sections a₀.context).sections
    (.new ".reloc" (.read ||| .discardable) content)
  change t.content = front ++ content at hcontent
  rw [← hrel.sections] at ht
  obtain ⟨s, r, address, hs, hr, hheaders, hat, hlabelled⟩ :=
    enc.exists_placed_of_assembled ht
  have hexports : (label, front.virtSize) ∈ t.content.exports := by
    rw [hcontent, exports_append]
    refine List.mem_append_right _ (List.mem_map.2 ⟨_, hrel.start, ?_⟩)
    rw [Nat.zero_add]
  -- what stands in front of the blocks reaches nowhere into them
  have hbefore : front.FieldsInside := by
    obtain rfl | ⟨u, hu, rfl⟩ := hfront
    · exact fieldsInside_empty
    · obtain ⟨j, hj⟩ := List.mem_iff_getElem?.1 hu
      obtain ⟨s₀, hs₀, hl⟩ := exists_left_of_forall₂
        (Assembly.labelled_collectTables b a₀.image.sections a₀.context) hj
      obtain ⟨added, ⟨more, rfl⟩, rfl⟩ := hl
      exact FieldsInside.align (hinside s₀ (List.mem_of_getElem? hs₀)) 8
  have hraw : t.content.rawSize = front.virtSize + content.virtSize := by
    have hsize : content.virtSize = content.rawSize := by
      rw [virtSize, hrel.blocks.tail, Nat.add_zero, rawSize]
    rw [hcontent, rawSize_append, hsize]
  have hsize := hat.rawSize
  have hend := enc.rawAddress_le hat
  have hle := hlabelled.grows.rawSize_le
  refine ⟨i, s, r, address, front.virtSize, hs, hr, hheaders, hat,
    hlabelled.grows.exports.subset hexports, by omega, fun env hapart => ?_⟩
  refine (hrel.blocks.holds env).map fun o ty v _ hlt hv => ?_
  rw [Nat.zero_add, ← hrel.blocks.virtSize] at hlt
  have hholds : t.content.Holds env (front.virtSize + o) ty a₀.context.encoder.order v := by
    rw [hcontent]
    exact hv.append_right hbefore
  have hplaced := enc.holds_placed hat hlabelled.grows hholds (by omega) fun u hu start hstart => by
    have hcases := hapart u hu start hstart
    omega
  rw [← Nat.add_assoc] at hplaced
  exact hplaced

/-- The sections where base relocations were looked for start where their rows say. -/
theorem env_sub_start_of_collected (hlen : e.bytes.length < UInt64.size)
    (hstart : a.context.start = a₀.context.start) :
    a₀.image.sections.length ≤ (e.view image options).sections.length ∧
    ∀ x ∈ (collectTables b a₀.image.sections a₀.context).sections.zip
        (e.view image options).sections, ∀ l, (l, 0) ∈ x.1.content.exports →
      p.binding.env l - p.binding.env a₀.context.start = LinkValue.ofSize x.2.rva := by
  have hcollect := Assembly.labelled_collectTables b a₀.image.sections a₀.context
  -- a section of which the labels are known is placed, and keeps its labels
  have hplaced : ∀ (i : Nat) (s : Section),
      (collectTables b a₀.image.sections a₀.context).sections[i]? = some s →
      ∃ r, (e.view image options).sections[i]? = some r ∧ ∀ l, (l, 0) ∈ s.content.exports →
        p.binding.env l - p.binding.env a.context.start = LinkValue.ofSize r.rva := by
    intro i s hs
    obtain ⟨t, ht, hgrows⟩ := hrel.sectionsGrow i s hs
    obtain ⟨u, r, address, hu, hr, -, hat, hlabelled⟩ :=
      enc.exists_placed_of_assembled ht
    refine ⟨r.seen, ?_, fun l hl => ?_⟩
    · rw [enc.view_sections hlen, List.getElem?_map, hr, Option.map_some]
    · exact enc.env_sub_start hlen hu hat
        (hlabelled.grows.exports.subset (hgrows.content.exports.subset hl))
  constructor
  · by_contra hlt
    rw [Nat.not_le] at hlt
    rw [hcollect.length_eq] at hlt
    obtain ⟨r, hr, -⟩ := hplaced _ _ (List.getElem?_eq_getElem hlt)
    rw [List.getElem?_eq_none (Nat.le_refl _)] at hr
    exact nomatch hr
  · intro x hx l hl
    obtain ⟨i, hi⟩ := List.mem_iff_getElem?.1 hx
    rw [List.getElem?_zip_eq_some] at hi
    obtain ⟨r, hr, hvalue⟩ := hplaced i x.1 hi.1
    rw [hi.2, Option.some.injEq] at hr
    rw [← hstart, hr]
    exact hvalue l hl

end Emitted

/-- **The numbers of all blocks are read** where the finished image says they are, unless a table is
written over them. -/
theorem exists_reads (hlen : e.bytes.length < UInt64.size) {a₀ : Assembly} {b : Binding}
    {tables : List RelocationTable} {content : Buffer} {label : String}
    (hrel : a₀.Relocates a b tables content label)
    (hkeeps : (Assembly.start image (options.timestamp.getD clock)).Continues a₀)
    (hinside : ∀ s ∈ image.sections, s.content.FieldsInside) :
    ∃ place, e.BlocksAt (e.view image options) place content.virtSize ∧
      (ApartFromTables (e.view image options) a.tablesInPlace place content.virtSize →
        (e.view image options).Reads p.binding.env place (tables.flatMap RelocationTable.record)) ∧
      ∀ t ∈ tables, t.record.size < 2 ^ 128 := by
  have hencoder : a.context.encoder = a₀.context.encoder :=
    enc.continued.context.1.trans hkeeps.context.1.symm
  obtain ⟨i, s, r, address, k, hs, hr, hheaders, hat, hlabel, hend, hholds⟩ :=
    enc.exists_blocks hrel (hkeeps.inside hinside)
  refine ⟨r.rawAddress + k, ⟨label, a₀.context.start, r.seen, k, ?_,
    enc.labelIn_of_mem hlen hs hr hlabel, rfl⟩, fun hapart => ?_, fun t ht => ?_⟩
  · rw [enc.finished.image]
    show h.image.directories.lookup _ = _
    rw [enc.lays.directories]
    exact hrel.directory
  · have hrecord := hholds p.binding.env fun u hu start hoffset => by
      rw [mem_orderedTables] at hu
      rw [← enc.view_offset? hlen] at hoffset
      exact hapart u hu start hoffset
    rw [← hencoder] at hrecord
    refine enc.reads_output hrecord unsigned_record ?_
    have hlarge := enc.lays.large
    have hrow := (enc.lays.rows p.binding.env i s hs).virtSize.inside
    have hle : h.headers.virtSize ≤ h.headersSize := virtSize_le_align _ _
    omega
  · have hle := size_record_le ht
    rw [← hrel.blocks.virtSize] at hle
    rw [UInt64.size] at hlen
    omega

/-- **The blocks list the addresses of the fields that were picked.**  They are in the file where
the finished image says they are, unless a table is written over them. -/
theorem relocations_eq (hlen : e.bytes.length < UInt64.size) {a₀ : Assembly} {b : Binding}
    {tables : List RelocationTable} {content : Buffer} {label : String}
    (hrel : a₀.Relocates a b tables content label)
    (hkeeps : (Assembly.start image (options.timestamp.getD clock)).Continues a₀)
    (hinside : ∀ s ∈ image.sections, s.content.FieldsInside) :
    ∃ place size, e.BlocksAt (e.view image options) place size ∧
      (ApartFromTables (e.view image options) a.tablesInPlace place size →
        (e.view image options).relocations place size =
          (a₀.image.sections.zip (e.view image options).sections).flatMap fun x =>
            (relocatedOffsets a₀.context b x.1).map fun o =>
              ⟨addressKind a₀.context.encoder, (LinkValue.ofSize (x.2.rva + o)).toNat⟩) := by
  have hstart : a.context.start = a₀.context.start :=
    enc.continued.context.2.trans hkeeps.context.2.symm
  obtain ⟨place, hplace, hreads, hsmall⟩ := enc.exists_reads hlen hrel hkeeps hinside
  refine ⟨place, content.virtSize, hplace, fun hapart => ?_⟩
  obtain ⟨hlength, hrows⟩ := enc.env_sub_start_of_collected hrel hlen hstart
  rw [FileView.relocations_eq (hreads hapart) hrel.blocks.virtSize hsmall, hrel.listing_eq,
    listing_collectTables hlength hrows]
  intro t ht
  obtain ⟨o, hread, -⟩ := FileView.reads_of_mem (hreads hapart) (hrel.mem_of_collected ht)
  rw [← hread]
  exact (e.view image options).number_lt 4 o

end Encoding

end PortableImage
