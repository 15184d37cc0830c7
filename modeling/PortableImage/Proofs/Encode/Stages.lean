import PortableImage.Encode.Image
import PortableImage.Proofs.Encode.Assembly
import PortableImage.Proofs.Encode.Tables
import PortableImage.Proofs.Header.Layout

/-!
# The stages of an encoding

An encoding that succeeds has assembled the image, put the headers together, placed the sections,
written the address tables over them, and then written every pending field.

* `Placement.Places` — the sections and the tables of an image are placed behind its headers.
* `Finished` — what the last stage leaves: no pending field in the output, and every value in place.
* `Encoding` — all stages of one encoding; `encodeImage_eq_ok` says that every success has them.
* `Encoding.exists_placed` — where a section of the caller ends up.
-/

set_option autoImplicit false

namespace PortableImage

open Buffer

/-! ## Placing -/

/-- The layout numbers of an image with headers. -/
def HeadedImage.numbers (h : HeadedImage) : LayoutNumbers :=
  .ofHeader h.image.optionalHeader

/-- The bytes in front of the sections in the file. -/
def HeadedImage.headersSize (h : HeadedImage) : Nat :=
  (h.headers.align h.numbers.fileAlignment).virtSize

/-- The address tables in the order in which they are written. -/
def orderedTables (tables : List (Nat × Buffer)) : List (Nat × Buffer) :=
  sortBy (fun a b => a.1 ≤ b.1) tables

theorem mem_orderedTables {tables : List (Nat × Buffer)} {t : Nat × Buffer} :
    t ∈ orderedTables tables ↔ t ∈ tables :=
  (perm_sortBy _ tables).mem_iff

/-- The placement `q` has the sections of the image in order behind its headers; `p` is `q` with the
address tables written into it. -/
structure Placement.Places (q p : Placement) (h : HeadedImage) (tables : List (Nat × Buffer)) :
    Prop where
  bare : (place h []).result = .ok q
  written : writeTables h.numbers.base (orderedTables tables) q = .ok p
  sound : q.Sound
  headers : h.headers.Grows q.output
  start : ∀ start, h.headers.exports = [(start, 0)] →
    q.binding.get? start = some (.ofSize h.numbers.base)
  sections : List.Forall₂ (fun s r => h.headersSize ≤ r.rawAddress ∧
    ∃ address, SectionAt h.numbers s q r address) h.image.sections q.placed
  ordered : q.placed.Pairwise fun r s => r.rawAddress + r.rawSize ≤ s.rawAddress
  headersSize : q.binding.get? h.pending.headersSize = some (.ofSize h.headersSize)
  cursor : q.cursor.base = h.numbers.base ∧ q.cursor.alignment = h.numbers.sectionAlignment
  imageSize : q.binding.get? h.pending.imageSize = some (.ofSize q.cursor.imageSize)
  tiles : Tiles h.headersSize q.placed q.output.virtSize
  tables : q.Overwritten p h.numbers.base (orderedTables tables)

theorem places_place {h : HeadedImage} {tables : List (Nat × Buffer)} {p : Placement}
    (hp : (place h tables).result = .ok p) (hinside : h.headers.FieldsInside)
    (htables : ∀ t ∈ tables, t.2.FieldsInside) : ∃ q : Placement, q.Places p h tables := by
  simp only [place, Logged.bind_eq_ok, Logged.result_liftM] at hp
  obtain ⟨b₀, h₀, b₁, h₁, q, hq, b₂, h₂, hwrite⟩ := hp
  have hbare : (place h []).result = .ok { q with binding := b₂ } := by
    simp only [place, Logged.bind_eq_ok, Logged.result_liftM]
    exact ⟨b₀, h₀, b₁, h₁, q, hq, b₂, h₂, rfl⟩
  have hentries := binding_eq_ok h₀
  rw [addresses_ofSize] at hentries
  have hb₀ : b₀.Constant := by
    intro l e he
    have hmem : ∃ x ∈ b₀.entries, x.2 = e := by
      obtain ⟨l₁, l₂, heq, -⟩ := List.lookup_eq_some_iff.1 he
      exact ⟨(l, e), by simp [heq], rfl⟩
    obtain ⟨x, hx, rfl⟩ := hmem
    rw [hentries] at hx
    obtain ⟨y, -, rfl⟩ := List.mem_map.1 hx
    exact ⟨_, rfl⟩
  have hb₁ : b₁.Constant := .bind h₁ hb₀ ⟨_, rfl⟩
  obtain ⟨hext, hsound, hbase, halignment, new, hplaced, hnew, hpairwise, htiles⟩ :=
    placeSections_spec hq ⟨hb₁, hinside.align _⟩ rfl rfl
  rw [List.nil_append] at hplaced
  rw [← hplaced] at hnew hpairwise htiles
  have hb₂ : b₂.Constant := .bind h₂ hsound.constant ⟨_, rfl⟩
  have hext₂ : q.Extends { q with binding := b₂ } :=
    ⟨.refl _, Binding.extends_bind h₂, List.prefix_rfl⟩
  have hsections : List.Forall₂ (fun s r => h.headersSize ≤ r.rawAddress ∧
      ∃ address, SectionAt h.numbers s { q with binding := b₂ } r address)
      h.image.sections q.placed :=
    hnew.imp fun e r ⟨hle, address, hat⟩ => ⟨hle, address, hat.extends hext₂⟩
  refine ⟨{ q with binding := b₂ }, hbare, hwrite, ⟨hb₂, hsound.inside⟩,
    (grows_align _ _).trans hext.output, ?_,
    hsections, hpairwise, hext₂.binding _ _ (hext.binding _ _ (Binding.get?_bind_self h₁)),
    ⟨hbase, halignment⟩, Binding.get?_bind_self h₂, htiles, ?_⟩
  · intro start hstart
    refine hext₂.binding _ _ (hext.binding _ _ (Binding.extends_bind h₁ _ _ ?_))
    rw [Binding.get?, hentries]
    show (List.map _ (h.headers.exports)).lookup start = _
    rw [hstart]
    simp [HeadedImage.numbers]
  · refine overwritten_writeTables hwrite ⟨hb₂, hsound.inside⟩ ?_ fun t ht => ?_
    · intro r hr
      obtain ⟨i, hi⟩ := List.mem_iff_getElem?.1 hr
      obtain ⟨e, -, -, address, hat⟩ := exists_left_of_forall₂ hsections hi
      exact hat.inside
    · exact htables t (mem_orderedTables.1 ht)

/-! ## Finishing -/

theorem fixupSections_eq_ok {b : Binding} {l l' : List Section}
    (h : fixupSections b l = .ok l') :
    List.Forall₂ (fun s s' => ∃ content, s.content.fixup b = .ok content ∧ s' = { s with content })
      l l' := by
  induction l generalizing l' with
  | nil =>
    cases h
    exact .nil
  | cons s rest ih =>
    simp only [fixupSections, bind_eq_ok, pure_eq_ok] at h
    obtain ⟨content, hc, others, ho, rfl⟩ := h
    exact .cons ⟨content, hc, rfl⟩ (ih ho)

/-- The checksum is written only where its field is the one that is left. -/
theorem writeChecksum_eq_ok {order : ByteOrder} {label : Option String} {b b' : Buffer}
    {value : Option UInt32} (h : writeChecksum order label b = .ok (b', value)) :
    b' = b ∨ ∃ name k f binding sum, label = some name ∧ f.target = .label name ∧
      (∀ j, b.fields.get? j = if j = k then some f else none) ∧ b.fixup binding = .ok b' ∧
      checksum b.data order = .ok sum ∧ value = some sum ∧
      binding.get? name = some (.ofSize sum.toNat) := by
  unfold writeChecksum at h
  cases label with
  | none =>
    cases h
    exact .inl rfl
  | some name =>
    simp only at h
    split at h
    · next honly =>
      simp only [bind_eq_ok, pure_eq_ok, Prod.mk.injEq] at h
      obtain ⟨sum, hsum, binding, hbinding, b₁, hfix, rfl, rfl⟩ := h
      unfold onlyChecksumPending at honly
      split at honly
      · next k f hentries =>
        refine .inr ⟨name, k, f, binding, sum, rfl, eq_of_beq honly, fun j => ?_, hfix, hsum, rfl,
          Binding.get?_bind_self hbinding⟩
        rw [OffsetMap.get?, hentries, List.lookup_cons, List.lookup_nil]
        by_cases hj : j = k
        · simp [hj]
        · have hb : (j == k) = false := by simpa using hj
          simp [hj, hb]
      · exact nomatch honly
    · cases h
      exact .inl rfl

/-- What the last stage leaves: the checksum field at `c` aside, every pending field of the placed
image had a value, and the output has it. -/
structure Finished (h : HeadedImage) (p : Placement) (e : EncodedImage) (c : Nat) : Prop where
  pending : ∀ k, e.output.fields.get? k = none
  valued : ∀ k f, k ≠ c → p.output.fields.get? k = some f →
    (f.target.constantUnder p.binding).isSome
  size : e.bytes.length = p.output.virtSize
  written : ∃ output, p.output.fill.fixup p.binding = .ok output ∧
    writeChecksum h.context.encoder.order h.pending.checksum output = .ok (e.output, e.checksum)
  values : ∀ env o t order v, p.binding.Agrees env → o ≠ c → p.output.Holds env o t order v →
    t.encodeValue v order = .ok (bytesAt e.bytes o t.width)
  bytes : ∀ i, i < p.output.virtSize →
    (∀ k f, p.output.fields.get? k = some f → i < k ∨ k + f.type.width ≤ i) →
    e.bytes[i]? = p.output.contents[i]?
  sections : List.Forall₂
    (fun s s' => ∃ content, s.content.fixup p.binding = .ok content ∧ s' = { s with content })
    h.image.sections e.image.sections
  image : e.image = { h.image with sections := e.image.sections }

/-- Where only the field at `c` may be pending, writing the checksum keeps everything else. -/
theorem writeChecksum_keeps {order : ByteOrder} {label : Option String} {b b' : Buffer}
    {value : Option UInt32} (h : writeChecksum order label b = .ok (b', value)) (ht : b.tail = 0)
    (hin : b.FieldsInside) {c : Nat} (hc : ∀ j, j ≠ c → b.fields.get? j = none) :
    b'.rawSize = b.rawSize ∧ b'.tail = 0 ∧
    (∀ env o t ord v, o ≠ c → b.Holds env o t ord v → b'.Holds env o t ord v) ∧
    ∀ i, i < b.rawSize → (∀ k f, b.fields.get? k = some f → i < k ∨ k + f.type.width ≤ i) →
      b'.data[i]? = b.data[i]? := by
  obtain rfl | ⟨name, k, f, binding, -, -, -, -, hfix, -⟩ := writeChecksum_eq_ok h
  · exact ⟨rfl, ht, fun _ _ _ _ _ _ hv => hv, fun _ _ _ => rfl⟩
  · obtain ⟨hraw, htail⟩ := rawSize_fixup hfix ht hin
    refine ⟨hraw, htail, fun env o t ord v hne hv => hv.fixup hfix ht hin fun f w hf _ => ?_,
      fun i hi hfree => getElem?_fixup hfix hi fun k f hf _ => hfree k f hf⟩
    rw [hc o hne] at hf
    exact nomatch hf

/-- **The last stage leaves nothing pending and writes every value.** -/
theorem finished_finish {h : HeadedImage} {p : Placement} {e : EncodedImage} {c : Nat}
    {order : ByteOrder} (he : finish h p = .ok e) (hp : p.output.FieldsInside)
    (hc : ∀ label, h.pending.checksum = some label →
      p.output.fields.get? c = some ⟨.label label, .u32, order⟩) : Finished h p e c := by
  simp only [finish, bind_eq_ok, Prod.exists] at he
  obtain ⟨out₁, hfix, sections, hsections, out₂, value, hwrite, he⟩ := he
  split at he
  · next hempty =>
    cases he
    have hnone := OffsetMap.isEmpty_iff.1 hempty
    have hin := hp.fill
    obtain ⟨hraw₁, htail₁⟩ := rawSize_fixup hfix rfl hin
    have hfields₁ := get?_fields_fixup hfix
    rw [fields_fill] at hfields₁
    have hin₁ := hin.fixup hfix
    -- the checksum field aside, nothing is pending any more
    have honly : ∀ j, j ≠ c → out₁.fields.get? j = none := by
      intro j hj
      obtain rfl | ⟨name, k, f, binding, sum, hname, htarget, hk, -⟩ := writeChecksum_eq_ok hwrite
      · exact hnone j
      · have hpend : (Expr.label name).constantUnder p.binding = none := by
          have hf := hk k
          rw [if_pos rfl, hfields₁, Option.filter_eq_some_iff, htarget] at hf
          exact Option.isNone_iff_eq_none.1 hf.2
        have hat : out₁.fields.get? c = some ⟨.label name, .u32, order⟩ := by
          rw [hfields₁, hc name hname, Option.filter_some, hpend]
          rfl
        rw [hk] at hat ⊢
        split at hat
        · next hck =>
          rw [if_neg fun hjk => hj (hjk.trans hck.symm)]
        · cases hat
    obtain ⟨hraw₂, htail₂, hholds₂, hbytes₂⟩ := writeChecksum_keeps hwrite htail₁ hin₁ honly
    refine ⟨hnone, fun k f hne hf => ?_, ?_, ⟨out₁, hfix, hwrite⟩,
      fun env o t ord v hagrees hne hv => ?_, fun i hi hfree => ?_, fixupSections_eq_ok hsections,
      rfl⟩
    · have hk := honly k hne
      rw [hfields₁, hf, Option.filter_some] at hk
      split at hk
      · cases hk
      · next hsome =>
        rw [Option.isNone_iff_eq_none, ← ne_eq, Option.ne_none_iff_isSome] at hsome
        exact hsome
    · show out₂.rawSize = _
      rw [hraw₂, hraw₁, rawSize_fill]
    · have hv₁ := hv.fill.fixup hfix rfl hin fun f w _ hw => Expr.eval_of_constantUnder hagrees hw
      have hdecode := (hholds₂ env o t ord v hne hv₁).decode (hnone o)
      rwa [contents_eq_data htail₂] at hdecode
    · have hlt : i < p.output.fill.rawSize := by
        rw [rawSize_fill]
        exact hi
      refine (hbytes₂ i (by omega) fun k f hf => ?_).trans ?_
      · rw [hfields₁, Option.filter_eq_some_iff] at hf
        exact hfree k f hf.1
      · rw [getElem?_fixup hfix hlt fun k f hf _ => hfree k f hf, data_fill]
  · cases he

/-! ## All stages -/

/-- The stages of an encoding that succeeds: the assembled image, the image with headers, the
sections placed, the tables written over them, and the finished image.  The optional header takes
`size` bytes. -/
structure Encoding (image : Image) (options : EncodeOptions) (clock : UInt32) (a : Assembly)
    (h : HeadedImage) (q p : Placement) (e : EncodedImage) (size : Nat) : Prop where
  assembled : ((Assembly.start image (options.timestamp.getD clock)).withDirectories
    options).result = .ok a
  continued : (Assembly.start image (options.timestamp.getD clock)).Continues a
  headed : a.withHeaders options.target = .ok h
  placed : (place h a.tablesInPlace).result = .ok p
  lays : h.Lays a options.target size
  places : q.Places p h a.tablesInPlace
  tablesInside : ∀ t ∈ a.tablesInPlace, t.2.FieldsInside
  finished : Finished h p e (headerStart options.target + fileHeaderSize + checksumPosition)

/-- The headers lie apart from all tables. -/
theorem Placement.Places.apartFrom_headers {q p : Placement} {h : HeadedImage}
    {tables : List (Nat × Buffer)} (hp : q.Places p h tables) {o len : Nat}
    (hin : o + len ≤ h.headers.virtSize) : q.ApartFrom (orderedTables tables) o len := by
  intro t ht offset hoffset
  obtain ⟨r, hr, hat, -⟩ := hp.tables.room t ht
  rw [hoffset, Option.some.injEq] at hat
  obtain ⟨i, hi⟩ := List.mem_iff_getElem?.1 hr
  obtain ⟨e, -, hsize, -⟩ := exists_left_of_forall₂ hp.sections hi
  have halign : h.headers.virtSize ≤ h.headersSize := virtSize_le_align _ _
  exact .inl (by omega)

/-- What the headers hold, the placed image holds. -/
theorem Placement.Places.holds_headers {q p : Placement} {h : HeadedImage}
    {tables : List (Nat × Buffer)} (hp : q.Places p h tables) {env : String → LinkValue} {o : Nat}
    {t : FieldType} {order : ByteOrder} {v : LinkValue} (hv : h.headers.Holds env o t order v) :
    p.output.Holds env o t order v :=
  hp.tables.holds env o t order v (hv.grows hp.headers) (hp.apartFrom_headers hv.inside)

/-- The field of the checksum is still pending when everything is placed. -/
theorem Placement.Places.get?_checksum {q p : Placement} {h : HeadedImage} {a : Assembly}
    {target : Target} {size : Nat} (hp : q.Places p h a.tablesInPlace)
    (hlays : h.Lays a target size) (label : String) (hl : h.pending.checksum = some label) :
    p.output.fields.get? (headerStart target + fileHeaderSize + checksumPosition) =
      some ⟨.label label, .u32, a.context.encoder.order⟩ := by
  have hfield := hlays.checksum label hl
  have hlt := hlays.inside _ _ hfield
  have hpos := FieldType.u32.width_pos
  dsimp only at hlt
  rw [hp.tables.fields _ (hp.apartFrom_headers (by omega)), hp.headers.fields _ (by omega)]
  exact hfield

/-- **An encoding that succeeds has all stages.** -/
theorem encodeImage_eq_ok {image : Image} {options : EncodeOptions} {clock : UInt32}
    {e : EncodedImage} (he : (encodeImage image options clock).result = .ok e) :
    ∃ a h q p size, Encoding image options clock a h q p e size := by
  simp only [encodeImage, Logged.bind_eq_ok, Logged.result_liftM] at he
  obtain ⟨a, ha, h, hh, p, hp, hfinish⟩ := he
  have hcontinues := Assembly.continues_withDirectories ha
  have htables := hcontinues.tables fun _ ht => nomatch ht
  obtain ⟨size, hlays⟩ := lays_withHeaders hh
  obtain ⟨q, hplaces⟩ := places_place hp hlays.inside htables
  exact ⟨a, h, q, p, size, ha, hcontinues, hh, hp, hlays, hplaces, htables,
    finished_finish hfinish hplaces.tables.sound.inside (hplaces.get?_checksum hlays)⟩

/-! ## Sections through the stages -/

/-- With headers, a section has got a size and labels at most. -/
theorem Section.content_headed {s s' : Section} (h : s.withContentFlags.Headed s') :
    s.content.Labelled s'.content := by
  have hlabelled := h.content
  rw [s.withContentFlags_eq] at hlabelled
  exact hlabelled

/-- With headers, a section has the size of its content if it had none, and keeps its size in the
file. -/
theorem Section.sizes_headed {s s' : Section} (h : s.withContentFlags.Headed s') :
    s'.virtSize = some (s.virtSize.getD (UInt32.ofNat s.content.virtSize)) ∧
      s'.rawSize = s.rawSize := by
  rw [h.fields, s.withContentFlags_eq]
  exact ⟨rfl, rfl⟩

/-- With headers, a section has its name. -/
theorem Section.name_headed {s s' : Section} (h : s.withContentFlags.Headed s') :
    s'.name = s.name := by
  rw [h.fields, s.withContentFlags_eq]
  rfl

/-- The address tables of an image that are written over the sections that hold them. -/
def tablesInPlace (image : Image) (options : EncodeOptions) (clock : UInt32) :
    List (Nat × Buffer) :=
  match ((Assembly.start image (options.timestamp.getD clock)).withDirectories options).result with
  | .ok a => a.tablesInPlace
  | .error _ => []

/-- The image with headers and its placement: everything but the pending fields is done. -/
def placedImage (image : Image) (options : EncodeOptions) (clock : UInt32) :
    Except EncodeError (HeadedImage × Placement) := do
  let a ← ((Assembly.start image (options.timestamp.getD clock)).withDirectories options).result
  let h ← a.withHeaders options.target
  let p ← (place h a.tablesInPlace).result
  return (h, p)

namespace Encoding

variable {image : Image} {options : EncodeOptions} {clock : UInt32} {a : Assembly}
  {h : HeadedImage} {q p : Placement} {e : EncodedImage} {size : Nat}
  (enc : Encoding image options clock a h q p e size)

include enc

theorem tablesInPlace_eq : tablesInPlace image options clock = a.tablesInPlace := by
  rw [tablesInPlace, enc.assembled]

theorem placedImage_eq : placedImage image options clock = .ok (h, p) := by
  rw [placedImage, enc.assembled]
  show (a.withHeaders options.target >>= _) = _
  rw [enc.headed]
  show ((place h a.tablesInPlace).result >>= _) = _
  rw [enc.placed]
  rfl

/-- Every section of the assembled image is placed. -/
theorem exists_placed_of_headed {i : Nat} {s : Section} (hs : h.image.sections[i]? = some s) :
    ∃ r address, q.placed[i]? = some r ∧ h.headersSize ≤ r.rawAddress ∧
      SectionAt h.numbers s q r address := by
  obtain ⟨r, hr, hle, address, hat⟩ := exists_right_of_forall₂ enc.places.sections hs
  exact ⟨r, address, hr, hle, hat⟩

/-- A section of the assembled image is placed with more labels at most. -/
theorem exists_placed_of_assembled {i : Nat} {s : Section} (hs : a.image.sections[i]? = some s) :
    ∃ s' r address, h.image.sections[i]? = some s' ∧ q.placed[i]? = some r ∧
      h.headersSize ≤ r.rawAddress ∧ SectionAt h.numbers s' q r address ∧
      s.content.Labelled s'.content := by
  obtain ⟨s', hs', hheaded⟩ := exists_right_of_forall₂ enc.lays.sections hs
  obtain ⟨r, address, hr, hle, hat⟩ := enc.exists_placed_of_headed hs'
  exact ⟨s', r, address, hs', hr, hle, hat, Section.content_headed hheaded⟩

/-- A section that the caller described is placed, with more content behind its own at most. -/
theorem exists_placed {i : Nat} {s : Section} (hs : image.sections[i]? = some s) :
    ∃ s' r address, h.image.sections[i]? = some s' ∧ q.placed[i]? = some r ∧
      h.headersSize ≤ r.rawAddress ∧ SectionAt h.numbers s' q r address ∧
      s.content.Grows s'.content := by
  obtain ⟨s₁, hs₁, hgrows⟩ := enc.continued.sections i s hs
  obtain ⟨s', r, address, hs', hr, hle, hat, hlabelled⟩ := enc.exists_placed_of_assembled hs₁
  exact ⟨s', r, address, hs', hr, hle, hat, hgrows.content.trans hlabelled.grows⟩

/-- The labels of the finished sections are those of the placed ones. -/
theorem exports_finished {i : Nat} {s : Section} (hs : e.image.sections[i]? = some s) :
    ∃ s', h.image.sections[i]? = some s' ∧ s.content.exports = s'.content.exports := by
  obtain ⟨s', hs', content, hfix, rfl⟩ := exists_left_of_forall₂ enc.finished.sections hs
  exact ⟨s', hs', exports_fixup hfix⟩

/-- What a section of the caller holds in its bytes, the placed image holds, unless a table is
written over it. -/
theorem holds_placed {env : String → LinkValue} {b : Buffer} {s' : Section} {r : PlacedSection}
    {address o : Nat} {t : FieldType} {order : ByteOrder} {v : LinkValue}
    (hat : SectionAt h.numbers s' q r address)
    (hgrows : b.Grows s'.content) (hv : b.Holds env o t order v) (hraw : o + t.width ≤ b.rawSize)
    (hapart : q.ApartFrom (orderedTables a.tablesInPlace) (r.rawAddress + o) t.width) :
    p.output.Holds env (r.rawAddress + o) t order v := by
  have hle := hgrows.rawSize_le
  exact enc.places.tables.holds _ _ _ _ _
    (hat.holds _ _ _ _ _ ((hv.grows hgrows).slice (Nat.le_trans hraw hle))) hapart

end Encoding

end PortableImage
