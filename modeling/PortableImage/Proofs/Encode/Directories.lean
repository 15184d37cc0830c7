import PortableImage.Proofs.Buffer.Shows
import PortableImage.Proofs.Encode.Assembly
import PortableImage.Proofs.Field.Spelled

/-!
# Where the generated directories stand

What a step of the assembly generates goes behind everything that is in some section, be it the
caller's or generated before, and is never moved again.  So the directories do not cover each other.

* `StandsIn` — a buffer that stands in a section of a list, at an offset.
* `Image.Encodes` — what a data directory of an image is encoded to.
* `Assembly.Directories` — the data directories that a run of steps adds, and where they stand; it
  is transitive.
* `Assembly.directories_addExports` and so on — the steps.
-/

set_option autoImplicit false

namespace PortableImage

open Buffer

/-! ## Buffers in sections -/

/-- What is in front of a buffer stays in front of one that continues it. -/
theorem Buffer.Grows.behind {b b' : Buffer} (h : b.Grows b') (front : Buffer) :
    (front ++ b).Grows (front ++ b') where
  rawSize_le := by
    rw [rawSize_append, rawSize_append]
    exact Nat.add_le_add_left h.rawSize_le _
  virtSize_le := by
    rw [virtSize_append, virtSize_append]
    exact Nat.add_le_add_left h.virtSize_le _
  contents i hi := by
    rw [virtSize_append] at hi
    rw [contents_append, contents_append, List.getElem?_append, List.getElem?_append,
      length_contents]
    split
    · rfl
    · exact h.contents _ (by omega)
  fields k hk := by
    rw [virtSize_append] at hk
    rw [get?_fields_append, get?_fields_append]
    split
    · rw [h.fields _ (by omega)]
    · rfl
  exports := by
    obtain ⟨added, hadded⟩ := h.exports
    rw [exports_append, exports_append, ← hadded, List.map_append, ← List.append_assoc]
    exact List.prefix_append _ _

/-- The buffer stands in the section with the index, from the offset on. -/
def StandsIn (sections : List Section) (i o : Nat) (b : Buffer) : Prop :=
  ∃ s front, sections[i]? = some s ∧ front.virtSize = o ∧ (front ++ b).Grows s.content

theorem StandsIn.grows {sections sections' : List Section} {i o : Nat} {b : Buffer}
    (h : StandsIn sections i o b) (hg : SectionsGrow sections sections') :
    StandsIn sections' i o b := by
  obtain ⟨s, front, hs, hfront, hb⟩ := h
  obtain ⟨s', hs', hgrows⟩ := hg i s hs
  exact ⟨s', front, hs', hfront, hb.trans hgrows.content⟩

theorem StandsIn.le {sections : List Section} {i o : Nat} {b : Buffer} (h : StandsIn sections i o b)
    {s : Section} (hs : sections[i]? = some s) : o + b.virtSize ≤ s.content.virtSize := by
  obtain ⟨s', front, hs', rfl, hb⟩ := h
  rw [hs, Option.some.injEq] at hs'
  subst hs'
  rw [← virtSize_append]
  exact hb.virtSize_le

theorem StandsIn.rawSize_le {sections : List Section} {i o : Nat} {b : Buffer}
    (h : StandsIn sections i o b) {s : Section} (hs : sections[i]? = some s) :
    o + b.rawSize ≤ s.content.rawSize := by
  obtain ⟨s', front, hs', rfl, hb⟩ := h
  rw [hs, Option.some.injEq] at hs'
  subst hs'
  rw [← rawSize_append]
  exact hb.rawSize_le

theorem StandsIn.exports {sections : List Section} {i o k : Nat} {b : Buffer} {l : String}
    (h : StandsIn sections i o b) (hl : (l, k) ∈ b.exports) :
    ∃ s, sections[i]? = some s ∧ (l, o + k) ∈ s.content.exports := by
  obtain ⟨s, front, hs, rfl, hb⟩ := h
  refine ⟨s, hs, hb.exports.subset ?_⟩
  rw [exports_append, Nat.add_comm front.virtSize]
  exact List.mem_append_right _ (List.mem_map.2 ⟨(l, k), hl, rfl⟩)

/-- The section, whose sizes are not fixed, has the buffer at the offset, and all pending fields lie
in its bytes. -/
structure Section.Hosts (s : Section) (o : Nat) (b : Buffer) : Prop where
  shows : s.content.Shows o b
  written : s.content.FieldsWritten
  virtSize : s.virtSize = none
  rawSize : s.rawSize = none

theorem Section.Hosts.grows {s s' : Section} {o : Nat} {b : Buffer} (h : s.Hosts o b)
    (hg : s.Grows s') : s'.Hosts o b where
  shows := h.shows.grows hg.content
  written := hg.written h.written
  virtSize := hg.virtSize.trans h.virtSize
  rawSize := hg.rawSize.trans h.rawSize

/-- **Generated content stands behind everything that its section had.** -/
theorem exists_standsIn_appendSection (l : List Section) (name : String) (flags : SectionFlags)
    {content : Buffer} (hcontent : content.FieldsWritten) :
    ∃ i o, StandsIn (appendSection l (.new name flags content)).1 i o content ∧
      (∀ s, l[i]? = some s → s.content.virtSize ≤ o) ∧
      ((∀ s ∈ l, s.content.FieldsInside) → ∀ s,
        (appendSection l (.new name flags content)).1[i]? = some s → s.Hosts o content) := by
  obtain ⟨i, t, ht, hvirt, hraw, h⟩ | h := appendSection_cases l (.new name flags content)
  · have hmerged : (l.modify i (·.merge content))[i]? = some (t.merge content) := by
      rw [List.getElem?_modify, ht]
      simp
    refine ⟨i, (t.content.align 8).virtSize, ⟨_, _, h ▸ hmerged, rfl, .refl _⟩, ?_, ?_⟩
    · rintro s hs
      rw [ht, Option.some.injEq] at hs
      subst hs
      exact t.content.virtSize_le_align 8
    · intro hinside s hs
      rw [h, show Section.content (.new name flags content) = content from rfl, hmerged,
        Option.some.injEq] at hs
      subst hs
      have halign := (hinside t (List.mem_of_getElem? ht)).align 8
      exact ⟨halign.shows_append content, halign.append_written hcontent, hvirt, hraw⟩
  · have hlast : (appendSection l (.new name flags content)).1[l.length]? =
        some (.new name flags content) := by
      rw [h, List.getElem?_append_right (Nat.le_refl _), Nat.sub_self]
      rfl
    refine ⟨l.length, 0, ⟨.new name flags content, .empty, hlast, rfl, ?_⟩, fun s hs => ?_,
      fun _ s hs => ?_⟩
    · rw [Buffer.empty_append]
      exact .refl _
    · rw [List.getElem?_eq_none (Nat.le_refl _)] at hs
      exact nomatch hs
    · rw [hlast, Option.some.injEq] at hs
      subst hs
      exact ⟨.refl _, hcontent, rfl, rfl⟩

/-! ## What is generated -/

/-- Whether the encoding generates the data directory of the image. -/
def Image.Generates (image : Image) : DirectorySlot → Prop
  | .exportTable => image.exports.isSome
  | .importTable => image.imports.getD [] ≠ []
  | .resourceTable => image.resources.isSome
  | .tlsTable => image.tls.isSome
  | .baseRelocationTable => image.relocations.isSome
  | _ => False

/-- The data directory of the image is encoded to the buffer, in a context with the encoder and the
start of the image of `c`. -/
def Image.Encodes (image : Image) (c : Context) (now : UInt32) (b : Buffer) : DirectorySlot → Prop
  | .exportTable => ∃ dir c₁ c₂, image.exports = some dir ∧ c.Keeps c₁ ∧
      encodeExports c₁ dir now = .ok (b, c₂)
  | .importTable => ∃ dirs c₁ tables c₂, image.imports = some dirs ∧ c.Keeps c₁ ∧
      encodeImports c₁ dirs = .ok (b, tables, c₂)
  | .resourceTable => ∃ root c₁ c₂, image.resources = some root ∧ c.Keeps c₁ ∧
      encodeResources c₁ root = .ok (b, c₂)
  | .tlsTable => ∃ tls c₁ callbacks c₂, image.tls = some tls ∧ c.Keeps c₁ ∧
      encodeTls c₁ tls = .ok (b, callbacks, c₂)
  | .baseRelocationTable => ∃ tables, image.relocations = some tables ∧ tables ≠ [] ∧
      Assembly.encodeRelocations c.encoder tables = .ok b
  | _ => False

/-- The second image describes the same directories, those of the given slots apart. -/
structure Image.SameBut (image image' : Image) (slots : List DirectorySlot) : Prop where
  exports : image'.exports = image.exports
  resources : image'.resources = image.resources
  tls : image'.tls = image.tls
  imports : .importTable ∉ slots → image'.imports = image.imports
  relocations : .baseRelocationTable ∉ slots → image'.relocations = image.relocations

theorem Image.SameBut.refl (image : Image) (slots : List DirectorySlot) :
    image.SameBut image slots :=
  ⟨rfl, rfl, rfl, fun _ => rfl, fun _ => rfl⟩

theorem Image.SameBut.trans {image₁ image₂ image₃ : Image} {slots slots' : List DirectorySlot}
    (h : image₁.SameBut image₂ slots) (h' : image₂.SameBut image₃ slots') :
    image₁.SameBut image₃ (slots ++ slots') where
  exports := h'.exports.trans h.exports
  resources := h'.resources.trans h.resources
  tls := h'.tls.trans h.tls
  imports hn := by
    rw [List.mem_append, not_or] at hn
    exact (h'.imports hn.2).trans (h.imports hn.1)
  relocations hn := by
    rw [List.mem_append, not_or] at hn
    exact (h'.relocations hn.2).trans (h.relocations hn.1)

theorem Image.SameBut.generates {image image' : Image} {slots : List DirectorySlot}
    (h : image.SameBut image' slots) {slot : DirectorySlot} (hslot : slot ∉ slots) :
    image'.Generates slot ↔ image.Generates slot := by
  cases slot <;> simp only [Generates]
  · rw [h.exports]
  · rw [h.imports hslot]
  · rw [h.resources]
  · rw [h.relocations hslot]
  · rw [h.tls]

theorem Image.SameBut.encodes {image image' : Image} {slots : List DirectorySlot}
    (h : image.SameBut image' slots) {c : Context} {now : UInt32} {b : Buffer}
    {slot : DirectorySlot} (hslot : slot ∉ slots) :
    image'.Encodes c now b slot ↔ image.Encodes c now b slot := by
  cases slot <;> simp only [Encodes]
  · rw [h.exports]
  · rw [h.imports hslot]
  · rw [h.resources]
  · rw [h.relocations hslot]
  · rw [h.tls]

/-- The encoder and the start of the image are the same in all contexts of an assembly. -/
theorem Image.Encodes.keeps {image : Image} {c c' : Context} {now : UInt32} {b : Buffer}
    {slot : DirectorySlot} (h : image.Encodes c now b slot) (hkeeps : c'.Keeps c) :
    image.Encodes c' now b slot := by
  cases slot <;> simp only [Encodes] at h ⊢
  · obtain ⟨dir, c₁, c₂, hdir, hc, hb⟩ := h
    exact ⟨dir, c₁, c₂, hdir, hkeeps.trans hc, hb⟩
  · obtain ⟨dirs, c₁, tables, c₂, hdirs, hc, hb⟩ := h
    exact ⟨dirs, c₁, tables, c₂, hdirs, hkeeps.trans hc, hb⟩
  · obtain ⟨root, c₁, c₂, hroot, hc, hb⟩ := h
    exact ⟨root, c₁, c₂, hroot, hkeeps.trans hc, hb⟩
  · rw [← hkeeps.1]
    exact h
  · obtain ⟨tls, c₁, callbacks, c₂, htls, hc, hb⟩ := h
    exact ⟨tls, c₁, callbacks, c₂, htls, hkeeps.trans hc, hb⟩

/-! ## What a run of steps adds -/

/-- A data directory that has been generated, and where it stands: the section and the offset in
it. -/
structure GeneratedDirectory where
  slot : DirectorySlot
  content : Buffer
  /-- A label of its first byte. -/
  label : String
  index : Nat
  offset : Nat

namespace Assembly

/-- The second assembly continues the first, with these data directories added.  They are the ones of
the given slots that the image has; each stands behind everything that its section had before, and
behind those that were added to the section before it. -/
structure Directories (a a' : Assembly) (slots : List DirectorySlot) (l : List GeneratedDirectory) :
    Prop where
  continues : a.Continues a'
  now : a'.now = a.now
  same : a.image.SameBut a'.image slots
  others : ∀ slot, slot ∉ slots → a'.image.directory? slot = a.image.directory? slot
  tables : .importAddressTable ∉ slots → a'.tablesInPlace = a.tablesInPlace
  among : ∀ x ∈ l, x.slot ∈ slots
  places : ∀ x ∈ l, a'.image.directory? x.slot =
    some ⟨a.context.rva (.label x.label), .ofSize x.content.virtSize⟩
  labels : ∀ x ∈ l, (x.label, 0) ∈ x.content.exports
  stands : ∀ x ∈ l, StandsIn a'.image.sections x.index x.offset x.content
  behind : ∀ x ∈ l, ∀ s, a.image.sections[x.index]? = some s → s.content.virtSize ≤ x.offset
  inside : ∀ x ∈ l, x.content.FieldsInside
  hosts : (∀ s ∈ a.image.sections, s.content.FieldsInside) → ∀ x ∈ l, ∀ s,
    a'.image.sections[x.index]? = some s → s.Hosts x.offset x.content
  apart : l.Pairwise fun x y => x.index = y.index → x.offset + x.content.virtSize ≤ y.offset
  encoded : ∀ x ∈ l, ∃ b, a'.image.Encodes a.context a.now b x.slot ∧ b.Labelled x.content
  complete : ∀ slot ∈ slots, a'.image.Generates slot → ∃ x ∈ l, x.slot = slot

/-- **Two runs of steps after each other**, for different slots. -/
theorem Directories.trans {a b c : Assembly} {slots slots' : List DirectorySlot}
    {l l' : List GeneratedDirectory} (hab : a.Directories b slots l)
    (hbc : b.Directories c slots' l') (hslots : ∀ slot ∈ slots, slot ∉ slots') :
    a.Directories c (slots ++ slots') (l ++ l') where
  continues := hab.continues.trans hbc.continues
  now := hbc.now.trans hab.now
  same := hab.same.trans hbc.same
  others slot hn := by
    rw [List.mem_append, not_or] at hn
    rw [hbc.others slot hn.2, hab.others slot hn.1]
  tables hn := by
    rw [List.mem_append, not_or] at hn
    rw [hbc.tables hn.2, hab.tables hn.1]
  among x hx := by
    rw [List.mem_append] at hx ⊢
    exact hx.imp (hab.among x) (hbc.among x)
  places x hx := by
    have hstart : b.context.start = a.context.start := hab.continues.context.2
    rcases List.mem_append.1 hx with hx | hx
    · rw [hbc.others _ (hslots _ (hab.among x hx)), hab.places x hx]
    · rw [hbc.places x hx, Context.rva, Context.rva, hstart]
  labels x hx := (List.mem_append.1 hx).elim (hab.labels x) (hbc.labels x)
  stands x hx := by
    rcases List.mem_append.1 hx with hx | hx
    · exact (hab.stands x hx).grows hbc.continues.sections
    · exact hbc.stands x hx
  behind x hx s hs := by
    rcases List.mem_append.1 hx with hx | hx
    · exact hab.behind x hx s hs
    · obtain ⟨t, ht, hgrows⟩ := hab.continues.sections _ _ hs
      exact Nat.le_trans hgrows.content.virtSize_le (hbc.behind x hx t ht)
  inside x hx := (List.mem_append.1 hx).elim (hab.inside x) (hbc.inside x)
  hosts hinside x hx s hs := by
    rcases List.mem_append.1 hx with hx | hx
    · obtain ⟨t, -, ht, -⟩ := hab.stands x hx
      obtain ⟨t', ht', hgrows⟩ := hbc.continues.sections _ _ ht
      rw [hs, Option.some.injEq] at ht'
      subst ht'
      exact (hab.hosts hinside x hx t ht).grows hgrows
    · exact hbc.hosts (hab.continues.inside hinside) x hx s hs
  apart := by
    refine List.pairwise_append.2 ⟨hab.apart, hbc.apart, fun x hx y hy hxy => ?_⟩
    obtain ⟨t, -, ht, -⟩ := hab.stands x hx
    exact Nat.le_trans ((hab.stands x hx).le ht) (hbc.behind y hy t (hxy ▸ ht))
  encoded x hx := by
    rcases List.mem_append.1 hx with hx | hx
    · obtain ⟨b, hb, hlabelled⟩ := hab.encoded x hx
      exact ⟨b, (hbc.same.encodes (hslots _ (hab.among x hx))).2 hb, hlabelled⟩
    · obtain ⟨b, hb, hlabelled⟩ := hbc.encoded x hx
      rw [hab.now] at hb
      exact ⟨b, hb.keeps hab.continues.context, hlabelled⟩
  complete slot hslot hgenerates := by
    rcases List.mem_append.1 hslot with hslot | hslot
    · obtain ⟨x, hx, heq⟩ := hab.complete slot hslot
        ((hbc.same.generates (hslots slot hslot)).1 hgenerates)
      exact ⟨x, List.mem_append_left _ hx, heq⟩
    · obtain ⟨x, hx, heq⟩ := hbc.complete slot hslot hgenerates
      exact ⟨x, List.mem_append_right _ hx, heq⟩

/-- Where the image has none of the directories, nothing is added. -/
theorem directories_none {a a' : Assembly} {slots : List DirectorySlot} (hc : a.Continues a')
    (hnow : a'.now = a.now) (hsame : a.image.SameBut a'.image slots)
    (hothers : ∀ slot, slot ∉ slots → a'.image.directory? slot = a.image.directory? slot)
    (htables : .importAddressTable ∉ slots → a'.tablesInPlace = a.tablesInPlace)
    (hnone : ∀ slot ∈ slots, ¬ a'.image.Generates slot) : a.Directories a' slots [] where
  continues := hc
  now := hnow
  same := hsame
  others := hothers
  tables := htables
  among _ hx := nomatch hx
  places _ hx := nomatch hx
  labels _ hx := nomatch hx
  stands _ hx := nomatch hx
  behind _ hx := nomatch hx
  inside _ hx := nomatch hx
  hosts _ _ hx := nomatch hx
  apart := .nil
  encoded _ hx := nomatch hx
  complete slot hslot h := absurd h (hnone slot hslot)

theorem lookup_updateFirst_of_ne {α β : Type} [BEq α] [LawfulBEq α] {k k' : α} (hne : k' ≠ k)
    (v : β) (l : List (α × β)) : (updateFirst (fun (e : α × β) => e.1 == k) (k, v)
      (fun _ => ((k, v), ())) l).1.lookup k' = l.lookup k' := by
  have hk : (k' == k) = false := beq_false_of_ne hne
  induction l with
  | nil =>
    show List.lookup k' [(k, v)] = none
    rw [List.lookup_cons, hk]
    rfl
  | cons e rest ih =>
    rw [updateFirst]
    split
    · next h =>
      obtain rfl : e.1 = k := by simpa using h
      show List.lookup k' ((e.1, v) :: rest) = _
      rw [List.lookup_cons, hk, List.lookup_cons, hk]
    · rw [List.lookup_cons, List.lookup_cons, ih]

/-- Giving a data directory a place keeps the others. -/
theorem directory?_setDirectory_of_ne (image : Image) {slot other : DirectorySlot}
    (hne : other ≠ slot) (place : DataDirectory) :
    (image.setDirectory slot place).directory? other = image.directory? other :=
  lookup_updateFirst_of_ne hne place image.directories

/-- **A directory is labelled and put into a section**, with more behind it at most. -/
theorem directories_addDirectory {a a₀ a' : Assembly} {slot : DirectorySlot} {b content : Buffer}
    {hint name : String} {flags : SectionFlags} (hc : a.Continues a₀) (hnow : a₀.now = a.now)
    (hdirectories : a₀.image.directories = a.image.directories)
    (htables : a₀.tablesInPlace = a.tablesInPlace) (hsame : a.image.SameBut a₀.image [slot])
    (h : ((a₀.setDirectory slot b hint).1.addSection (.new name flags content)).result = .ok a')
    (hcontent : (a₀.setDirectory slot b hint).2.Grows content) (hinside : b.FieldsInside)
    (hwritten : content.FieldsWritten)
    (hencodes : a₀.image.Encodes a.context a.now b slot) :
    ∃ x, x.slot = slot ∧ b.Labelled x.content ∧ a.Directories a' [slot] [x] := by
  have hcontinues := (hc.trans (continues_setDirectory a₀ slot b hint)).trans
    (continues_addSection h hwritten)
  obtain ⟨i, o, hstands, hbehind, hhosts⟩ :=
    exists_standsIn_appendSection a₀.image.sections name flags hwritten
  have hlabel := mem_exports_labelAt a₀.context b 0 hint
  have hlabelled := labelled_labelAt a₀.context b 0 hint
  have hstart : a₀.context.start = a.context.start := hc.context.2
  rw [result_addSection] at h
  cases h
  have hkept : a₀.image.SameBut { (a₀.setDirectory slot b hint).1.image with
      sections := (appendSection a₀.image.sections (.new name flags content)).1 } [] :=
    ⟨rfl, rfl, rfl, fun _ => rfl, fun _ => rfl⟩
  refine ⟨⟨slot, (a₀.context.labelAt b 0 hint).2.2, (a₀.context.labelAt b 0 hint).1, i, o⟩, rfl,
    hlabelled, hcontinues, hnow, hsame.trans hkept, fun other hother => ?_, fun _ => htables,
    List.forall_mem_singleton.2 (List.mem_singleton.2 rfl), List.forall_mem_singleton.2 ?_,
    List.forall_mem_singleton.2 hlabel, List.forall_mem_singleton.2 ?_,
    List.forall_mem_singleton.2 fun s hs => ?_,
    List.forall_mem_singleton.2 (hinside.labelAt _ 0 hint),
    fun hsections => List.forall_mem_singleton.2 fun s hs => ?_,
    List.pairwise_singleton _ _, List.forall_mem_singleton.2
      ⟨b, (hkept.encodes List.not_mem_nil).2 hencodes, hlabelled⟩,
    fun other hother _ => ⟨_, List.mem_singleton.2 rfl, (List.mem_singleton.1 hother).symm⟩⟩
  · have hne : other ≠ slot := fun heq => hother (List.mem_singleton.2 heq)
    show (a₀.image.setDirectory slot _).directory? other = _
    rw [directory?_setDirectory_of_ne _ hne, Image.directory?, Image.directory?, hdirectories]
  · show (a₀.image.setDirectory slot _).directory? slot = _
    rw [directory?_setDirectory, hlabelled.virtSize_eq, Context.rva, Context.rva, ← hstart]
    rfl
  · obtain ⟨s, front, hs, hfront, hgrows⟩ := hstands
    exact ⟨s, front, hs, hfront, (hcontent.behind front).trans hgrows⟩
  · obtain ⟨t, ht, hgrows⟩ := hc.sections i s hs
    exact Nat.le_trans hgrows.content.virtSize_le (hbehind t ht)
  · have hhost := hhosts (hc.inside hsections) s hs
    exact ⟨hhost.shows.of_grows hcontent, hhost.written, hhost.virtSize, hhost.rawSize⟩

/-! ## The steps -/

section Steps

variable {a a' : Assembly}

theorem directories_addExports (h : a.addExports.result = .ok a') :
    ∃ l, a.Directories a' [.exportTable] l := by
  have hc := continues_addExports h
  rw [addExports.eq_def] at h
  split at h
  · next hnone =>
    cases h
    refine ⟨[], directories_none hc rfl (.refl _ _) (fun _ _ => rfl) (fun _ => rfl) ?_⟩
    simp [Image.Generates, hnone]
  · next dir hdir =>
    simp only [Logged.bind_eq_ok, Logged.result_liftM, Prod.exists] at h
    obtain ⟨b, c, hb, h⟩ := h
    have hwrites := writes_encodeExports hb
    obtain ⟨x, -, -, hx⟩ := directories_addDirectory (a.continues_context hwrites.keeps) rfl rfl rfl
      (.refl _ _) h (.refl _) (hwrites.written b (by simp)).inside
      ((hwrites.written b (by simp)).labelAt _ 0 _)
      ⟨dir, a.context, c, hdir, .refl _, hb⟩
    exact ⟨[x], hx⟩

theorem directories_addResources (h : a.addResources.result = .ok a') :
    ∃ l, a.Directories a' [.resourceTable] l := by
  have hc := continues_addResources h
  rw [addResources.eq_def] at h
  split at h
  · next hnone =>
    cases h
    refine ⟨[], directories_none hc rfl (.refl _ _) (fun _ _ => rfl) (fun _ => rfl) ?_⟩
    simp [Image.Generates, hnone]
  · next root hroot =>
    simp only [Logged.bind_eq_ok, Logged.result_liftM, Prod.exists] at h
    obtain ⟨b, c, hb, h⟩ := h
    have hwrites := writes_encodeResources hb
    obtain ⟨x, -, -, hx⟩ := directories_addDirectory (a.continues_context hwrites.keeps) rfl rfl rfl
      (.refl _ _) h (.refl _) (hwrites.written b (by simp)).inside
      ((hwrites.written b (by simp)).labelAt _ 0 _)
      ⟨root, a.context, c, hroot, .refl _, hb⟩
    exact ⟨[x], hx⟩

/-- The callbacks stand behind the record that the data directory covers. -/
theorem directories_addTls (h : a.addTls.result = .ok a') :
    ∃ l, a.Directories a' [.tlsTable] l := by
  have hc := continues_addTls h
  rw [addTls.eq_def] at h
  split at h
  · next hnone =>
    cases h
    refine ⟨[], directories_none hc rfl (.refl _ _) (fun _ _ => rfl) (fun _ => rfl) ?_⟩
    simp [Image.Generates, hnone]
  · next tls htls =>
    simp only [Logged.bind_eq_ok, Logged.result_liftM, Prod.exists] at h
    obtain ⟨b, callbacks, c, hb, h⟩ := h
    have hwrites := writes_encodeTls hb
    obtain ⟨x, -, -, hx⟩ := directories_addDirectory (a.continues_context hwrites.keeps) rfl rfl rfl
      (.refl _ _) h (grows_append _ _) (hwrites.written b (by simp)).inside
      (((hwrites.written b (by simp)).labelAt _ 0 _).append (hwrites.written callbacks (by simp)))
      ⟨tls, a.context, callbacks, c, htls, .refl _, hb⟩
    exact ⟨[x], hx⟩

/-- Base relocations are looked for, and those that there are, found or given, are written. -/
theorem directories_relocations {b : Assembly} {options : EncodeOptions}
    (hfind : (a.findRelocations options).result = .ok b) (h : b.addRelocations.result = .ok a') :
    ∃ l, a.Directories a' [.baseRelocationTable] l := by
  have hfound := continues_findRelocations hfind
  have hsame : b.now = a.now ∧ b.image.directories = a.image.directories ∧
      b.tablesInPlace = a.tablesInPlace ∧ a.image.SameBut b.image [.baseRelocationTable] := by
    rw [findRelocations] at hfind
    split at hfind
    · simp only [Logged.bind_eq_ok, Logged.result_pure, Except.ok.injEq] at hfind
      obtain ⟨r, -, rfl⟩ := hfind
      exact ⟨rfl, rfl, rfl, rfl, rfl, rfl, fun _ => rfl, by simp⟩
    · cases hfind
      exact ⟨rfl, rfl, rfl, .refl _ _⟩
  obtain ⟨hnow, hdirectories, htables, hsame⟩ := hsame
  have hc := hfound.trans (continues_addRelocations h)
  rw [addRelocations.eq_def] at h
  split at h
  · next hnone =>
    cases h
    refine ⟨[], directories_none hc hnow hsame (fun _ _ => ?_) (fun _ => htables) ?_⟩
    · rw [Image.directory?, Image.directory?, hdirectories]
    · simp [Image.Generates, hnone]
  · next tables _ =>
    simp only [Logged.bind_eq_ok, Logged.result_liftM] at h
    obtain ⟨content, hcontent, h⟩ := h
    have hencoder : b.context.encoder = a.context.encoder := hfound.context.1
    have hne : (if tables.isEmpty then [⟨.const 0, []⟩] else tables) ≠ [] := by
      split
      · exact List.cons_ne_nil _ _
      · next hempty => simpa using hempty
    generalize (if tables.isEmpty then [⟨.const 0, []⟩] else tables) = written at h hcontent hne
    have hstep : b.Continues { b with image := { b.image with relocations := some written } } :=
      ⟨.refl _, .refl _, rfl, rfl, id, fun _ => id⟩
    obtain ⟨x, -, -, hx⟩ := directories_addDirectory (hfound.trans hstep) hnow hdirectories htables
      ⟨hsame.exports, hsame.resources, hsame.tls, hsame.imports, by simp⟩ h (.refl _)
      (plain_encodeRelocations hcontent).written.inside
      ((plain_encodeRelocations hcontent).written.labelAt _ 0 _)
      ⟨written, rfl, hne, hencoder ▸ hcontent⟩
    exact ⟨[x], hx⟩

end Steps

end Assembly

end PortableImage
