import PortableImage.Proofs.Encode.Stages
import PortableImage.Proofs.Labels.Errors
import PortableImage.Proofs.Labels.Headers

/-!
# Labels that the layout binds

Placing an image binds the start of the image, the labels that the headers leave open, and those of
the sections and of the address tables; that of the checksum is left.  It fails with a duplicate
label only if some label is among them twice, and always if one is.

* `Binding.labels` — the labels that have a value.
* `Twice` — an error about a label that is in a list twice.
* `Binding.Binds` — a computation that binds a list of labels; `Binds.bind` is the sequence of two.
* `binds_place` — what placing binds, in order.
* `Encoding.nodup_definedLabels` — the labels of the sections of an encoded image differ.
-/

set_option autoImplicit false

namespace PortableImage

open Buffer

/-- Where the error is a duplicate label, the label is in the list twice. -/
def Twice (names : List String) (e : EncodeError) : Prop :=
  ∀ l, e = .duplicateBinding l → 2 ≤ names.count l

theorem NotDuplicate.twice {e : EncodeError} (h : NotDuplicate e) (names : List String) :
    Twice names e := fun l hl => absurd hl (h l)

theorem Twice.of_le {names more : List String} {e : EncodeError} (h : Twice names e)
    (hle : ∀ l, names.count l ≤ more.count l) : Twice more e :=
  fun l hl => Nat.le_trans (h l hl) (hle l)

namespace Binding

variable {α β : Type}

/-- The labels that have a value, in the order they were bound. -/
def labels (b : Binding) : List String := b.entries.map (·.1)

theorem isSome_get? {b : Binding} {l : String} : (b.get? l).isSome ↔ l ∈ b.labels := isSome_lookup

/-- A computation that starts from a binding and ends with another: it binds the labels behind those
that have a value, unless one of them is there twice. -/
structure Binds (b : Binding) (names : List String) (reach : α → Binding)
    (r : Except EncodeError α) : Prop where
  labels : ∀ a, r = .ok a → (reach a).labels = b.labels ++ names
  nodup : ∀ a, r = .ok a → b.labels.Nodup → (b.labels ++ names).Nodup
  fails : FailsWith (Twice (b.labels ++ names)) r

/-- Nothing is bound any more. -/
theorem binds_ok (reach : α → Binding) (a : α) : (reach a).Binds [] reach (.ok a) where
  labels a' ha := by
    cases ha
    exact (List.append_nil _).symm
  nodup _ _ hnodup := by rwa [List.append_nil]
  fails := failsWith_ok a

/-- One computation after the other. -/
theorem Binds.bind {b : Binding} {first second : List String} {reach : α → Binding}
    {reach' : β → Binding}
    {x : Except EncodeError α} {f : α → Except EncodeError β} (hx : b.Binds first reach x)
    (hf : ∀ a, x = .ok a → (reach a).Binds second reach' (f a)) :
    b.Binds (first ++ second) reach' (x >>= f) where
  labels c hc := by
    obtain ⟨a, ha, hc⟩ := PortableImage.bind_eq_ok.1 hc
    rw [(hf a ha).labels c hc, hx.labels a ha, List.append_assoc]
  nodup c hc hnodup := by
    obtain ⟨a, ha, hc⟩ := PortableImage.bind_eq_ok.1 hc
    have hfirst := hx.nodup a ha hnodup
    have hboth := (hf a ha).nodup c hc
    rw [hx.labels a ha] at hboth
    rw [← List.append_assoc]
    exact hboth hfirst
  fails := by
    rw [failsWith_bind]
    refine ⟨hx.fails.mono fun e he => he.of_le fun l => ?_, fun a ha => ?_⟩
    · simp only [List.count_append]
      omega
    · have hfails := (hf a ha).fails
      rwa [hx.labels a ha, List.append_assoc] at hfails

/-- A computation behind one that binds nothing. -/
theorem Binds.after {b : Binding} {names : List String} {reach : β → Binding}
    {x : Except EncodeError α} {f : α → Except EncodeError β} (hx : FailsWith NotDuplicate x)
    (hf : ∀ a, x = .ok a → b.Binds names reach (f a)) : b.Binds names reach (x >>= f) := by
  have hnothing : b.Binds [] (fun _ => b) x :=
    ⟨fun _ _ => (List.append_nil _).symm, fun _ _ hnodup => by rwa [List.append_nil],
      hx.mono fun _ he => he.twice _⟩
  exact hnothing.bind hf

/-- A computation with the binding it ends with in its result. -/
theorem Binds.map {b : Binding} {names : List String} {reach : α → Binding} {reach' : β → Binding}
    {x : Except EncodeError α} (hx : b.Binds names reach x) {f : α → β}
    (hf : ∀ a, reach' (f a) = reach a) : b.Binds names reach' (x >>= fun a => .ok (f a)) := by
  have hmap := hx.bind fun a _ => hf a ▸ binds_ok reach' (f a)
  rwa [List.append_nil] at hmap

theorem binds_bind (b : Binding) (name : String) (value : Expr) :
    b.Binds [name] id (b.bind name value) where
  labels b' h := by
    rw [id, labels, (bind_eq_ok h).2, List.map_append]
    rfl
  nodup b' h hnodup := by
    refine hnodup.append (List.nodup_singleton name) (List.disjoint_singleton.2 fun hmem => ?_)
    have hsome := isSome_get?.2 hmem
    rw [(bind_eq_ok h).1] at hsome
    exact nomatch hsome
  fails := by
    unfold bind
    split
    · next hsome =>
      rw [failsWith_error]
      rintro l ⟨⟩
      have hpos := List.count_pos_iff.2 (isSome_get?.1 hsome)
      rw [List.count_append, List.count_singleton_self]
      omega
    · exact failsWith_ok _

theorem binds_bindAll (b : Binding) (pairs : List (String × Expr)) :
    b.Binds (pairs.map (·.1)) id (b.bindAll pairs) := by
  induction pairs generalizing b with
  | nil => exact binds_ok id b
  | cons p rest ih =>
    rw [bindAll_cons]
    exact (b.binds_bind p.1 p.2).bind fun c _ => ih c

theorem binds_bindOption (b : Binding) (label : Option String) (value : Nat) :
    b.Binds label.toList id (b.bindOption label value) := by
  cases label with
  | some name => exact b.binds_bind name _
  | none => exact binds_ok id b

end Binding

open Binding (Binds binds_ok)

/-- The labels of a buffer are bound, and then merged with others. -/
theorem Buffer.binds_merge (s : Buffer) (address : Expr) (b : Binding) :
    b.Binds s.labels id (s.binding address >>= fun exported => b.merge exported) := by
  have hnames : (s.addresses address).map (·.1) = s.labels := by
    rw [addresses, List.map_map]
    rfl
  have hmerge : ∀ exported, s.binding address = .ok exported →
      b.Binds s.labels id (b.merge exported) := fun exported he => by
    have hall := b.binds_bindAll (s.addresses address)
    rwa [hnames, ← binding_eq_ok he] at hall
  refine ⟨fun c hc => ?_, fun c hc => ?_,
    (failsWith_bind _ _).2 ⟨?_, fun exported he => (hmerge exported he).fails⟩⟩
  · obtain ⟨exported, he, hc⟩ := bind_eq_ok.1 hc
    exact (hmerge exported he).labels c hc
  · obtain ⟨exported, he, hc⟩ := bind_eq_ok.1 hc
    exact (hmerge exported he).nodup c hc
  · have hown := (Binding.empty.binds_bindAll (s.addresses address)).fails
    rw [hnames] at hown
    refine hown.mono fun e he => he.of_le fun l => ?_
    rw [show Binding.empty.labels ++ s.labels = s.labels from rfl, List.count_append]
    exact Nat.le_add_left _ _

/-! ## Sections and tables -/

@[simp]
theorem failsWith_placeCursor (c : AddressCursor) (name : String) (fixed : Option Nat) (size : Nat) :
    FailsWith NamesNoLabel (c.place name fixed size).1 := by
  unfold AddressCursor.place
  split
  · simp
  · split <;> simp

/-- What placing a section binds. -/
def placedNames (s : Section) : List String :=
  (s.rawAddressLabel.map (·.name)).toList ++
    (s.content.labels ++ (s.rawSizeLabel.map (·.name)).toList)

theorem binds_placeSection (n : LayoutNumbers) (s : Section) (p : Placement) :
    p.binding.Binds (placedNames s) Placement.binding (placeSection n s p).result := by
  simp only [placeSection, Logged.result_bind, Logged.result_liftM, Logged.result_note,
    Logged.result_pure]
  refine (Binding.binds_bindOption _ _ _).bind fun b₁ _ => .after
    ((failsWith_placeCursor _ _ _ _).mono fun _ he => he.notDuplicate) fun address _ => ?_
  rw [← bind_assoc]
  refine (s.content.binds_merge _ b₁).bind fun b₂ _ => ?_
  exact (b₂.binds_bindOption _ _).map fun _ => rfl

theorem binds_placeSections (n : LayoutNumbers) (l : List Section) (p : Placement) :
    p.binding.Binds (l.flatMap placedNames) Placement.binding (placeSections n l p).result := by
  induction l generalizing p with
  | nil => exact binds_ok Placement.binding p
  | cons s rest ih =>
    simp only [placeSections, Logged.result_bind]
    exact (binds_placeSection n s p).bind fun q _ => ih q

theorem binds_writeTable (base : Nat) (p : Placement) (rva : Nat) (table : Buffer) :
    p.binding.Binds table.labels Placement.binding (writeTable base p rva table) := by
  have hfault : ∀ fault names, p.binding.Binds names Placement.binding (.error (.layout fault)) :=
    fun fault names => ⟨fun _ h => (nomatch h), fun _ h => (nomatch h),
      (failsWith_error _).2 ((namesNoLabel_layout fault).notDuplicate.twice _)⟩
  unfold writeTable
  split
  · exact hfault _ _
  · dsimp only
    split
    · exact hfault _ _
    · rw [← bind_assoc]
      exact (table.binds_merge _ p.binding).map fun _ => rfl

theorem binds_writeTables (base : Nat) (tables : List (Nat × Buffer)) (p : Placement) :
    p.binding.Binds (tables.flatMap fun t => t.2.labels) Placement.binding
      (writeTables base tables p) := by
  induction tables generalizing p with
  | nil => exact binds_ok Placement.binding p
  | cons t rest ih =>
    rw [writeTables]
    exact (binds_writeTable base p t.1 t.2).bind fun q _ => ih q

/-! ## The whole image -/

/-- What placing an image binds, in this order. -/
def boundLabels (h : HeadedImage) (tables : List (Nat × Buffer)) : List String :=
  h.headers.labels ++ ([h.pending.headersSize] ++
    (h.image.sections.flatMap placedNames ++
      ([h.pending.imageSize] ++ (orderedTables tables).flatMap fun t => t.2.labels)))

/-- **Placing an image binds all labels but that of the checksum.** -/
theorem binds_place (h : HeadedImage) (tables : List (Nat × Buffer)) :
    Binding.empty.Binds (boundLabels h tables) Placement.binding (place h tables).result := by
  simp only [place, Logged.result_bind, Logged.result_liftM]
  have hheaders : Binding.empty.Binds h.headers.labels id
      ((h.headers.align (LayoutNumbers.ofHeader h.image.optionalHeader).fileAlignment).binding
        (.ofSize (LayoutNumbers.ofHeader h.image.optionalHeader).base)) := by
    have hall := Binding.empty.binds_bindAll (h.headers.addresses
      (.ofSize (LayoutNumbers.ofHeader h.image.optionalHeader).base))
    rw [addresses, List.map_map] at hall
    exact hall
  exact hheaders.bind fun b₀ _ => (b₀.binds_bind _ _).bind fun b₁ _ =>
    (binds_placeSections _ _ (⟨_, b₁, _, []⟩ : Placement)).bind fun q _ =>
      (q.binding.binds_bind _ _).bind fun b₂ _ =>
        binds_writeTables _ _ ({ q with binding := b₂ } : Placement)

/-- What placing sections binds has the labels of these in order. -/
theorem sublist_placedNames (sections : List Section) :
    (definedLabels sections).Sublist (sections.flatMap placedNames) := by
  induction sections with
  | nil => exact List.nil_sublist _
  | cons s sections ih =>
    have hown : s.content.labels.Sublist (placedNames s) :=
      (List.sublist_append_left _ _).trans (List.sublist_append_right _ _)
    exact hown.append ih

/-- What placing an image binds has the labels of its sections in order. -/
theorem sublist_boundLabels (h : HeadedImage) (tables : List (Nat × Buffer)) :
    (definedLabels h.image.sections).Sublist (boundLabels h tables) :=
  (sublist_placedNames _).trans <| (List.sublist_append_left _ _).trans <|
    (List.sublist_append_right _ _).trans (List.sublist_append_right _ _)

/-- Sections that are continued at their places keep their labels in order. -/
theorem SectionsGrow.sublist_definedLabels {l l' : List Section} (h : SectionsGrow l l') :
    (definedLabels l).Sublist (definedLabels l') := by
  induction l generalizing l' with
  | nil => exact List.nil_sublist _
  | cons s rest ih =>
    obtain ⟨s', hs', hgrows⟩ := h 0 s rfl
    cases l' with
    | nil => exact nomatch hs'
    | cons t rest' =>
      cases hs'
      exact (hgrows.content.exports.map (·.1)).sublist.append (ih fun i => h (i + 1))

/-! ## Where the bound labels come from -/

theorem count_placedNames (sections : List Section) (l : String) :
    (sections.flatMap placedNames).count l =
      (definedLabels sections ++ sections.flatMap Section.fileLabels).count l := by
  induction sections with
  | nil => rfl
  | cons s sections ih =>
    simp only [definedLabels_eq, placedNames, Section.fileLabels, List.flatMap_cons,
      List.count_append] at ih ⊢
    omega

/-- Where the labels of an image with headers come from: the pool `p` has noted them, and has not
noted the label of the checksum. -/
structure HeadedImage.Labelled (image : Image) (options : EncodeOptions) (a : Assembly)
    (h : HeadedImage) (p : LabelPool) : Prop where
  nodup : p.known.Nodup
  pays : (definedLabels image.sections ++ Assembly.importLabels (image.imports.getD [])).Nodup →
    ∀ l, ¬Collides image.pic l → ¬Assembly.StubAdded image options l →
    l ∉ leftoverLabels image.sections →
    (boundLabels h a.tablesInPlace).count l ≤ p.known.count l
  noted : ∀ l ∈ boundLabels h a.tablesInPlace,
    l ∈ p.known ∨ l ∈ Assembly.importLabels (a.image.imports.getD []) ∨
      l ∈ leftoverLabels image.sections
  imports : ∀ l ∈ Assembly.importLabels (a.image.imports.getD []),
    l ∈ p.known ∨ Assembly.StubAdded image options l
  named : ∀ l ∈ p.known, l ∈ definedLabels image.sections ∨
    l ∈ Assembly.importLabels (a.image.imports.getD []) ∨ IsEncoderLabel l
  checksum : ∀ label, h.pending.checksum = some label → label ∉ p.known

/-- **What an image with headers binds has been noted**, with two exceptions: the labels of call stubs
that automatic imports ask for, and those that an earlier encoding has left in sections. -/
theorem Assembly.Labelled.withHeaders {image : Image} {options : EncodeOptions} {a : Assembly}
    {h : HeadedImage} {target : Target} {size : Nat} (hl : Labelled image options a)
    (hleft : ∀ l ∈ leftoverLabels a.image.sections, l ∈ leftoverLabels image.sections)
    (hh : a.withHeaders target = .ok h) (hlays : h.Lays a target size) :
    ∃ p, h.Labelled image options a p := by
  obtain ⟨p, hbrings, hchecksum⟩ := brings_withHeaders (X := fun _ => False) hh
  have htables := (hbrings.frame (a.tablesInPlace.flatMap fun t => t.2.labels)).frame
    [a.context.start]
  -- the order of binding does not count
  have hcount : ∀ l, (boundLabels h a.tablesInPlace).count l ≤
      (h.labelNames ++ (a.tablesInPlace.flatMap fun t => t.2.labels) ++ [a.context.start]).count l :=
    fun l => by
    have hsections := count_placedNames h.image.sections l
    have hordered := ((perm_sortBy (fun t u => t.1 ≤ u.1) a.tablesInPlace).flatMap_right
      fun t => t.2.labels).count_eq l
    have hheaders : h.headers.labels = [a.context.start] := by
      rw [Buffer.labels, hlays.exports]
      rfl
    simp only [boundLabels, HeadedImage.labelNames, PendingHeader.names, orderedTables, hheaders,
      List.count_append, List.count_cons, List.count_nil] at hsections hordered ⊢
    omega
  have hused : ∀ l, (a.context.start :: a.labels).count l + (leftoverLabels a.image.sections).count l =
      (definedLabels a.image.sections ++ leftoverLabels a.image.sections ++
        (a.tablesInPlace.flatMap fun t => t.2.labels) ++ [a.context.start]).count l := fun l => by
    simp only [Assembly.labels, List.count_append, List.count_cons, List.count_nil]
    omega
  refine ⟨p,
    { nodup := hbrings.notes.nodup hl.nodup
      pays := fun hnodup l hcollides hstub hnotLeft => ?_
      noted := fun l hmem => ?_
      imports := fun l hmem => (hl.imports l hmem).imp_left fun hmem =>
        hbrings.notes.known.subset hmem
      named := fun l hmem => ?_
      checksum := hchecksum }⟩
  · have hassembled := hl.pays hnodup l hcollides hstub
    have hnone := List.count_eq_zero.2 fun hmem => hnotLeft (hleft l hmem)
    have hpays := htables.pays l id
    have hle := hcount l
    have heq := hused l
    unfold LabelPool.Pays at hpays
    omega
  · have hknown := hbrings.notes.known.subset
    have hpos := List.count_pos_iff.2 hmem
    rcases htables.noted l (List.count_pos_iff.1 (Nat.lt_of_lt_of_le hpos (hcount l))) with hmem | hmem
    · have heq := hused l
      rw [← List.count_pos_iff, ← heq, Nat.add_pos_iff_pos_or_pos, List.count_pos_iff,
        List.count_pos_iff] at hmem
      rcases hmem with hmem | hmem
      · exact (hl.noted l hmem).imp (fun hmem => hknown hmem) .inl
      · exact .inr (.inr (hleft l hmem))
    · exact .inl hmem
  · rcases hbrings.notes.named l hmem with hmem | ⟨hint, hhint, hmem⟩
    · exact hl.named l hmem
    · exact .inr (.inr (isEncoderLabel_of_namedAfter hhint hmem))

namespace Encoding

variable {image : Image} {options : EncodeOptions} {clock : UInt32} {a : Assembly}
  {h : HeadedImage} {q p : Placement} {e : EncodedImage} {size : Nat}
  (enc : Encoding image options clock a h q p e size)

include enc

theorem labelled : ∃ pool, h.Labelled image options a pool :=
  (Assembly.labelled_withDirectories enc.assembled).withHeaders enc.continued.leftoverLabels
    enc.headed enc.lays

theorem labels_binding : p.binding.labels = boundLabels h a.tablesInPlace :=
  (binds_place h a.tablesInPlace).labels p enc.placed

/-- **The labels of the sections of an encoded image differ.** -/
theorem nodup_definedLabels : (definedLabels h.image.sections).Nodup :=
  ((binds_place h a.tablesInPlace).nodup p enc.placed List.nodup_nil).sublist
    (sublist_boundLabels h a.tablesInPlace)

/-- The labels of the sections of the caller differ. -/
theorem nodup_definedLabels_given : (definedLabels image.sections).Nodup := by
  have hheaded : (definedLabels a.image.sections).Sublist (definedLabels h.image.sections) := by
    have hlabelled := enc.lays.sections
    generalize a.image.sections = l, h.image.sections = l' at hlabelled
    induction hlabelled with
    | nil => exact .refl _
    | cons hs _ ih =>
      exact ((Section.content_headed hs).grows.exports.map (·.1)).sublist.append ih
  exact enc.nodup_definedLabels.sublist
    (enc.continued.sections.sublist_definedLabels.trans hheaded)

end Encoding

end PortableImage
