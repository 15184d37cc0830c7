import PortableImage.Proofs.Directory.Deepening

/-!
# The resource directory is made of its tables

The entry of a level leads to a name or has a number, and leads to another level or to a description
of a resource.  All this is in the tables as soon as it is written, except for the places of levels,
which are awaited until the level starts.

* `IdAt`, `ContentAt` — what the tables have of an identifier, and of what an entry leads to.
* `EntriesPending` — what they have of the entries of a level, before the levels below are written.
* `contentAt_encodeBelow` — the levels below are written, and nothing is awaited any more.
* `levelAt_encodeResources` — the directory is made of tables that have the whole tree.
-/

set_option autoImplicit false

namespace PortableImage

open Buffer Tables

/-! ## The bindings of the tables -/

/-- The table of the levels is read with a binding that knows the labels of tables only, so it knows
none of the labels of levels; the other tables are read with one that also knows the start of the
image. -/
def resourceBinding (inner outer : Binding) (name : String) : Binding :=
  if name = "table" then inner else outer

/-- The bindings know where the tables and the image are. -/
structure ResourcesPlaced (inner outer : Binding) (base : LinkValue) (r : Nat)
    (place : String → Nat) (t : Tables) : Prop where
  constant : inner.Constant
  unbound : ∀ l, t.Awaitable l → inner.get? l = none
  located : t.Located inner (base + .ofSize r) place
  first : place "table" = 0
  placed : t.Placed outer base fun name => r + place name

/-- Tables of a resource directory: records spell them, and their labels are in use. -/
structure Tables.OfResources (t : Tables) : Prop where
  spelled : t.Spelled
  names : t.names = resourceTables
  known : ∀ l, t.UsesLabel l → l ∈ t.context.pool.known

theorem Tables.OfResources.mem {t : Tables} (h : t.OfResources) {name : String}
    (hname : name ∈ resourceTables) : name ∈ t.names :=
  h.names ▸ hname

theorem Tables.OfResources.deepens {t u : Tables} {S : List (Option String)} (h : t.OfResources)
    (hd : Deepens S t u) : u.OfResources where
  spelled := hd.spelled h.spelled
  names := hd.names_eq.trans h.names
  known l hl := (hd.labels l hl).elim (fun hold => hd.known l (h.known l hold)) And.right

/-! ## What is written -/

/-- The values of the fields of a name. -/
def nameValues (name : String) : FieldValues :=
  (.u16, .ofSize (Text.utf16 name).length) ::
    (Text.utf16 name).map fun u => (.u16, .ofSize u.toNat)

/-- The values of the fields of a level. -/
def levelValues (info : ResourceInfo) (entries : List (ResourceId × ResourceContent)) :
    FieldValues :=
  [(.u32, .ofSize info.characteristics.toNat),
    (.u32, .ofSize info.timestamp.toNat),
    (.u16, .ofSize info.major.toNat),
    (.u16, .ofSize info.minor.toNat),
    (.u16, .ofSize (entries.countP isNamed)),
    (.u16, .ofSize (entries.length - entries.countP isNamed))]

/-- The values of the fields that describe a resource. -/
def descriptionValues (address : Nat) (bytes : List UInt8) (codepage reserved : UInt32) :
    FieldValues :=
  [(.u32, .ofSize address),
    (.u32, .ofSize bytes.length),
    (.u32, .ofSize codepage.toNat),
    (.u32, .ofSize reserved.toNat)]

/-- The word of an identifier: a number, or where the name is, with the flag. -/
def IdAt (names : String → Binding) (place : String → Nat) (t : Tables) :
    ResourceId → LinkValue → Prop
  | .name name, v => ∃ o, v = .ofSize (place "names" + o) ||| subdirectoryBit ∧
      t.Has names "names" o (nameValues name)
  | .number id, v => v = .ofSize id.toNat

mutual

/-- The word of what an entry leads to: where the description of a resource is, or where a level is,
with the flag. -/
def ContentAt (names : String → Binding) (r : Nat) (place : String → Nat) (t : Tables) :
    ResourceContent → LinkValue → Prop
  | .data bytes codepage reserved, v => ∃ o d, v = .ofSize (place "dataentries" + o) ∧
      t.Has names "dataentries" o (descriptionValues (r + place "data" + d) bytes codepage reserved) ∧
      t.Has names "data" d (.ofBytes bytes)
  | .directory info entries, v => ∃ o, v = .ofSize o ||| subdirectoryBit ∧
      t.Has names "table" o (levelValues info entries) ∧
      EntriesAt names r place t entries (o + 16)

/-- The entries of a level stand one behind the other. -/
def EntriesAt (names : String → Binding) (r : Nat) (place : String → Nat) (t : Tables) :
    List (ResourceId × ResourceContent) → Nat → Prop
  | [], _ => True
  | (id, content) :: rest, o =>
    (∃ v, t.Has names "table" o [(.u32, v)] ∧ IdAt names place t id v) ∧
    (∃ v, t.Has names "table" (o + 4) [(.u32, v)] ∧ ContentAt names r place t content v) ∧
    EntriesAt names r place t rest (o + 8)

end

/-- What the tables have of what an entry leads to, before the levels below are written. -/
def ContentPending (names : String → Binding) (r : Nat) (place : String → Nat) (t : Tables)
    (content : ResourceContent) (label : Option String) (o : Nat) : Prop :=
  match content, label with
  | .directory _ _, some l => t.Awaitable l ∧ t.Awaits o l
  | .directory _ _, none => False
  | .data bytes codepage reserved, _ =>
    ∃ v, t.Has names "table" o [(.u32, v)] ∧
      ContentAt names r place t (.data bytes codepage reserved) v

/-- What the tables have of the entries of a level, before the levels below are written. -/
def EntriesPending (names : String → Binding) (r : Nat) (place : String → Nat) (t : Tables) :
    List (ResourceId × ResourceContent) → List (Option String) → Nat → Prop
  | [], _, _ => True
  | _ :: _, [], _ => False
  | (id, content) :: rest, label :: others, o =>
    (∃ v, t.Has names "table" o [(.u32, v)] ∧ IdAt names place t id v) ∧
    ContentPending names r place t content label (o + 4) ∧
    EntriesPending names r place t rest others (o + 8)

/-! ## What is written stays -/

section Grow

variable {names : String → Binding} {inner outer : Binding} {base : LinkValue} {r : Nat}
  {place : String → Nat} {t u : Tables} {S : List (Option String)}

theorem ResourcesPlaced.back (h : ResourcesPlaced inner outer base r place u)
    (hd : Deepens S t u) :
    ResourcesPlaced inner outer base r place t ∧ Grows (resourceBinding inner outer) t u := by
  have hg : Grows (resourceBinding inner outer) t u :=
    hd.grows _ h.constant fun l hl _ => h.unbound l hl
  exact ⟨⟨h.constant, fun l hl => h.unbound l (hl.deepens hd), h.located.of_grows hg, h.first,
    ⟨h.placed.constant, hg.context.2 ▸ h.placed.start, h.placed.located.of_grows hg⟩⟩, hg⟩

theorem IdAt.grows {id : ResourceId} {v : LinkValue} (h : IdAt names place t id v)
    (hg : Grows names t u) : IdAt names place u id v := by
  cases id with
  | name name =>
    obtain ⟨o, hv, hname⟩ := h
    exact ⟨o, hv, hname.grows hg⟩
  | number id => exact h

mutual

theorem ContentAt.grows {content : ResourceContent} {v : LinkValue}
    (h : ContentAt names r place t content v) (hg : Grows names t u) :
    ContentAt names r place u content v := by
  match content with
  | .data bytes codepage reserved =>
    rw [ContentAt] at h ⊢
    obtain ⟨o, d, hv, hdescription, hbytes⟩ := h
    exact ⟨o, d, hv, hdescription.grows hg, hbytes.grows hg⟩
  | .directory info entries =>
    rw [ContentAt] at h ⊢
    obtain ⟨o, hv, hlevel, hentries⟩ := h
    exact ⟨o, hv, hlevel.grows hg, hentries.grows hg⟩

theorem EntriesAt.grows {entries : List (ResourceId × ResourceContent)} {o : Nat}
    (h : EntriesAt names r place t entries o) (hg : Grows names t u) :
    EntriesAt names r place u entries o := by
  match entries with
  | [] => rw [EntriesAt]; trivial
  | (id, content) :: rest =>
    rw [EntriesAt] at h ⊢
    obtain ⟨⟨v, hid, hv⟩, ⟨w, hcontent, hw⟩, hrest⟩ := h
    exact ⟨⟨v, hid.grows hg, hv.grows hg⟩, ⟨w, hcontent.grows hg, hw.grows hg⟩, hrest.grows hg⟩

end

theorem ContentPending.deepens {content : ResourceContent} {label : Option String} {o : Nat}
    (h : ContentPending (resourceBinding inner outer) r place t content label o)
    (hu : ResourcesPlaced inner outer base r place u) (hd : Deepens S t u)
    (hS : ∀ l, label = some l → some l ∉ S) :
    ContentPending (resourceBinding inner outer) r place u content label o := by
  have hg := (hu.back hd).2
  rw [ContentPending.eq_def] at h ⊢
  split at h
  · obtain ⟨hl, hawaits⟩ := h
    exact ⟨hl.deepens hd, hawaits.deepens hl.known hd (hS _ rfl)⟩
  · exact h
  · obtain ⟨v, hhas, hv⟩ := h
    exact ⟨v, hhas.grows hg, hv.grows hg⟩

theorem EntriesPending.deepens {entries : List (ResourceId × ResourceContent)}
    {labels : List (Option String)} {o : Nat}
    (h : EntriesPending (resourceBinding inner outer) r place t entries labels o)
    (hu : ResourcesPlaced inner outer base r place u) (hd : Deepens S t u)
    (hS : ∀ l, some l ∈ labels → some l ∉ S) :
    EntriesPending (resourceBinding inner outer) r place u entries labels o := by
  have hg := (hu.back hd).2
  induction entries generalizing labels o with
  | nil => trivial
  | cons e rest ih =>
    cases labels with
    | nil => exact h
    | cons label labels =>
      obtain ⟨⟨v, hid, hv⟩, hcontent, hrest⟩ := h
      exact ⟨⟨v, hid.grows hg, hv.grows hg⟩,
        hcontent.deepens hu hd fun l hl => hS l (hl ▸ List.mem_cons_self),
        ih hrest fun l hl => hS l (List.mem_cons_of_mem _ hl)⟩

end Grow

/-! ## One level -/

section Write

variable {inner outer : Binding} {base : LinkValue} {r : Nat} {place : String → Nat}
  {t t' : Tables}

theorem virtSize_offsetEnd (t : Tables) (name first other : String) :
    ((t.offsetEnd name first).2.table other).virtSize = (t.table other).virtSize := by
  show (((t.label name).2.label first).2.table other).virtSize = _
  rw [virtSize_label, virtSize_label]

/-- The table of the levels has an entry behind it. -/
theorem has_entry (ht : t.Spelled) {entry : Buffer} {e : Expr} {v : LinkValue}
    {names : String → Binding} (hentry : entry.Spells t.context.encoder [(.u32, e)])
    (hv : e.constantUnder (names "table") = some v) :
    (t.append "table" entry).Has names "table" (t.table "table").virtSize [(.u32, v)] :=
  has_append ht hentry (.cons ⟨rfl, hv⟩ .nil)

/-- The identifier of an entry is written. -/
theorem idAt_encodeId {id : ResourceId} (h : encodeId id t = .ok t') (ht : t.OfResources) :
    Deepens [] t t' ∧ (t'.table "table").virtSize = (t.table "table").virtSize + 4 ∧
      ∀ inner outer base r place, ResourcesPlaced inner outer base r place t' →
        ∃ v, t'.Has (resourceBinding inner outer) "table" (t.table "table").virtSize [(.u32, v)] ∧
          IdAt (resourceBinding inner outer) place t' id v := by
  have htable : "table" ∈ t.names := ht.mem (by decide)
  have hnames : "names" ∈ t.names := ht.mem (by decide)
  rw [encodeId.eq_def] at h
  dsimp only at h
  split at h
  · next name =>
    simp only [bind_eq_ok, pure_eq_ok] at h
    obtain ⟨text, htext, entry, hentry, rfl⟩ := h
    let t₁ := (t.offsetEnd "names" "table").2
    let t₂ := t₁.append "names" text
    have d₁ : Deepens [] t t₁ := deepens_offsetEnd hnames htable
    have htext₁ : text.Spells t₁.context.encoder (nameValues name).record := by
      rw [d₁.context.1, nameValues, FieldValues.record, List.map_cons, List.map_map]
      exact spells_record htext
    have d₂ : Deepens [] t₁ t₂ :=
      deepens_append (d₁.mem hnames) htext₁ (FieldEncoder.plain_record htext)
    have hentry₂ : entry.Spells t₂.context.encoder _ :=
      (d₁.trans d₂).context.1.symm ▸ spells_encode hentry
    have d₃ : Deepens [] t₂ (t₂.append "table" entry) :=
      deepens_append ((d₁.trans d₂).mem htable) hentry₂ (FieldEncoder.plain_encode hentry)
    have hsize₂ : (t₂.table "table").virtSize = (t.table "table").virtSize := by
      rw [table_append_of_ne t₁ (by decide)]
      exact virtSize_offsetEnd t "names" "table" "table"
    refine ⟨(d₁.trans d₂).trans d₃, ?_, fun inner outer base r place hplaced => ?_⟩
    · rw [table_append_self, virtSize_append, hsize₂, hentry₂.virtSize_eq]
      rfl
    · obtain ⟨hplaced₂, g₃⟩ := hplaced.back d₃
      obtain ⟨hplaced₁, g₂⟩ := hplaced₂.back d₂
      have hvalue :=
        constantUnder_offsetEnd hplaced.constant hnames htable hplaced.first hplaced₁.located
      have hhas : (t₂.append "table" entry).Has (resourceBinding inner outer) "table"
          (t₂.table "table").virtSize _ :=
        has_entry ((d₁.trans d₂).spelled ht.spelled) hentry₂
          (Expr.constantUnder_or hvalue (Expr.constantUnder_const subdirectoryBit inner))
      have hname : t₂.Has (resourceBinding inner outer) "names" (t₁.table "names").virtSize
          (nameValues name) := has_append (d₁.spelled ht.spelled) htext₁ (Record.becomes_record _)
      rw [hsize₂] at hhas
      rw [show (t₁.table "names").virtSize = _ from virtSize_offsetEnd t _ _ _] at hname
      exact ⟨_, hhas, _, rfl, hname.grows g₃⟩
  · next number =>
    simp only [bind_eq_ok, pure_eq_ok] at h
    obtain ⟨entry, hentry, rfl⟩ := h
    have hspells : entry.Spells t.context.encoder _ := spells_encode hentry
    refine ⟨deepens_append htable hspells (FieldEncoder.plain_encode hentry), ?_,
      fun inner outer base r place _ =>
        ⟨_, has_entry ht.spelled hspells (Expr.constantUnder_const _ _), rfl⟩⟩
    rw [table_append_self, virtSize_append, hspells.virtSize_eq]
    rfl

/-- What is written of what an entry leads to.  The place of a level is awaited under the label. -/
structure WritesContent (content : ResourceContent) (label : Option String) (t t' : Tables) :
    Prop where
  deepens : Deepens [] t t'
  size : (t'.table "table").virtSize = (t.table "table").virtSize + 4
  awaited : ∀ l, label = some l → l ∉ t.context.pool.known ∧ t'.Awaitable l
  pending : ∀ inner outer base r place, ResourcesPlaced inner outer base r place t' →
    ContentPending (resourceBinding inner outer) r place t' content label (t.table "table").virtSize

theorem writesContent_directory {info : ResourceInfo}
    {entries : List (ResourceId × ResourceContent)} {label : Option String}
    (h : encodeContent (.directory info entries) t = .ok (label, t')) (ht : t.OfResources) :
    WritesContent (.directory info entries) label t t' := by
  have htable : "table" ∈ t.names := ht.mem (by decide)
  simp only [encodeContent, bind_eq_ok, pure_eq_ok, Prod.mk.injEq] at h
  obtain ⟨entry, hentry, rfl, rfl⟩ := h
  let l := (t.context.fresh "rsrc_curoff").1
  let t₁ : Tables := { t with context := (t.context.fresh "rsrc_curoff").2 }
  have hnew : l ∉ t.context.pool.known := t.context.pool.fresh_notMem "rsrc_curoff"
  have d₁ : Deepens [] t t₁ := deepens_fresh t "rsrc_curoff"
  have hspells : entry.Spells t₁.context.encoder _ := spells_encode hentry
  have d₂ : Deepens [] t₁ (t₁.append "table" entry) :=
    deepens_append (d₁.mem htable) hspells (FieldEncoder.plain_encode hentry)
  have hl₁ : t₁.Awaitable l := by
    refine ⟨?_, fun huses => hnew (ht.known l huses)⟩
    show l ∈ (t.context.pool.fresh "rsrc_curoff").2.known
    rw [LabelPool.known_fresh]
    exact List.mem_cons_self
  have hawaits : (t₁.append "table" entry).Awaits (t₁.table "table").virtSize l := fun w => by
    have hlabel : (Expr.label l).constantUnder (.only l w) = some w := by
      rw [Expr.constantUnder, Expr.bind, Expr.subst, Binding.get?_only]
      rfl
    exact has_entry (d₁.spelled ht.spelled) hspells
      (Expr.constantUnder_or hlabel (Expr.constantUnder_const subdirectoryBit _))
  refine ⟨d₁.trans d₂, ?_, fun l' hl' => ?_, fun inner outer base r place _ => ?_⟩
  · rw [table_append_self, virtSize_append, hspells.virtSize_eq]
    rfl
  · cases hl'
    exact ⟨hnew, hl₁.deepens d₂⟩
  · exact ⟨hl₁.deepens d₂, hawaits⟩

theorem writesContent_data {bytes : List UInt8} {codepage reserved : UInt32} {label : Option String}
    (h : encodeContent (.data bytes codepage reserved) t = .ok (label, t')) (ht : t.OfResources) :
    WritesContent (.data bytes codepage reserved) label t t' := by
  have htable : "table" ∈ t.names := ht.mem (by decide)
  simp only [encodeContent, bind_eq_ok, pure_eq_ok, Prod.mk.injEq] at h
  obtain ⟨description, hdescription, entry, hentry, rfl, rfl⟩ := h
  have hentries : "dataentries" ∈ t.names := ht.mem (by decide)
  have hdata : "data" ∈ t.names := ht.mem (by decide)
  let t₁ := (t.offsetEnd "dataentries" "table").2
  let t₂ := (t₁.rvaEnd "data").2
  let t₃ := t₂.append "dataentries" description
  let t₄ := t₃.extend "data" bytes
  have d₁ : Deepens [] t t₁ := deepens_offsetEnd hentries htable
  have d₂ : Deepens [] t₁ t₂ := deepens_label (d₁.mem hdata)
  have d₁₂ := d₁.trans d₂
  have hdescription₂ : description.Spells t₂.context.encoder _ :=
    d₁₂.context.1.symm ▸ spells_record hdescription
  have d₃ : Deepens [] t₂ t₃ := deepens_append (d₁₂.mem hentries) hdescription₂
    (FieldEncoder.plain_record hdescription)
  have d₁₃ := d₁₂.trans d₃
  have d₄ : Deepens [] t₃ t₄ := deepens_extend (d₁₃.mem hdata) bytes
  have d₁₄ := d₁₃.trans d₄
  have hentry₄ : entry.Spells t₄.context.encoder _ :=
    d₁₄.context.1.symm ▸ spells_encode hentry
  have d₅ : Deepens [] t₄ (t₄.append "table" entry) :=
    deepens_append (d₁₄.mem htable) hentry₄ (FieldEncoder.plain_encode hentry)
  have hsize₂ : ∀ name, (t₂.table name).virtSize = (t.table name).virtSize := fun name => by
    show ((t₁.label "data").2.table name).virtSize = _
    rw [virtSize_label]
    exact virtSize_offsetEnd t "dataentries" "table" name
  have hsize₄ : (t₄.table "table").virtSize = (t.table "table").virtSize := by
    show ((t₃.modify "data" (·.extend bytes)).table "table").virtSize = _
    rw [table_modify_of_ne t₃ (by decide), table_append_of_ne t₂ (by decide), hsize₂]
  refine ⟨d₁₄.trans d₅, ?_, fun l hl => absurd hl (Option.not_mem_none l),
    fun inner outer base r place hplaced => ?_⟩
  · rw [table_append_self, virtSize_append, hsize₄, hentry₄.virtSize_eq]
    rfl
  · obtain ⟨hplaced₄, g₅⟩ := hplaced.back d₅
    obtain ⟨hplaced₃, g₄⟩ := hplaced₄.back d₄
    obtain ⟨hplaced₂, g₃⟩ := hplaced₃.back d₃
    obtain ⟨hplaced₁, g₂⟩ := hplaced₂.back d₂
    have hvalue :=
      constantUnder_offsetEnd hplaced.constant hentries htable hplaced.first hplaced₁.located
    have haddress : (t₁.rvaEnd "data").1.constantUnder outer = _ :=
      constantUnder_rvaEnd hplaced₂.placed
    have hhas₅ : (t₄.append "table" entry).Has (resourceBinding inner outer) "table"
        (t₄.table "table").virtSize _ := has_entry (d₁₄.spelled ht.spelled) hentry₄ hvalue
    have hhas₃ : t₃.Has (resourceBinding inner outer) "dataentries"
        (t₂.table "dataentries").virtSize (descriptionValues
          (r + place "data" + (t₁.table "data").virtSize) bytes codepage reserved) :=
      has_append (d₁₂.spelled ht.spelled) hdescription₂ <|
        .cons ⟨rfl, haddress⟩ <| .cons ⟨rfl, rfl⟩ <| .cons ⟨rfl, rfl⟩ <| .cons ⟨rfl, rfl⟩ .nil
    have hhas₄ : t₄.Has (resourceBinding inner outer) "data" (t₃.table "data").virtSize
        (.ofBytes bytes) := has_extend (d₁₃.spelled ht.spelled) bytes
    have hsize₃ : (t₃.table "data").virtSize = (t₁.table "data").virtSize := by
      rw [table_append_of_ne t₂ (by decide)]
      exact virtSize_label t₁ "data" "data"
    rw [hsize₄] at hhas₅
    rw [hsize₂] at hhas₃
    rw [hsize₃] at hhas₄
    refine ⟨_, hhas₅, ?_⟩
    rw [ContentAt]
    exact ⟨_, _, rfl, hhas₃.grows (g₄.trans g₅), hhas₄.grows g₅⟩

/-- What an entry leads to is written; the place of a level is awaited. -/
theorem writesContent_encodeContent {content : ResourceContent} {label : Option String}
    (h : encodeContent content t = .ok (label, t')) (ht : t.OfResources) :
    WritesContent content label t t' := by
  cases content with
  | directory info entries => exact writesContent_directory h ht
  | data bytes codepage reserved => exact writesContent_data h ht

/-- The labels of the levels below are new, awaited, and different from each other. -/
structure NewLabels (t t' : Tables) (labels : List (Option String)) : Prop where
  new : ∀ l, some l ∈ labels → l ∉ t.context.pool.known
  awaitable : ∀ l, some l ∈ labels → t'.Awaitable l
  apart : labels.Pairwise fun a b => ∀ l, a = some l → b ≠ some l

/-- The entries of a level are written one behind the other. -/
theorem entriesPending_encodeLevelEntries {entries : List (ResourceId × ResourceContent)}
    {labels : List (Option String)} (h : encodeLevelEntries entries t = .ok (labels, t'))
    (ht : t.OfResources) :
    Deepens [] t t' ∧ NewLabels t t' labels ∧
      ∀ inner outer base r place, ResourcesPlaced inner outer base r place t' →
        EntriesPending (resourceBinding inner outer) r place t' entries labels
          (t.table "table").virtSize := by
  induction entries generalizing t labels with
  | nil =>
    cases h
    exact ⟨.refl _, ⟨fun _ hl => (nomatch hl), fun _ hl => (nomatch hl), .nil⟩,
      fun _ _ _ _ _ _ => trivial⟩
  | cons e entries ih =>
    simp only [encodeLevelEntries, bind_eq_ok, pure_eq_ok, Prod.exists, Prod.mk.injEq] at h
    obtain ⟨t₁, h₁, label, t₂, h₂, labels, t₃, h₃, rfl, rfl⟩ := h
    obtain ⟨d₁, hsize₁, hid⟩ := idAt_encodeId h₁ ht
    obtain ⟨d₂, hsize₂, hlabel, hcontent⟩ := writesContent_encodeContent h₂ (ht.deepens d₁)
    obtain ⟨d₃, hlabels, hrest⟩ := ih h₃ ((ht.deepens d₁).deepens d₂)
    refine ⟨(d₁.trans d₂).trans d₃, ⟨fun l hl => ?_, fun l hl => ?_, ?_⟩,
      fun inner outer base r place hplaced => ?_⟩
    · rcases List.mem_cons.1 hl with heq | hl
      · exact fun hold => (hlabel l heq.symm).1 (d₁.known l hold)
      · exact fun hold => hlabels.new l hl ((d₁.trans d₂).known l hold)
    · rcases List.mem_cons.1 hl with heq | hl
      · exact (hlabel l heq.symm).2.deepens d₃
      · exact hlabels.awaitable l hl
    · refine List.pairwise_cons.2 ⟨fun other hother l hl heq => ?_, hlabels.apart⟩
      exact hlabels.new l (heq ▸ hother) (hlabel l hl).2.known
    · obtain ⟨hplaced₂, g₃⟩ := hplaced.back d₃
      obtain ⟨hplaced₁, g₂⟩ := hplaced₂.back d₂
      obtain ⟨v, hhas, hv⟩ := hid inner outer base r place hplaced₁
      have hpending := hcontent inner outer base r place hplaced₂
      have hothers := hrest inner outer base r place hplaced
      rw [hsize₁] at hpending
      rw [hsize₂, hsize₁] at hothers
      exact ⟨⟨v, hhas.grows (g₂.trans g₃), hv.grows (g₂.trans g₃)⟩,
        hpending.deepens hplaced d₃ fun _ _ => List.not_mem_nil, hothers⟩

/-- A level is written: its fields, then its entries. -/
theorem levelAt_encodeLevel {info : ResourceInfo} {entries : List (ResourceId × ResourceContent)}
    {labels : List (Option String)} (h : encodeLevel info entries t = .ok (labels, t'))
    (ht : t.OfResources) :
    Deepens [] t t' ∧ NewLabels t t' labels ∧
      (t.table "table").virtSize + 16 ≤ (t'.table "table").virtSize ∧
      ∀ inner outer base r place, ResourcesPlaced inner outer base r place t' →
        t'.Has (resourceBinding inner outer) "table" (t.table "table").virtSize
          (levelValues info entries) ∧
        EntriesPending (resourceBinding inner outer) r place t' entries labels
          ((t.table "table").virtSize + 16) := by
  simp only [encodeLevel, bind_eq_ok] at h
  obtain ⟨header, hheader, h⟩ := h
  have hspells : header.Spells t.context.encoder (levelValues info entries).record :=
    spells_record hheader
  let t₁ := t.append "table" header
  have d₁ : Deepens [] t t₁ :=
    deepens_append (ht.mem (by decide)) hspells (FieldEncoder.plain_record hheader)
  obtain ⟨d₂, hlabels, hentries⟩ := entriesPending_encodeLevelEntries h (ht.deepens d₁)
  have hsize : (t₁.table "table").virtSize = (t.table "table").virtSize + 16 := by
    rw [table_append_self, virtSize_append, hspells.virtSize_eq]
    rfl
  refine ⟨d₁.trans d₂, ⟨fun l hl hold => hlabels.new l hl (d₁.known l hold), hlabels.awaitable,
    hlabels.apart⟩, hsize ▸ d₂.size "table", fun inner outer base r place hplaced => ?_⟩
  have hhas : t₁.Has (resourceBinding inner outer) "table" (t.table "table").virtSize
      (levelValues info entries) := has_append ht.spelled hspells (Record.becomes_record _)
  have hpending := hentries inner outer base r place hplaced
  rw [table_append_self, virtSize_append, hspells.virtSize_eq] at hpending
  exact ⟨hhas.grows (hplaced.back d₂).2, hpending⟩

/-! ## The levels below -/

mutual

/-- **What is below an entry is written, and the entry leads to it.** -/
theorem contentAt_encodeBelow {content : ResourceContent} {label : Option String} {t t' : Tables}
    (h : encodeBelow content label t = .ok t') (ht : t.OfResources)
    (hlabel : ∀ l, label = some l → t.Awaitable l) :
    Deepens [label] t t' ∧
      ∀ inner outer base r place, ResourcesPlaced inner outer base r place t' → ∀ o,
        ContentPending (resourceBinding inner outer) r place t content label o →
        ∃ v, t'.Has (resourceBinding inner outer) "table" o [(.u32, v)] ∧
          ContentAt (resourceBinding inner outer) r place t' content v := by
  match content, label with
  | .directory info entries, some l =>
    rw [encodeBelow] at h
    simp only [bind_eq_ok, Prod.exists] at h
    obtain ⟨t₁, h₁, labels, t₂, h₂, h₃⟩ := h
    have hl := hlabel l rfl
    obtain ⟨d₁, hsize₁, hstarted⟩ := deepens_startLevel h₁ ht.spelled (ht.mem (by decide)) hl
    obtain ⟨d₂, hlabels, -, hlevel⟩ := levelAt_encodeLevel h₂ (ht.deepens d₁)
    obtain ⟨d₃, hbelow⟩ := entriesAt_encodeAllBelow h₃ ((ht.deepens d₁).deepens d₂)
      hlabels.awaitable hlabels.apart
    refine ⟨((d₁.trans d₂).trans d₃).weaken fun l' hl' => ?_,
      fun inner outer base r place hplaced o hpending => ?_⟩
    · refine (List.mem_append.1 hl').imp_right fun hnew hold => ?_
      exact hlabels.new l' hnew (d₁.known l' hold)
    · obtain ⟨hplaced₂, g₃⟩ := hplaced.back d₃
      obtain ⟨-, g₂⟩ := hplaced₂.back d₂
      obtain ⟨hhas, hentries⟩ := hlevel inner outer base r place hplaced₂
      refine ⟨_, (hstarted o hpending.2 _).grows (g₂.trans g₃), ?_⟩
      rw [ContentAt]
      rw [hsize₁] at hhas hentries
      exact ⟨_, rfl, hhas.grows g₃, hbelow inner outer base r place hplaced _ hentries⟩
  | .directory info entries, none =>
    rw [encodeBelow] at h
    · cases h
      exact ⟨(Deepens.refl t).weaken fun _ hl => (nomatch hl), fun _ _ _ _ _ _ _ hpending =>
        hpending.elim⟩
    · exact fun _ _ _ _ hl => nomatch hl
  | .data bytes codepage reserved, label =>
    rw [encodeBelow] at h
    · cases h
      exact ⟨(Deepens.refl t).weaken fun _ hl => (nomatch hl), fun _ _ _ _ _ _ _ hpending => hpending⟩
    · exact fun _ _ _ hc => nomatch hc

/-- What is below the entries of a level is written, and they lead to it. -/
theorem entriesAt_encodeAllBelow {entries : List (ResourceId × ResourceContent)}
    {labels : List (Option String)} {t t' : Tables}
    (h : encodeAllBelow entries labels t = .ok t') (ht : t.OfResources)
    (hlabels : ∀ l, some l ∈ labels → t.Awaitable l)
    (hapart : labels.Pairwise fun a b => ∀ l, a = some l → b ≠ some l) :
    Deepens labels t t' ∧
      ∀ inner outer base r place, ResourcesPlaced inner outer base r place t' → ∀ o,
        EntriesPending (resourceBinding inner outer) r place t entries labels o →
        EntriesAt (resourceBinding inner outer) r place t' entries o := by
  match entries, labels with
  | (id, content) :: rest, label :: others =>
    rw [encodeAllBelow, bind_eq_ok] at h
    obtain ⟨t₁, h₁, h₂⟩ := h
    obtain ⟨hfirst, hothers⟩ := List.pairwise_cons.1 hapart
    obtain ⟨d₁, hcontent⟩ := contentAt_encodeBelow h₁ ht fun l hl =>
      hlabels l (hl ▸ List.mem_cons_self)
    obtain ⟨d₂, hrest⟩ := entriesAt_encodeAllBelow h₂ (ht.deepens d₁)
      (fun l hl => (hlabels l (List.mem_cons_of_mem _ hl)).deepens d₁) hothers
    refine ⟨d₁.trans d₂, fun inner outer base r place hplaced o hpending => ?_⟩
    obtain ⟨hplaced₁, g₂⟩ := hplaced.back d₂
    obtain ⟨-, g₁⟩ := hplaced₁.back d₁
    obtain ⟨⟨v, hid, hv⟩, hfirstPending, hrestPending⟩ := hpending
    obtain ⟨w, hhas, hw⟩ := hcontent inner outer base r place hplaced₁ _ hfirstPending
    have hrestPending₁ := hrestPending.deepens hplaced₁ d₁ fun l hl hmem =>
      hfirst (some l) hl l (List.mem_singleton.1 hmem).symm rfl
    rw [EntriesAt]
    exact ⟨⟨v, hid.grows (g₁.trans g₂), hv.grows (g₁.trans g₂)⟩, ⟨w, hhas.grows g₂, hw.grows g₂⟩,
      hrest inner outer base r place hplaced _ hrestPending₁⟩
  | [], labels =>
    rw [encodeAllBelow] at h
    · cases h
      refine ⟨?_, fun _ _ _ _ _ _ _ _ => by rw [EntriesAt]; trivial⟩
      exact (Deepens.refl t).weaken fun _ hl => (nomatch hl)
    · exact fun _ _ _ _ _ he => nomatch he
  | (id, content) :: rest, [] =>
    rw [encodeAllBelow] at h
    · cases h
      exact ⟨.refl t, fun _ _ _ _ _ _ _ hpending => hpending.elim⟩
    · exact fun _ _ _ _ _ _ hl => nomatch hl

end

theorem ofResources_new (c : Context) : (Tables.new c resourceTables).OfResources where
  spelled := spelled_new c _
  names := names_new c _
  known l := by
    rintro ⟨name, o, hmem⟩
    rw [table_new] at hmem
    exact nomatch hmem

/-- **The resource directory is made of tables that have the whole tree.** -/
theorem levelAt_encodeResources {c c' : Context} {root : ResourceDirectory} {b : Buffer}
    (h : encodeResources c root = .ok (b, c')) :
    ∃ t, t.Forms b ∧ t.names = resourceTables ∧ c.Keeps t.context ∧ 16 ≤ b.virtSize ∧
      ∀ inner outer base r place, ResourcesPlaced inner outer base r place t →
        t.Has (resourceBinding inner outer) "table" 0
          (levelValues root.sorted.info root.sorted.entries) ∧
        EntriesAt (resourceBinding inner outer) r place t root.sorted.entries 16 := by
  simp only [encodeResources, bind_eq_ok, pure_eq_ok, Prod.exists, Prod.mk.injEq] at h
  obtain ⟨labels, t₁, h₁, t₂, h₂, rfl, rfl⟩ := h
  have ht₀ := ofResources_new c
  obtain ⟨d₁, hlabels, hheader, hlevel⟩ := levelAt_encodeLevel h₁ ht₀
  have ht₁ := ht₀.deepens d₁
  obtain ⟨d₂, hbelow⟩ := entriesAt_encodeAllBelow h₂ ht₁ hlabels.awaitable hlabels.apart
  have ht₂ := ht₁.deepens d₂
  have d₃ : Deepens [] t₂ (t₂.modify "names" (·.align 4)) :=
    deepens_align (ht₂.mem (by decide)) 4
  have ht₃ := ht₂.deepens d₃
  refine ⟨_, ⟨rfl, ht₃.names ▸ by decide, ht₃.spelled⟩, ht₃.names,
    ((d₁.trans d₂).trans d₃).context, ?_, fun inner outer base r place hplaced => ?_⟩
  · have hgrown := (d₂.trans d₃).size "table"
    have hend := start_add_virtSize_le (ht₃.mem (show "table" ∈ resourceTables by decide))
    omega
  obtain ⟨hplaced₂, g₃⟩ := hplaced.back d₃
  obtain ⟨hplaced₁, g₂⟩ := hplaced₂.back d₂
  obtain ⟨hhas, hpending⟩ := hlevel inner outer base r place hplaced₁
  have hentries := hbelow inner outer base r place hplaced₂ _ hpending
  rw [table_new] at hhas hentries
  exact ⟨hhas.grows (g₂.trans g₃), hentries.grows g₃⟩

end Write

end PortableImage
