import PortableImage.Proofs.Directory.Slots
import PortableImage.Proofs.Directory.View

/-!
# What an export directory is made of

* `SlotValue` — what the entry of a place in the address table holds.
* `NameAt` — a name in the name table, with its place and its text.
* `ExportsAt`, `exportsAt_encodeExports` — the tables of an export directory have its header, its
  entries and its names.
-/

set_option autoImplicit false

namespace PortableImage

open Buffer Tables

/-! ## What is written -/

/-- The value of the entry of a place: zero, an address relative to the start of the image, or where
the text of a forwarder is. -/
def SlotValue (binding : Binding) (base : LinkValue) (place : String → Nat) (t : Tables)
    (slot : Option Export) (v : LinkValue) : Prop :=
  match slot.map Export.target with
  | none => v = 0
  | some (.address target) => v = target.eval binding.env - base
  | some (.forwarder library symbol) => ∃ o, v = .ofSize (place "nametable" + o) ∧
      t.HasUnder binding "nametable" o (.ofBytes (Text.utf8 (forwarderText library symbol) ++ [0]))

/-- All labels of the address that an export stands for have values. -/
def Slots.Defined (binding : Binding) (slots : Slots) : Prop :=
  ∀ e, some e ∈ slots → ∀ target, e.target = .address target →
    ∀ l ∈ target.labelLeaves, (binding.get? l).isSome

section Write

variable {binding : Binding} {base : LinkValue} {place : String → Nat} {t u t' : Tables}

theorem SlotValue.grows {slot : Option Export} {v : LinkValue}
    (h : SlotValue binding base place t slot v) (hg : Grows (fun _ => binding) t u) :
    SlotValue binding base place u slot v := by
  rw [SlotValue] at h ⊢
  split at h
  · exact h
  · exact h
  · obtain ⟨o, hv, hhas⟩ := h
    exact ⟨o, hv, hhas.grows hg⟩

/-- The entry of one place is a field that gets the value of the place. -/
theorem spells_encodeSlot {slot : Option Export} {entry : Buffer}
    (h : encodeSlot slot t = .ok (entry, t')) (ht : t.Spelled) (hname : "nametable" ∈ t.names) :
    (∀ names, Grows names t t') ∧ ∃ e, entry.Spells t.context.encoder [(.u32, e)] ∧
      ∀ binding base place, t'.Placed binding base place → Slots.Defined binding [slot] →
        ∃ v, e.constantUnder binding = some v ∧ SlotValue binding base place t' slot v := by
  rw [encodeSlot.eq_def] at h
  dsimp only at h
  split at h
  · simp only [bind_eq_ok, pure_eq_ok, Prod.mk.injEq] at h
    obtain ⟨_, hentry, rfl, rfl⟩ := h
    exact ⟨fun _ => .refl _ _, _, spells_encode hentry, fun _ _ _ _ _ => ⟨0, rfl, rfl⟩⟩
  · next e =>
    split at h
    · next target htarget =>
      simp only [bind_eq_ok, pure_eq_ok, Prod.mk.injEq] at h
      obtain ⟨_, hentry, rfl, rfl⟩ := h
      refine ⟨fun _ => .refl _ _, _, spells_encode hentry, fun binding base place hplaced hdefined =>
        ⟨target.eval binding.env - base, ?_, ?_⟩⟩
      · rw [Expr.constantUnder_of_known hplaced.constant (e := t.context.rva target) ?_]
        · show some (target.eval binding.env - binding.env t.context.start) = _
          rw [Binding.env_of_get? hplaced.start]
        · intro l hl
          rcases List.mem_append.1 hl with hl | hl
          · exact hdefined e List.mem_cons_self target htarget l hl
          · rw [List.mem_singleton.1 hl, hplaced.start]
            rfl
      · rw [SlotValue, Option.map_some, htarget]
    · next library symbol htarget =>
      simp only [bind_eq_ok, pure_eq_ok, Prod.mk.injEq] at h
      obtain ⟨_, hentry, rfl, rfl⟩ := h
      let s := Text.utf8 (forwarderText library symbol)
      have hrva : ∀ names, Grows names t (t.rvaEnd "nametable").2 := fun _ => grows_rvaEnd hname
      have htext : ∀ names, Grows names (t.rvaEnd "nametable").2
          ((t.rvaEnd "nametable").2.text "nametable" s) := fun names =>
        grows_text ((hrva names).mem hname) s
      refine ⟨fun names => (hrva names).trans (htext names), _, spells_encode hentry,
        fun binding base place hplaced _ => ⟨_, constantUnder_rvaEnd (hplaced.of_grows (htext _)), ?_⟩⟩
      rw [SlotValue, Option.map_some, htarget]
      refine ⟨_, rfl, ?_⟩
      have hhas : ((t.rvaEnd "nametable").2.text "nametable" s).HasUnder binding "nametable" _ _ :=
        has_text (ht.grows (hrva fun _ => binding)) s
      rw [show (t.rvaEnd "nametable").2 = (t.label "nametable").2 from rfl, virtSize_label] at hhas
      exact hhas

/-- The entries of the address table are fields that get the values of the places. -/
theorem spells_encodeSlots {slots : Slots} {entries : List Buffer}
    (h : encodeSlots slots t = .ok (entries, t')) (ht : t.Spelled) (hname : "nametable" ∈ t.names) :
    (∀ names, Grows names t t') ∧ ∃ r, (concat entries).Spells t.context.encoder r ∧
      ∀ binding base place, t'.Placed binding base place → slots.Defined binding →
        ∃ vs : List LinkValue, r.Becomes binding (vs.map fun v => (.u32, v)) ∧
          List.Forall₂ (SlotValue binding base place t') slots vs := by
  induction slots generalizing t entries with
  | nil =>
    cases h
    exact ⟨fun _ => .refl _ _, [], spells_empty _, fun _ _ _ _ _ => ⟨[], .nil, .nil⟩⟩
  | cons slot slots ih =>
    simp only [encodeSlots, bind_eq_ok, pure_eq_ok, Prod.exists, Prod.mk.injEq] at h
    obtain ⟨_, t₁, h₁, _, t₂, h₂, rfl, rfl⟩ := h
    obtain ⟨hfirst, e, hentry, hvalue⟩ := spells_encodeSlot h₁ ht hname
    have hfirst' := hfirst fun _ => .empty
    obtain ⟨hrest, r, hentries, hvalues⟩ := ih h₂ (ht.grows hfirst') (hfirst'.mem hname)
    rw [hfirst'.context.1] at hentries
    refine ⟨fun names => (hfirst names).trans (hrest names), _, hentry.append hentries,
      fun binding base place hplaced hdefined => ?_⟩
    obtain ⟨v, hv, hslot⟩ := hvalue binding base place (hplaced.of_grows (hrest _))
      fun e he => hdefined e (List.mem_singleton.1 he ▸ List.mem_cons_self)
    obtain ⟨vs, hr, hslots⟩ := hvalues binding base place hplaced fun e he =>
      hdefined e (List.mem_cons_of_mem _ he)
    exact ⟨v :: vs, .cons ⟨rfl, hv⟩ hr, .cons (hslot.grows (hrest _)) hslots⟩

/-- The entries take room only where the texts of forwarders are. -/
theorem virtSize_encodeSlots {slots : Slots} {entries : List Buffer}
    (h : encodeSlots slots t = .ok (entries, t')) {other : String} (hother : other ≠ "nametable") :
    (t'.table other).virtSize = (t.table other).virtSize := by
  induction slots generalizing t entries with
  | nil =>
    cases h
    rfl
  | cons slot slots ih =>
    simp only [encodeSlots, bind_eq_ok, pure_eq_ok, Prod.exists, Prod.mk.injEq] at h
    obtain ⟨_, t₁, h₁, _, t₂, h₂, rfl, rfl⟩ := h
    refine (ih h₂).trans ?_
    rw [encodeSlot.eq_def] at h₁
    dsimp only at h₁
    split at h₁
    · simp only [bind_eq_ok, pure_eq_ok, Prod.mk.injEq] at h₁
      obtain ⟨_, -, rfl, rfl⟩ := h₁
      rfl
    · split at h₁ <;> simp only [bind_eq_ok, pure_eq_ok, Prod.mk.injEq] at h₁ <;>
        obtain ⟨_, -, rfl, rfl⟩ := h₁
      · rfl
      · rw [virtSize_text_of_ne _ hother]
        exact virtSize_label t "nametable" other

/-- What the tables have of a name: its place, and the address of its text. -/
def NameAt (binding : Binding) (place : String → Nat) (t : Tables) (ordinals pointers : Nat)
    (name : String × Nat) : Prop :=
  ∃ o, t.HasUnder binding "ord_table" ordinals [(.u16, .ofSize name.2)] ∧
    t.HasUnder binding "namptable" pointers [(.u32, .ofSize (place "nametable" + o))] ∧
    t.HasUnder binding "nametable" o (.ofBytes (Text.utf8 name.1 ++ [0]))

theorem NameAt.grows {ordinals pointers : Nat} {name : String × Nat}
    (h : NameAt binding place t ordinals pointers name) (hg : Grows (fun _ => binding) t u) :
    NameAt binding place u ordinals pointers name := by
  obtain ⟨o, hordinal, hpointer, htext⟩ := h
  exact ⟨o, hordinal.grows hg, hpointer.grows hg, htext.grows hg⟩

/-- The tables with one name more. -/
def withName (t : Tables) (name : String) (ordinal pointer : Buffer) : Tables :=
  (((t.append "ord_table" ordinal).rvaEnd "nametable").2.append "namptable" pointer).text
    "nametable" (Text.utf8 name)

section Name

variable {e : String × Nat} {ordinal pointer : Buffer}
  (hordinal : t.context.encoder.encode .u16 (.ofSize e.2) = .ok ordinal)
  (hpointer : t.context.encoder.encode .u32
    ((t.append "ord_table" ordinal).rvaEnd "nametable").1 = .ok pointer)

include hordinal in
theorem virtSize_ordinals_withName :
    ((withName t e.1 ordinal pointer).table "ord_table").virtSize =
      (t.table "ord_table").virtSize + 2 := by
  rw [withName, virtSize_text_of_ne _ (by decide), table_append_of_ne _ (by decide), Tables.rvaEnd,
    virtSize_label, table_append_self, virtSize_append, FieldEncoder.virtSize_encode hordinal]
  rfl

include hpointer in
theorem virtSize_pointers_withName :
    ((withName t e.1 ordinal pointer).table "namptable").virtSize =
      (t.table "namptable").virtSize + 4 := by
  rw [withName, virtSize_text_of_ne _ (by decide), table_append_self, virtSize_append,
    Tables.rvaEnd, virtSize_label, table_append_of_ne t (by decide),
    FieldEncoder.virtSize_encode hpointer]
  rfl

include hordinal hpointer

theorem grows_withName (hname : "nametable" ∈ t.names) (hpointers : "namptable" ∈ t.names)
    (hordinals : "ord_table" ∈ t.names) (bindings : String → Binding) :
    Grows bindings t (withName t e.1 ordinal pointer) := by
  have h₁ : Grows bindings t _ := grows_append hordinals (spells_encode hordinal)
  have h₂ := h₁.trans (grows_rvaEnd (h₁.mem hname))
  have h₃ := h₂.trans (grows_append (h₂.mem hpointers) (spells_encode hpointer))
  exact h₃.trans (grows_text (h₃.mem hname) (Text.utf8 e.1))

/-- The new name stands where the tables ended. -/
theorem nameAt_withName (ht : t.Spelled) (hname : "nametable" ∈ t.names)
    (hpointers : "namptable" ∈ t.names) (hordinals : "ord_table" ∈ t.names)
    (hplaced : (withName t e.1 ordinal pointer).Placed binding base place) :
    NameAt binding place (withName t e.1 ordinal pointer) (t.table "ord_table").virtSize
      (t.table "namptable").virtSize e := by
  let t₁ := t.append "ord_table" ordinal
  let t₂ := (t₁.rvaEnd "nametable").2
  let t₃ := t₂.append "namptable" pointer
  have g₁ : Grows (fun _ => binding) t t₁ := grows_append hordinals (spells_encode hordinal)
  have g₂ : Grows (fun _ => binding) t₁ t₂ := grows_rvaEnd (g₁.mem hname)
  have g₁₂ := g₁.trans g₂
  have g₃ : Grows (fun _ => binding) t₂ t₃ :=
    grows_append (g₁₂.mem hpointers) (spells_encode hpointer)
  have g₁₃ := g₁₂.trans g₃
  have g₄ : Grows (fun _ => binding) t₃ (withName t e.1 ordinal pointer) :=
    grows_text (g₁₃.mem hname) _
  refine ⟨(t₁.table "nametable").virtSize, ?_, ?_, ?_⟩
  · have hhas : t₁.HasUnder binding "ord_table" (t.table "ord_table").virtSize
        [(.u16, .ofSize e.2)] := has_append ht (spells_encode hordinal) (.cons ⟨rfl, rfl⟩ .nil)
    exact hhas.grows (g₂.trans (g₃.trans g₄))
  · have hvalue : (t₁.rvaEnd "nametable").1.constantUnder binding = _ :=
      constantUnder_rvaEnd (hplaced.of_grows (g₃.trans g₄))
    have hhas : t₃.HasUnder binding "namptable" (t₂.table "namptable").virtSize
        [(.u32, .ofSize (place "nametable" + (t₁.table "nametable").virtSize))] :=
      has_append (ht.grows g₁₂) (spells_encode hpointer) (.cons ⟨rfl, hvalue⟩ .nil)
    have hsize : (t₂.table "namptable").virtSize = (t.table "namptable").virtSize := by
      rw [show t₂ = (t₁.label "nametable").2 from rfl, virtSize_label,
        table_append_of_ne t (by decide)]
    rw [hsize] at hhas
    exact hhas.grows g₄
  · have hhas : (withName t e.1 ordinal pointer).HasUnder binding "nametable" _ _ :=
      has_text (ht.grows g₁₃) (Text.utf8 e.1)
    have hsize : (t₃.table "nametable").virtSize = (t₁.table "nametable").virtSize := by
      rw [table_append_of_ne t₂ (by decide), show t₂ = (t₁.label "nametable").2 from rfl,
        virtSize_label]
    rw [hsize] at hhas
    exact hhas

end Name

theorem encodeNames_cons {e : String × Nat} {names : List (String × Nat)} :
    encodeNames (e :: names) t = .ok t' ↔
      ∃ ordinal, t.context.encoder.encode .u16 (.ofSize e.2) = .ok ordinal ∧
      ∃ pointer, t.context.encoder.encode .u32
          ((t.append "ord_table" ordinal).rvaEnd "nametable").1 = .ok pointer ∧
        encodeNames names (withName t e.1 ordinal pointer) = .ok t' := by
  simp only [encodeNames, bind_eq_ok]
  rfl

theorem grows_encodeNames {bindings : String → Binding} {names : List (String × Nat)}
    (h : encodeNames names t = .ok t') (hname : "nametable" ∈ t.names)
    (hpointers : "namptable" ∈ t.names) (hordinals : "ord_table" ∈ t.names) :
    Grows bindings t t' := by
  induction names generalizing t with
  | nil =>
    cases h
    exact .refl _ _
  | cons e names ih =>
    obtain ⟨ordinal, hordinal, pointer, hpointer, h⟩ := encodeNames_cons.1 h
    have hfirst := grows_withName hordinal hpointer hname hpointers hordinals bindings
    exact hfirst.trans (ih h (hfirst.mem hname) (hfirst.mem hpointers) (hfirst.mem hordinals))

/-- The names stand one behind the other, each with its place and its text. -/
theorem nameAt_encodeNames {names : List (String × Nat)} (h : encodeNames names t = .ok t')
    (ht : t.Spelled) (hname : "nametable" ∈ t.names) (hpointers : "namptable" ∈ t.names)
    (hordinals : "ord_table" ∈ t.names) (hplaced : t'.Placed binding base place) {j : Nat}
    {name : String × Nat} (hj : names[j]? = some name) :
    NameAt binding place t' ((t.table "ord_table").virtSize + 2 * j)
      ((t.table "namptable").virtSize + 4 * j) name := by
  induction names generalizing t j with
  | nil => exact nomatch hj
  | cons e names ih =>
    obtain ⟨ordinal, hordinal, pointer, hpointer, h⟩ := encodeNames_cons.1 h
    have hfirst := grows_withName hordinal hpointer hname hpointers hordinals fun _ => binding
    have hname' := hfirst.mem hname
    have hpointers' := hfirst.mem hpointers
    have hordinals' := hfirst.mem hordinals
    have hrest : Grows (fun _ => binding) _ t' := grows_encodeNames h hname' hpointers' hordinals'
    cases j with
    | zero =>
      obtain rfl : e = name := Option.some.inj hj
      exact (nameAt_withName hordinal hpointer ht hname hpointers hordinals
        (hplaced.of_grows hrest)).grows hrest
    | succ j =>
      have hlast := ih h (ht.grows hfirst) hname' hpointers' hordinals' hj
      rw [virtSize_ordinals_withName hordinal, virtSize_pointers_withName hpointer, Nat.add_assoc,
        Nat.add_assoc] at hlast
      rw [Nat.mul_succ, Nat.mul_succ, Nat.add_comm (2 * j), Nat.add_comm (4 * j)]
      exact hlast

/-- The values of the fields of the header. -/
def headerValues (dir : ExportDirectory) (now : UInt32) (slots : Slots) (place : String → Nat) :
    FieldValues :=
  [(.u32, .ofSize dir.reserved.toNat),
    (.u32, .ofSize (dir.timestamp.getD now).toNat),
    (.u16, .ofSize dir.major.toNat),
    (.u16, .ofSize dir.minor.toNat),
    (.u32, .ofSize (place "libname")),
    (.u32, .ofSize (dir.ordinalBase.getD 1).toNat),
    (.u32, .ofSize slots.length),
    (.u32, .ofSize (dir.exports.countP (·.name.isSome))),
    (.u32, .ofSize (place "addrtable")),
    (.u32, .ofSize (place "namptable")),
    (.u32, .ofSize (place "ord_table"))]

/-- What the tables of an export directory have, once everything has its place. -/
structure ExportsAt (binding : Binding) (base : LinkValue) (place : String → Nat)
    (dir : ExportDirectory) (now : UInt32) (slots : Slots) (t : Tables) : Prop where
  header : t.HasUnder binding "edata" 0 (headerValues dir now slots place)
  library : t.HasUnder binding "libname" 0
    (.ofBytes (Text.utf8 (dir.libraryName.getD defaultLibraryName) ++ [0]))
  values : ∃ vs : List LinkValue, List.Forall₂ (SlotValue binding base place t) slots vs ∧
    t.HasUnder binding "addrtable" 0 (vs.map fun v => (.u32, v))
  names : ∀ j name, (sortBy namedSlotLe (namedSlots 0 slots))[j]? = some name →
    NameAt binding place t (2 * j) (4 * j) name

/-- The tables with the labels that the header refers to. -/
def exportStarts (c : Context) : Tables :=
  let t₁ := ((Tables.new c exportTables).label "libname").2
  let t₂ := (t₁.label "addrtable").2
  let t₃ := (t₂.label "namptable").2
  (t₃.label "ord_table").2

/-- The fields of the header. -/
def headerRecord (c : Context) (dir : ExportDirectory) (now : UInt32) (slots : Slots) : Record :=
  let t₀ := Tables.new c exportTables
  let t₁ := (t₀.label "libname").2
  let t₂ := (t₁.label "addrtable").2
  let t₃ := (t₂.label "namptable").2
  [(.u32, .ofSize dir.reserved.toNat),
    (.u32, .ofSize (dir.timestamp.getD now).toNat),
    (.u16, .ofSize dir.major.toNat),
    (.u16, .ofSize dir.minor.toNat),
    (.u32, c.rva (.label (t₀.label "libname").1)),
    (.u32, .ofSize (dir.ordinalBase.getD 1).toNat),
    (.u32, .ofSize slots.length),
    (.u32, .ofSize (dir.exports.countP (·.name.isSome))),
    (.u32, c.rva (.label (t₁.label "addrtable").1)),
    (.u32, c.rva (.label (t₂.label "namptable").1)),
    (.u32, c.rva (.label (t₃.label "ord_table").1))]

section Starts

variable (c : Context)

theorem mem_exportTables {name : String} (h : name ∈ exportTables) :
    name ∈ (Tables.new c exportTables).names :=
  (names_new c exportTables).symm ▸ h

/-- Labels of starts are all that the tables have at first. -/
theorem grows_exportStarts (bindings : String → Binding) :
    Grows bindings (Tables.new c exportTables) (exportStarts c) :=
  ((((Grows.refl bindings _).label (mem_exportTables c (by decide))).label
    (mem_exportTables c (by decide))).label (mem_exportTables c (by decide))).label
    (mem_exportTables c (by decide))

theorem virtSize_exportStarts (name : String) : ((exportStarts c).table name).virtSize = 0 := by
  rw [exportStarts, virtSize_label, virtSize_label, virtSize_label, virtSize_label, table_new]
  rfl

/-- The fields of the header get their values where the tables are placed. -/
theorem becomes_headerRecord (dir : ExportDirectory) (now : UInt32) (slots : Slots)
    (hplaced : (exportStarts c).Placed binding base place) :
    (headerRecord c dir now slots).Becomes binding (headerValues dir now slots place) := by
  have hkeeps := (grows_exportStarts c fun _ => binding).context
  have hstart : binding.get? c.start = some (.const base) := hkeeps.2 ▸ hplaced.start
  have hrva : ∀ {u : Tables} {name : String},
      Grows (fun _ => binding) (u.label name).2 (exportStarts c) →
      (c.rva (.label (u.label name).1)).constantUnder binding = some (.ofSize (place name)) :=
    fun hg => constantUnder_rva hplaced.constant hstart
      (Located.label (hplaced.located.of_grows hg))
  have hmem : ∀ {u : Tables}, Grows (fun _ => binding) (Tables.new c exportTables) u →
      ∀ name ∈ exportTables, name ∈ u.names := fun hg _ h => hg.mem (mem_exportTables c h)
  have g₁ := (Grows.refl (fun _ => binding) _).label (mem_exportTables c (by decide : "libname" ∈ _))
  have g₂ := g₁.label (mem_exportTables c (by decide : "addrtable" ∈ _))
  have g₃ := g₂.label (mem_exportTables c (by decide : "namptable" ∈ _))
  have h₃ : Grows (fun _ => binding) _ (exportStarts c) := grows_label (hmem g₃ _ (by decide))
  have h₂ := (grows_label (hmem g₂ _ (by decide))).trans h₃
  have h₁ := (grows_label (hmem g₁ _ (by decide))).trans h₂
  exact .cons ⟨rfl, rfl⟩ <| .cons ⟨rfl, rfl⟩ <| .cons ⟨rfl, rfl⟩ <| .cons ⟨rfl, rfl⟩ <|
    .cons ⟨rfl, hrva h₁⟩ <| .cons ⟨rfl, rfl⟩ <| .cons ⟨rfl, rfl⟩ <| .cons ⟨rfl, rfl⟩ <|
    .cons ⟨rfl, hrva h₂⟩ <| .cons ⟨rfl, hrva h₃⟩ <| .cons ⟨rfl, hrva (.refl _ _)⟩ .nil

end Starts

/-- **The export directory is made of tables that have its header, names and addresses.** -/
theorem exportsAt_encodeExports {c c' : Context} {dir : ExportDirectory} {now : UInt32}
    {b : Buffer} (h : encodeExports c dir now = .ok (b, c')) :
    ∃ slots t, assignSlots dir.exports (dir.ordinalBase.getD 1).toNat = .ok slots ∧
      t.Forms b ∧ t.names = exportTables ∧ c.Keeps t.context ∧ 40 ≤ b.virtSize ∧
      ∀ binding base place, t.Placed binding base place → slots.Defined binding →
        ExportsAt binding base place dir now slots t := by
  simp only [encodeExports, bind_eq_ok, pure_eq_ok, Prod.exists, Prod.mk.injEq] at h
  obtain ⟨slots, hslots, header, hheader, entries, t₇, h₇, t₉, h₉, rfl, rfl⟩ := h
  change c.encoder.record (headerRecord c dir now slots) = .ok header at hheader
  let t₄ := exportStarts c
  let t₅ := t₄.append "edata" header
  let t₆ := t₅.text "libname" (Text.utf8 (dir.libraryName.getD defaultLibraryName))
  let t₈ := t₇.append "addrtable" (concat entries)
  let any : String → Binding := fun _ => .empty
  -- every step only adds to the tables
  have g₄ : ∀ names, Grows names (new c exportTables) t₄ := grows_exportStarts c
  have hspelled₄ : t₄.Spelled := (spelled_new c exportTables).grows (g₄ any)
  have hheader₄ : header.Spells t₄.context.encoder (headerRecord c dir now slots) :=
    (g₄ any).context.1.symm ▸ spells_record hheader
  have hmem : ∀ {u : Tables}, u.names = exportTables → ∀ name ∈ exportTables, name ∈ u.names :=
    fun hu _ hname => hu ▸ hname
  have n₄ : t₄.names = exportTables := (g₄ any).names.trans (names_new c exportTables)
  have g₅ : ∀ names, Grows names t₄ t₅ := fun _ => grows_append (hmem n₄ _ (by decide)) hheader₄
  have n₅ := (g₅ any).names.trans n₄
  have g₆ : ∀ names, Grows names t₅ t₆ := fun _ => grows_text (hmem n₅ _ (by decide)) _
  have n₆ := (g₆ any).names.trans n₅
  have hspelled₅ := hspelled₄.grows (g₅ any)
  have hspelled₆ := hspelled₅.grows (g₆ any)
  obtain ⟨g₇, r, hentries, hvalues⟩ := spells_encodeSlots h₇ hspelled₆ (hmem n₆ _ (by decide))
  have n₇ := (g₇ any).names.trans n₆
  have hspelled₇ := hspelled₆.grows (g₇ any)
  have hentries₇ : (concat entries).Spells t₇.context.encoder r :=
    (g₇ any).context.1.symm ▸ hentries
  have g₈ : ∀ names, Grows names t₇ t₈ := fun _ => grows_append (hmem n₇ _ (by decide)) hentries₇
  have n₈ := (g₈ any).names.trans n₇
  have hspelled₈ := hspelled₇.grows (g₈ any)
  have g₉ : ∀ names, Grows names t₈ t₉ := fun _ =>
    grows_encodeNames h₉ (hmem n₈ _ (by decide)) (hmem n₈ _ (by decide)) (hmem n₈ _ (by decide))
  have n₉ := (g₉ any).names.trans n₈
  have g₅₉ : ∀ names, Grows names t₅ t₉ := fun names =>
    (((g₆ names).trans (g₇ names)).trans (g₈ names)).trans (g₉ names)
  have hsize₇ : ∀ name, name ≠ "edata" → name ≠ "libname" → name ≠ "nametable" →
      (t₇.table name).virtSize = 0 := fun name h₁ h₂ h₃ => by
    rw [virtSize_encodeSlots h₇ h₃, virtSize_text_of_ne _ h₂, table_append_of_ne _ h₁]
    exact virtSize_exportStarts c name
  refine ⟨slots, t₉, hslots, ⟨rfl, n₉ ▸ by decide, hspelled₈.grows (g₉ any)⟩, n₉,
    (((g₄ any).trans (g₅ any)).trans (g₅₉ any)).context, ?_,
    fun binding base place hplaced hdefined => ⟨?_, ?_, ?_, fun j name hj => ?_⟩⟩
  · have hheader : (t₅.table "edata").virtSize = (t₄.table "edata").virtSize + 40 := by
      rw [table_append_self, virtSize_append, hheader₄.virtSize_eq]
      rfl
    have hgrown := (g₅₉ any).size "edata"
    have hend := start_add_virtSize_le (hmem n₉ "edata" (by decide))
    omega
  · have hhas : t₅.HasUnder binding "edata" (t₄.table "edata").virtSize
        (headerValues dir now slots place) :=
      has_append hspelled₄ hheader₄ (becomes_headerRecord c dir now slots
        (hplaced.of_grows ((g₅ _).trans (g₅₉ _))))
    rw [virtSize_exportStarts] at hhas
    exact hhas.grows (g₅₉ _)
  · have hhas : t₆.HasUnder binding "libname" (t₅.table "libname").virtSize _ :=
      has_text hspelled₅ (Text.utf8 (dir.libraryName.getD defaultLibraryName))
    rw [table_append_of_ne _ (by decide), virtSize_exportStarts] at hhas
    exact hhas.grows (((g₇ _).trans (g₈ _)).trans (g₉ _))
  · obtain ⟨vs, hr, hslots⟩ :=
      hvalues binding base place (hplaced.of_grows ((g₈ _).trans (g₉ _))) hdefined
    have hhas : t₈.HasUnder binding "addrtable" (t₇.table "addrtable").virtSize _ :=
      has_append hspelled₇ hentries₇ hr
    rw [hsize₇ _ (by decide) (by decide) (by decide)] at hhas
    exact ⟨vs, hslots.imp fun _ _ h => h.grows ((g₈ _).trans (g₉ _)), hhas.grows (g₉ _)⟩
  · have hname := nameAt_encodeNames h₉ hspelled₈ (hmem n₈ _ (by decide)) (hmem n₈ _ (by decide))
      (hmem n₈ _ (by decide)) hplaced hj
    rw [table_append_of_ne _ (by decide), table_append_of_ne _ (by decide),
      hsize₇ _ (by decide) (by decide) (by decide), hsize₇ _ (by decide) (by decide) (by decide),
      Nat.zero_add, Nat.zero_add] at hname
    exact hname

end Write

end PortableImage
