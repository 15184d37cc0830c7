import PortableImage.Directory.Export
import PortableImage.Proofs.Renaming.Tables

/-!
# The export directory under different names

* `Export.Renamed` — two exports stand for the same, up to names of labels.
* `assignSlots_renamed` — they get the same places.
* `encodeExports_renamed` — the directories are alike up to names.
-/

set_option autoImplicit false

namespace PortableImage

open Tables

variable {W : Renaming}

/-- The exports stand for the same value, up to names, or for the same forwarder. -/
inductive ExportTarget.Renamed (W : Renaming) : ExportTarget → ExportTarget → Prop
  | address {e e' : Expr} (h : e.Renamed W e') : ExportTarget.Renamed W (.address e) (.address e')
  | forwarder (library : String) (symbol : ForwardedSymbol) :
      ExportTarget.Renamed W (.forwarder library symbol) (.forwarder library symbol)

/-- The exports have the same name and ordinal, and stand for the same. -/
structure Export.Renamed (W : Renaming) (e e' : Export) : Prop where
  name : e'.name = e.name
  ordinal : e'.ordinal = e.ordinal
  target : e.target.Renamed W e'.target

/-- The directories have the same fields and exports. -/
structure ExportDirectory.Renamed (W : Renaming) (dir dir' : ExportDirectory) : Prop where
  exports : List.Forall₂ (Export.Renamed W) dir.exports dir'.exports
  fields : dir' = { dir with exports := dir'.exports }

/-- The exports have the same places. -/
abbrev Slots.Renamed (W : Renaming) (slots slots' : Slots) : Prop :=
  List.Forall₂ (Option.Rel (Export.Renamed W)) slots slots'

theorem ExportTarget.Renamed.mono {V : Renaming} {target target' : ExportTarget}
    (h : target.Renamed W target') (hle : W ≤ V) : target.Renamed V target' := by
  cases h with
  | address he => exact .address (he.mono hle)
  | forwarder library symbol => exact .forwarder library symbol

theorem Slots.Renamed.mono {V : Renaming} {slots slots' : Slots} (h : slots.Renamed W slots')
    (hle : W ≤ V) : slots.Renamed V slots' := by
  refine List.Forall₂.imp ?_ h
  rintro _ _ (⟨he⟩ | _)
  · exact .some ⟨he.name, he.ordinal, he.target.mono hle⟩
  · exact .none

/-! ## Places -/

theorem pinExport_renamed (base : Nat) {slots slots' : Slots} (h : slots.Renamed W slots')
    {e e' : Export} (he : e.Renamed W e') (ordinal : Nat) :
    Runs (Slots.Renamed W) (pinExport base slots e ordinal) (pinExport base slots' e' ordinal) := by
  have hgrown : Slots.Renamed W
      (slots ++ List.replicate (ordinal - base + 1 - slots.length) none)
      (slots' ++ List.replicate (ordinal - base + 1 - slots.length) none) :=
    List.rel_append h (List.forall₂_same.2 fun x hx => (List.eq_of_mem_replicate hx) ▸ .none)
  rw [pinExport, pinExport, ← h.length_eq]
  split
  · trivial
  · have htaken : ∀ {slot slot' : Option (Option Export)},
        Option.Rel (Option.Rel (Export.Renamed W)) slot slot' →
        slot.join.isSome = slot'.join.isSome := by
      rintro _ _ (⟨_ | _⟩ | _) <;> rfl
    dsimp only
    rw [htaken (rel_getElem? hgrown (ordinal - base))]
    split
    · trivial
    · exact rel_set hgrown _ (.some he)

theorem pinExports_renamed (base : Nat) {exports exports' : List Export} {slots slots' : Slots}
    (he : List.Forall₂ (Export.Renamed W) exports exports') (h : slots.Renamed W slots') :
    Runs (Slots.Renamed W) (pinExports base exports slots) (pinExports base exports' slots') := by
  induction he generalizing slots slots' with
  | nil => exact h
  | cons he _ ih =>
    rw [pinExports, pinExports, he.ordinal]
    split
    · exact ih h
    · exact (pinExport_renamed base h he _).bind fun _ _ hs => ih hs

theorem fillSlots_renamed {slots slots' : Slots} (h : slots.Renamed W slots')
    {exports exports' : List Export} (he : List.Forall₂ (Export.Renamed W) exports exports') :
    Slots.Renamed W (fillSlots slots exports) (fillSlots slots' exports') := by
  induction h generalizing exports exports' with
  | nil =>
    cases he with
    | nil => exact .nil
    | cons hfirst hrest =>
      rw [fillSlots, fillSlots]
      exact List.rel_map (fun _ _ hx => .some hx) (.cons hfirst hrest)
  | cons hslot hslots ih =>
    cases he with
    | nil =>
      rw [fillSlots, fillSlots]
      exact .cons hslot hslots
    | cons hfirst hrest =>
      cases hslot with
      | none => exact .cons (.some hfirst) (ih hrest)
      | some hpinned => exact .cons (.some hpinned) (ih (.cons hfirst hrest))

/-- **The exports get the same places.** -/
theorem assignSlots_renamed {exports exports' : List Export}
    (h : List.Forall₂ (Export.Renamed W) exports exports') (base : Nat) :
    Runs (Slots.Renamed W) (assignSlots exports base) (assignSlots exports' base) := by
  refine (pinExports_renamed base h .nil).bind fun s s' hs => ?_
  have hfree : List.Forall₂ (Export.Renamed W) (exports.filter (·.ordinal.isNone))
      (exports'.filter (·.ordinal.isNone)) := by
    refine List.rel_filter (fun a b hab => ?_) h
    show a.ordinal.isNone = true ↔ b.ordinal.isNone = true
    rw [hab.ordinal]
  refine fillSlots_renamed hs (rel_sortBy (fun a b c d hab hcd => ?_) hfree)
  rw [nameLe, nameLe, hab.name, hcd.name]

/-- The names are at the same places. -/
theorem namedSlots_renamed {slots slots' : Slots} (h : slots.Renamed W slots') (slot : Nat) :
    namedSlots slot slots' = namedSlots slot slots := by
  induction h generalizing slot with
  | nil => rfl
  | cons hslot _ ih =>
    rw [namedSlots, namedSlots, ih]
    cases hslot with
    | none => rfl
    | some he =>
      rw [Option.bind_some, Option.bind_some, he.name]

theorem length_names_renamed {exports exports' : List Export}
    (h : List.Forall₂ (Export.Renamed W) exports exports') :
    exports'.countP (·.name.isSome) = exports.countP (·.name.isSome) := by
  induction h with
  | nil => rfl
  | cons he _ ih => rw [List.countP_cons, List.countP_cons, ih, he.name]

/-! ## The directory -/

theorem encodeSlot_renamed {slot slot' : Option Export}
    (h : Option.Rel (Export.Renamed W) slot slot') {t t' : Tables} (ht : t.Renamed W t') :
    Runs (Grown W (Results Buffer.Renamed)) (encodeSlot slot t) (encodeSlot slot' t') := by
  cases h with
  | none =>
    rw [encodeSlot.eq_def, encodeSlot.eq_def, ht.encoder]
    refine (FieldEncoder.encode_renamed _ _ (Expr.renamed_const W 0)).bind fun b b' hb => ?_
    exact .refl ⟨hb, ht⟩
  | @some e e' he =>
    obtain ⟨name, target, ordinal⟩ := e
    obtain ⟨name', target', ordinal'⟩ := e'
    obtain ⟨-, -, htarget⟩ := he
    rw [encodeSlot.eq_def, encodeSlot.eq_def, ht.encoder]
    cases htarget with
    | address he =>
      refine (FieldEncoder.encode_renamed _ _ (Context.rva_renamed ht.context.start he)).bind
        fun b b' hb => ?_
      exact .refl ⟨hb, ht⟩
    | forwarder library symbol =>
      obtain ⟨V, hle, hrva, ht₁⟩ := ht.rvaEnd "nametable"
      refine (FieldEncoder.encode_renamed _ _ hrva).bind fun b b' hb => ?_
      exact ⟨V, hle, hb, ht₁.text _ _⟩

theorem encodeSlots_renamed {slots slots' : Slots} (h : slots.Renamed W slots') {t t' : Tables}
    (ht : t.Renamed W t') :
    Runs (Grown W (Results fun V => List.Forall₂ (Buffer.Renamed V))) (encodeSlots slots t)
      (encodeSlots slots' t') := by
  induction slots generalizing W slots' t t' with
  | nil =>
    cases h
    exact .refl ⟨.nil, ht⟩
  | cons slot rest ih =>
    obtain _ | ⟨hslot, hrest⟩ := h
    rw [encodeSlots, encodeSlots]
    refine (encodeSlot_renamed hslot ht).bindGrown fun V x x' hle ⟨hb, ht₁⟩ => ?_
    refine (ih (Slots.Renamed.mono hrest hle) ht₁).bindGrown fun U y y' hle' ⟨hbs, ht₂⟩ => ?_
    exact .refl ⟨.cons (hb.mono hle') hbs, ht₂⟩

theorem encodeNames_renamed (names : List (String × Nat)) {t t' : Tables} (ht : t.Renamed W t') :
    Runs (Grown W Tables.Renamed) (encodeNames names t) (encodeNames names t') := by
  induction names generalizing W t t' with
  | nil => exact .refl ht
  | cons name rest ih =>
    obtain ⟨name, slot⟩ := name
    rw [encodeNames, encodeNames, ht.encoder]
    refine (FieldEncoder.encode_renamed _ _ (Expr.renamed_ofSize W slot)).bind fun b b' hb => ?_
    obtain ⟨V, hle, hrva, ht₁⟩ := (ht.append "ord_table" hb).rvaEnd "nametable"
    refine Runs.grown ?_ hle
    refine (FieldEncoder.encode_renamed _ _ hrva).bind fun c c' hc => ?_
    exact ih ((ht₁.append _ hc).text _ _)

/-- **The directories are alike up to names, or fail in both runs.** -/
theorem encodeExports_renamed {dir dir' : ExportDirectory} (hdir : dir.Renamed W dir')
    {c c' : Context} (hc : c.Renamed W c') {now now' : UInt32} (hnow : now' = now) :
    Runs (Grown W fun V x x' => x.1.Renamed V x'.1 ∧ x.2.Renamed V x'.2)
      (encodeExports c dir now) (encodeExports c' dir' now') := by
  rw [encodeExports, encodeExports, hdir.fields, hnow]
  refine (assignSlots_renamed hdir.exports _).bind fun slots slots' hslots => ?_
  obtain ⟨W₁, l₁, t₁, l₁', t₁', hle₁, heq₁, heq₁', hl₁, ht₁⟩ :=
    ((renamed_new hc exportTables).label "libname").pair
  obtain ⟨W₂, l₂, t₂, l₂', t₂', hle₂, heq₂, heq₂', hl₂, ht₂⟩ := (ht₁.label "addrtable").pair
  obtain ⟨W₃, l₃, t₃, l₃', t₃', hle₃, heq₃, heq₃', hl₃, ht₃⟩ := (ht₂.label "namptable").pair
  obtain ⟨W₄, l₄, t₄, l₄', t₄', hle₄, heq₄, heq₄', hl₄, ht₄⟩ := (ht₃.label "ord_table").pair
  simp only [heq₁, heq₁', heq₂, heq₂', heq₃, heq₃', heq₄, heq₄']
  have hle : W ≤ W₄ := le_trans hle₁ (le_trans hle₂ (le_trans hle₃ hle₄))
  have hrva : ∀ {l l' : String}, W₄.Maps l l' →
      (c.rva (.label l)).Renamed W₄ (c'.rva (.label l')) := fun hl =>
    Context.rva_renamed (hc.start.mono hle) (Expr.renamed_label hl)
  refine Runs.grown ?_ hle
  rw [hc.encoder, ← hslots.length_eq, length_names_renamed hdir.exports]
  refine (FieldEncoder.record_renamed (W := W₄) _ ?_).bind fun header header' hheader => ?_
  · exact .cons ⟨rfl, Expr.renamed_ofSize _ _⟩ <| .cons ⟨rfl, Expr.renamed_ofSize _ _⟩ <|
      .cons ⟨rfl, Expr.renamed_ofSize _ _⟩ <| .cons ⟨rfl, Expr.renamed_ofSize _ _⟩ <|
      .cons ⟨rfl, hrva (hl₁.mono (le_trans hle₂ (le_trans hle₃ hle₄)))⟩ <|
      .cons ⟨rfl, Expr.renamed_ofSize _ _⟩ <| .cons ⟨rfl, Expr.renamed_ofSize _ _⟩ <|
      .cons ⟨rfl, Expr.renamed_ofSize _ _⟩ <| .cons ⟨rfl, hrva (hl₂.mono (le_trans hle₃ hle₄))⟩ <|
      .cons ⟨rfl, hrva (hl₃.mono hle₄)⟩ <| .cons ⟨rfl, hrva hl₄⟩ .nil
  have ht₅ := (ht₄.append "edata" hheader).text "libname"
    (Text.utf8 (dir.libraryName.getD defaultLibraryName))
  refine (encodeSlots_renamed (hslots.mono hle) ht₅).bindGrown fun W₆ x x' hle₆ ⟨hbs, ht₆⟩ => ?_
  rw [namedSlots_renamed hslots]
  refine (encodeNames_renamed _ (ht₆.append "addrtable" (Buffer.Renamed.concat hbs))).bindGrown
    fun W₇ t t' _ ht => ?_
  exact ⟨W₇, le_refl W₇, ht.concat, ht.context⟩

end PortableImage
