import PortableImage.Proofs.Renaming.Binding

/-!
# Buffers under different names

Two buffers that are alike up to names have the same bytes, pending fields and labels at the same
offsets.  Whatever is done to both keeps them alike.

* `OffsetMap.Rel` — two maps have related entries at the same offsets.
* `Buffer.Renamed` — two buffers are alike up to names.
* `Buffer.Renamed.fixup` — writing their pending fields fails for both or for neither.
* `Context.Renamed.labelAt` — the label of an offset of one stands for that of the other.
-/

set_option autoImplicit false

namespace PortableImage

/-! ## Maps from offsets -/

namespace OffsetMap

variable {α β : Type} {R S : α → β → Prop}

/-- The entries are at the same offsets, and related. -/
def Rel (R : α → β → Prop) (m : OffsetMap α) (n : OffsetMap β) : Prop :=
  List.Forall₂ (fun e f => f.1 = e.1 ∧ R e.2 f.2) m.entries n.entries

variable {m m' : OffsetMap α} {n n' : OffsetMap β}

theorem Rel.mono (h : m.Rel R n) (hRS : ∀ a b, R a b → S a b) : m.Rel S n :=
  h.imp fun _ _ he => ⟨he.1, hRS _ _ he.2⟩

theorem rel_empty : (empty : OffsetMap α).Rel R empty := .nil

theorem rel_insertEntry (k : Nat) {v : α} {w : β} (hv : R v w) {l : List (Nat × α)}
    {l' : List (Nat × β)} (h : List.Forall₂ (fun e f => f.1 = e.1 ∧ R e.2 f.2) l l') :
    List.Forall₂ (fun e f => f.1 = e.1 ∧ R e.2 f.2) (insertEntry k v l) (insertEntry k w l') := by
  induction h with
  | nil => exact .cons ⟨rfl, hv⟩ .nil
  | @cons e f rest rest' he hrest ih =>
    obtain ⟨j, a⟩ := e
    obtain ⟨i, b⟩ := f
    obtain ⟨rfl, hab⟩ := he
    rw [insertEntry, insertEntry]
    split
    · exact .cons ⟨rfl, hv⟩ (.cons ⟨rfl, hab⟩ hrest)
    · split
      · exact .cons ⟨rfl, hv⟩ hrest
      · exact .cons ⟨rfl, hab⟩ ih

theorem Rel.insert (h : m.Rel R n) (k : Nat) {v : α} {w : β} (hv : R v w) :
    (m.insert k v).Rel R (n.insert k w) := rel_insertEntry k hv h

theorem Rel.insertAll (h : m.Rel R n) (h' : m'.Rel R n') :
    (m.insertAll m').Rel R (n.insertAll n') := by
  refine List.rel_foldl (R := fun (e : Nat × α) (f : Nat × β) => f.1 = e.1 ∧ R e.2 f.2) ?_ h h'
  rintro x y hxy ⟨j, a⟩ ⟨i, b⟩ ⟨rfl, hab⟩
  exact hxy.insert _ hab

theorem Rel.shift (h : m.Rel R n) (d : Nat) : (m.shift d).Rel R (n.shift d) := by
  refine List.forall₂_map_left_iff.2 (List.forall₂_map_right_iff.2 (h.imp fun e f he => ?_))
  exact ⟨congrArg (· + d) he.1, he.2⟩

theorem Rel.filter (h : m.Rel R n) {p : Nat → α → Bool} {q : Nat → β → Bool}
    (hpq : ∀ k a b, R a b → p k a = q k b) : (m.filter p).Rel R (n.filter q) := by
  refine List.rel_filter ?_ h
  rintro ⟨j, a⟩ ⟨i, b⟩ ⟨rfl, hab⟩
  show p i a = true ↔ q i b = true
  rw [hpq i a b hab]

theorem Rel.dropBelow (h : m.Rel R n) (d : Nat) : (m.dropBelow d).Rel R (n.dropBelow d) := by
  refine List.forall₂_map_left_iff.2 (List.forall₂_map_right_iff.2 ?_)
  refine (List.rel_filter ?_ h).imp fun e f he => ⟨congrArg (· - d) he.1, he.2⟩
  rintro ⟨j, a⟩ ⟨i, b⟩ ⟨rfl, -⟩
  exact Iff.rfl

theorem Rel.isEmpty_eq (h : m.Rel R n) : m.isEmpty = n.isEmpty := by
  rw [isEmpty, isEmpty]
  rw [Rel] at h
  generalize m.entries = l at h
  generalize n.entries = l' at h
  cases h <;> rfl

end OffsetMap

/-! ## Buffers -/

/-- The fields are of one type, and have the same value up to names. -/
structure PendingField.Renamed (W : Renaming) (f f' : PendingField) : Prop where
  target : f.target.Renamed W f'.target
  type : f'.type = f.type
  order : f'.order = f.order

/-- The buffers have the same bytes, and the same pending fields and labels up to names. -/
structure Buffer.Renamed (W : Renaming) (b b' : Buffer) : Prop where
  data : b'.data = b.data
  tail : b'.tail = b.tail
  fields : b.fields.Rel (PendingField.Renamed W) b'.fields
  exports : List.Forall₂ (fun e e' => W.Maps e.1 e'.1 ∧ e'.2 = e.2) b.exports b'.exports

namespace Buffer

variable {W V : Renaming} {a a' b b' : Buffer}

theorem Renamed.mono (h : b.Renamed W b') (hle : W ≤ V) : b.Renamed V b' where
  data := h.data
  tail := h.tail
  fields := h.fields.mono fun _ _ hf => ⟨hf.target.mono hle, hf.type, hf.order⟩
  exports := h.exports.imp fun _ _ he => ⟨he.1.mono hle, he.2⟩

theorem Renamed.virtSize (h : b.Renamed W b') : b'.virtSize = b.virtSize := by
  rw [Buffer.virtSize, Buffer.virtSize, h.data, h.tail]

theorem Renamed.rawSize (h : b.Renamed W b') : b'.rawSize = b.rawSize := by
  rw [Buffer.rawSize, Buffer.rawSize, h.data]

theorem Renamed.contents (h : b.Renamed W b') : b'.contents = b.contents := by
  rw [Buffer.contents, Buffer.contents, h.data, h.tail]

theorem Renamed.isEmpty (h : b.Renamed W b') : b'.isEmpty = b.isEmpty := by
  rw [Buffer.isEmpty, Buffer.isEmpty, h.virtSize]

theorem renamed_ofBytes (W : Renaming) (data : List UInt8) :
    (ofBytes data).Renamed W (ofBytes data) := ⟨rfl, rfl, .nil, .nil⟩

theorem renamed_empty (W : Renaming) : empty.Renamed W empty := renamed_ofBytes W []

theorem renamed_placeholder {e e' : Expr} (h : e.Renamed W e') (type : FieldType)
    (order : ByteOrder) :
    (placeholder e type order).Renamed W (placeholder e' type order) :=
  ⟨rfl, rfl, OffsetMap.rel_empty.insert 0 ⟨h, rfl, rfl⟩, .nil⟩

theorem Renamed.addExport (h : b.Renamed W b') {l l' : String} (hl : W.Maps l l') (offset : Nat) :
    (b.addExport l offset).Renamed W (b'.addExport l' offset) :=
  ⟨h.data, h.tail, h.fields, List.rel_append h.exports (.cons ⟨hl, rfl⟩ .nil)⟩

theorem Renamed.growTo (h : b.Renamed W b') (size : Nat) :
    (b.growTo size).Renamed W (b'.growTo size) :=
  ⟨h.data, by rw [Buffer.growTo, Buffer.growTo, h.virtSize, h.data], h.fields, h.exports⟩

theorem Renamed.align (h : b.Renamed W b') (boundary : Nat) :
    (b.align boundary).Renamed W (b'.align boundary) := by
  rw [Buffer.align, Buffer.align, h.virtSize]
  exact h.growTo _

theorem Renamed.fill (h : b.Renamed W b') : b.fill.Renamed W b'.fill :=
  ⟨h.contents, rfl, h.fields, h.exports⟩

theorem Renamed.extend (h : b.Renamed W b') (bytes : List UInt8) :
    (b.extend bytes).Renamed W (b'.extend bytes) :=
  ⟨congrArg (· ++ bytes) h.contents, rfl, h.fields, h.exports⟩

theorem Renamed.append (ha : a.Renamed W a') (hb : b.Renamed W b') :
    (a ++ b).Renamed W (a' ++ b') where
  data := congrArg₂ (· ++ ·) ha.contents hb.data
  tail := hb.tail
  fields := by
    show (a.fields.insertAll (b.fields.shift a.virtSize)).Rel _
      (a'.fields.insertAll (b'.fields.shift a'.virtSize))
    rw [ha.virtSize]
    exact ha.fields.insertAll (hb.fields.shift _)
  exports := by
    refine List.rel_append ha.exports ?_
    refine List.forall₂_map_left_iff.2 (List.forall₂_map_right_iff.2 (hb.exports.imp ?_))
    intro e e' he
    exact ⟨he.1, by rw [he.2, ha.virtSize]⟩

theorem Renamed.concat {bs bs' : List Buffer} (h : List.Forall₂ (Buffer.Renamed W) bs bs') :
    (concat bs).Renamed W (concat bs') := by
  induction h with
  | nil => exact renamed_empty W
  | cons hb _ ih => exact hb.append ih

theorem Renamed.slice (h : b.Renamed W b') (offset len : Nat) :
    (b.slice offset len).Renamed W (b'.slice offset len) where
  data := by rw [Buffer.slice, Buffer.slice, h.data]
  tail := by rw [Buffer.slice, Buffer.slice, h.data, h.virtSize]
  fields := by
    refine (h.fields.filter fun k f f' hf => ?_).dropBelow offset
    rw [hf.type]
  exports := by
    refine List.forall₂_map_left_iff.2 (List.forall₂_map_right_iff.2 ?_)
    refine (List.rel_filter ?_ h.exports).imp fun e e' he => ⟨he.1, by rw [he.2]⟩
    rintro ⟨l, o⟩ ⟨l', o'⟩ ⟨-, rfl⟩
    exact Iff.rfl

theorem Renamed.patch (h : b.Renamed W b') (offset : Nat) (ha : a.Renamed W a') :
    (b.patch offset a).Renamed W (b'.patch offset a') where
  data := by rw [Buffer.patch, Buffer.patch, h.data, ha.virtSize, ha.contents]
  tail := by rw [Buffer.patch, Buffer.patch, h.data, h.virtSize, ha.virtSize]
  fields := by
    show ((b.fields.filter _).insertAll _).Rel _ ((b'.fields.filter _).insertAll _)
    rw [ha.virtSize]
    refine OffsetMap.Rel.insertAll (h.fields.filter ?_) (ha.fields.shift offset)
    exact fun _ _ _ _ => rfl
  exports := h.exports

theorem Renamed.writeField (h : b.Renamed W b') (offset : Nat) (bytes : List UInt8) :
    (b.writeField offset bytes).Renamed W (b'.writeField offset bytes) where
  data := by rw [Buffer.writeField, Buffer.writeField, h.data]
  tail := by rw [Buffer.writeField, Buffer.writeField, h.data, h.virtSize]
  fields := h.fields.filter fun _ _ _ _ => rfl
  exports := h.exports

/-- The same fields get values, and the same ones. -/
theorem resolvedFields_renamed {c c' : Binding} (hc : c.Renamed W c')
    {l l' : List (Nat × PendingField)}
    (h : List.Forall₂ (fun e f => f.1 = e.1 ∧ PendingField.Renamed W e.2 f.2) l l') :
    resolvedFields c' l' = resolvedFields c l := by
  induction h with
  | nil => rfl
  | @cons e f rest rest' he _ ih =>
    obtain ⟨o, field⟩ := e
    obtain ⟨o', field'⟩ := f
    obtain ⟨rfl, htarget, htype, horder⟩ := he
    rw [resolvedFields, resolvedFields, ← htarget.constantUnder hc, htype, horder, ih]

/-- **Writing pending fields fails for both buffers or for neither.** -/
theorem Renamed.fixup (h : b.Renamed W b') {c c' : Binding} (hc : c.Renamed W c') :
    Runs (Buffer.Renamed W) (b.fixup c) (b'.fixup c') := by
  rw [Buffer.fixup, Buffer.fixup, resolvedFields_renamed hc h.fields]
  refine (Runs.self _).bind fun resolved _ heq => ?_
  cases heq
  refine List.rel_foldl (R := Eq) ?_ h (List.forall₂_refl resolved)
  rintro x x' hx e _ rfl
  exact hx.writeField e.1 e.2

/-- The labels of both get the same addresses, up to names. -/
theorem Renamed.binding (h : b.Renamed W b') {base base' : Expr} (hbase : base.Renamed W base') :
    Runs (Binding.Renamed W) (b.binding base) (b'.binding base') := by
  refine (Binding.renamed_empty W).bindAll ?_
  refine List.forall₂_map_left_iff.2 (List.forall₂_map_right_iff.2 (h.exports.imp ?_))
  rintro ⟨l, o⟩ ⟨l', o'⟩ ⟨hl, rfl⟩
  exact ⟨hl, (hbase.add (Expr.renamed_ofSize W _)).reduce⟩

theorem Renamed.exportAt (h : b.Renamed W b') (offset : Nat) :
    W.MapsOption (b.exportAt offset) (b'.exportAt offset) := by
  rw [Buffer.exportAt, Buffer.exportAt]
  have hexports := h.exports
  generalize b.exports = l at hexports
  generalize b'.exports = l' at hexports
  induction hexports with
  | nil => exact .none
  | @cons e e' rest rest' he _ ih =>
    rw [List.find?_cons, List.find?_cons, he.2]
    cases e.2 == offset with
    | true => exact .some he.1
    | false => exact ih

end Buffer

/-- **The label of an offset of one buffer stands for that of the other.** -/
theorem Context.Renamed.labelAt {W : Renaming} {c c' : Context} (h : c.Renamed W c')
    {b b' : Buffer} (hb : b.Renamed W b') (offset : Nat) (hint hint' : String) :
    Grown W (fun V x x' => V.Maps x.1 x'.1 ∧ x.2.1.Renamed V x'.2.1 ∧ x.2.2.Renamed V x'.2.2)
      (c.labelAt b offset hint) (c'.labelAt b' offset hint') := by
  have hexport := hb.exportAt offset
  simp only [Context.labelAt, LabelPool.labelAt]
  generalize b.exportAt offset = found at hexport ⊢
  generalize b'.exportAt offset = found' at hexport ⊢
  cases hexport with
  | some hl => exact ⟨W, le_refl W, hl, h, hb⟩
  | none =>
    obtain ⟨V, hle, hl, hc⟩ := h.fresh hint hint'
    exact ⟨V, hle, hl, hc, (hb.mono hle).addExport hl offset⟩

end PortableImage
