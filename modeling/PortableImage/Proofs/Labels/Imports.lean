import PortableImage.Encode.Assembly
import PortableImage.Proofs.Directory.AutoImport

/-!
# Labels of imports

An import has a label for its slot and one for its call stub.  Where the caller gives none, a fresh
one is noted; only the label of a call stub that an automatic import asks for is taken as it is.

* `StubRequested` — the symbols whose call stubs automatic imports ask for.
* `Connects` — what giving labels to imports does to the labels of imports.
* `connects_autoImport`, `connects_labelSlots` — automatic imports, and the slots that are left.
-/

set_option autoImplicit false

namespace PortableImage

open LabelPool

/-- The labels of an import: of its slot, and of its call stub. -/
def Import.labels (i : Import) : List String := i.target.toList ++ i.thunk.toList

/-- The labels of the imports of a library. -/
def ImportDirectory.labels (d : ImportDirectory) : List String := d.imports.flatMap Import.labels

theorem importLabels_eq (dirs : List ImportDirectory) :
    Assembly.importLabels dirs = dirs.flatMap ImportDirectory.labels := rfl

/-! ## Giving labels -/

/-- The labels become more: fresh ones, which are noted, and those of the kind `X`. -/
structure Connects (X : String → Prop) (p : LabelPool) (labels : List String) (p' : LabelPool)
    (labels' : List String) : Prop where
  notes : Notes (fun _ => True) p p'
  pays : ∀ l, ¬X l → p.Pays p' labels labels' l
  kept : labels ⊆ labels'
  used : ∀ l ∈ p'.known, l ∈ p.known ∨ l ∈ labels'

variable {X Y : String → Prop} {p q r : LabelPool}

theorem Connects.refl (p : LabelPool) (labels : List String) : Connects X p labels p labels :=
  ⟨.refl p, fun l _ => .refl p labels l, List.Subset.refl _, fun _ h => .inl h⟩

theorem Connects.trans {labels₁ labels₂ labels₃ : List String}
    (hpq : Connects X p labels₁ q labels₂) (hqr : Connects X q labels₂ r labels₃) :
    Connects X p labels₁ r labels₃ where
  notes := hpq.notes.trans hqr.notes
  pays l hl := (hpq.pays l hl).trans (hqr.pays l hl)
  kept := List.Subset.trans hpq.kept hqr.kept
  used l hl := by
    rcases hqr.used l hl with hl | hl
    · exact (hpq.used l hl).imp_right fun h => hqr.kept h
    · exact .inr hl

theorem Connects.mono {labels labels' : List String} (h : Connects X p labels q labels')
    (hXY : ∀ l, X l → Y l) : Connects Y p labels q labels' :=
  ⟨h.notes, fun l hl => h.pays l fun hx => hl (hXY l hx), h.kept, h.used⟩

/-- Other labels in front and behind. -/
theorem Connects.frame {labels labels' : List String} (h : Connects X p labels q labels')
    (before behind : List String) :
    Connects X p (before ++ labels ++ behind) q (before ++ labels' ++ behind) where
  notes := h.notes
  pays l hl := by
    have hpays := h.pays l hl
    unfold Pays at *
    simp only [List.count_append]
    omega
  kept l hl := by
    simp only [List.mem_append] at hl ⊢
    exact hl.imp_left (Or.imp_right fun hl => h.kept hl)
  used l hl := (h.used l hl).imp_right fun h =>
    List.mem_append_left _ (List.mem_append_right _ h)

/-- A fresh label more. -/
theorem connects_fresh (p : LabelPool) (hint : String) :
    Connects X p [] (p.fresh hint).2 [(p.fresh hint).1] where
  notes := p.notes_fresh trivial
  pays l _ := p.pays_fresh hint [] l
  kept := List.nil_subset _
  used l hl := by
    rw [known_fresh] at hl
    exact (List.mem_cons.1 hl).symm.imp_right List.mem_singleton.2

/-- A label of the kind more. -/
theorem connects_given (p : LabelPool) {l : String} (hl : X l) : Connects X p [] p [l] where
  notes := .refl p
  pays l' hl' := by
    have hne : l' ≠ l := fun heq => hl' (heq ▸ hl)
    have hcount : [l].count l' = 0 := List.count_eq_zero.2 (by simpa using hne)
    exact Nat.add_le_add_right (Nat.le_of_eq hcount) _
  kept := List.nil_subset _
  used _ h := .inl h

/-- Where one element of a list is changed, the labels of the others stay. -/
theorem connects_updateFirst {α : Type} {f : α → List String} {test : α → Bool} {new : α}
    {change : α → α × LabelPool × List Event} (hnew : f new = [])
    (h : ∀ a, Connects X p (f a) (change a).2.1 (f (change a).1)) (l : List α) :
    Connects X p (l.flatMap f) (updateFirst test new change l).2.1
      ((updateFirst test new change l).1.flatMap f) := by
  induction l with
  | nil =>
    have hchange := h new
    rw [hnew] at hchange
    rw [updateFirst, List.flatMap_nil, List.flatMap_singleton]
    exact hchange
  | cons a rest ih =>
    rw [updateFirst]
    split
    · exact (h a).frame [] (rest.flatMap f)
    · have hrest := ih.frame (f a) []
      rwa [List.append_nil, List.append_nil] at hrest

/-- Where the elements of a list are changed one after the other. -/
theorem connects_mapState {α : Type} {f : α → List String} {step : α → Context → α × Context}
    (h : ∀ a c, Connects X c.pool (f a) (step a c).2.pool (f (step a c).1)) (l : List α)
    (c : Context) :
    Connects X c.pool (l.flatMap f) (mapState step l c).2.pool
      ((mapState step l c).1.flatMap f) := by
  induction l generalizing c with
  | nil => exact .refl _ _
  | cons a rest ih =>
    have hfirst := (h a c).frame [] (rest.flatMap f)
    have hrest := (ih (step a c).2).frame (f (step a c).1) []
    rw [List.append_nil, List.append_nil] at hrest
    exact hfirst.trans hrest

/-! ## Automatic imports -/

/-- An import gets the labels that a reference asks for: where it has none for its slot, a fresh
one, and the symbol for its call stub. -/
theorem connects_connect (p : LabelPool) (ref : Reference) (i : Import) :
    Connects (fun l => ref = .stub l) p i.labels (i.connect p ref).2.1
      (i.connect p ref).1.labels := by
  obtain ⟨name, ordinal, hint, thunk, target⟩ := i
  have hstub : ∀ (q : LabelPool) (symbol : String), ref = .stub symbol →
      Connects (fun l => ref = .stub l) q [] q [symbol] := fun q _ h => connects_given q h
  unfold Import.connect
  split
  · exact .refl _ _
  · cases target with
    | some target =>
      cases thunk with
      | some thunk => exact .refl _ _
      | none =>
        cases ref with
        | slot symbol label => exact .refl _ _
        | stub symbol => exact (hstub p symbol rfl).frame [target] []
    | none =>
      have hslot : Connects (fun l => ref = .stub l) p [] _ _ :=
        connects_fresh p (Import.slotHint ref)
      cases thunk with
      | some thunk => exact hslot.frame [] [thunk]
      | none =>
        cases ref with
        | slot symbol label => exact hslot
        | stub symbol => exact hslot.trans ((hstub _ symbol rfl).frame [_] [])

theorem connects_requestDirectory (p : LabelPool) (ref : Reference) (library : String)
    (d : ImportDirectory) :
    Connects (fun l => ref = .stub l) p d.labels (d.request p ref library).2.1
      (d.request p ref library).1.labels :=
  connects_updateFirst rfl (connects_connect p ref) d.imports

/-- The labels of the imports so far. -/
def AutoImport.labels (st : AutoImport) : List String :=
  Assembly.importLabels (st.imports.getD [])

theorem connects_request (st : AutoImport) (ref : Reference) (library : String) :
    Connects (fun l => ref = .stub l) st.pool st.labels (st.request ref library).pool
      (st.request ref library).labels := by
  unfold AutoImport.request
  dsimp only
  split
  · exact .refl _ _
  · exact connects_updateFirst rfl (connects_requestDirectory st.pool ref library) _

/-- The symbol is in the catalogue, no section defines it, and some pending field is the distance to
its call stub: this is what automatic imports give a call stub. -/
def StubRequested (sections : List Section) (catalog : Catalog) (symbol : String) : Prop :=
  symbol ∉ definedLabels sections ∧ (catalog.lookup symbol).isSome ∧
    ∃ s ∈ sections, ∃ e ∈ s.content.fields.entries, classify e.2.target = some (.stub symbol)

/-- Requests one after the other. -/
theorem connects_serve (st : AutoImport) {asked : List (Reference × String)}
    (h : ∀ q ∈ asked, ∀ l, q.1 = .stub l → X l) :
    Connects X st.pool st.labels (st.serve asked).pool (st.serve asked).labels := by
  induction asked using List.reverseRecOn with
  | nil => exact .refl _ _
  | append_singleton asked q ih =>
    rw [AutoImport.serve_concat]
    refine (ih fun q hq => h q (List.mem_append_left _ hq)).trans ?_
    exact (connects_request _ q.1 q.2).mono (h q (List.mem_append_right _ (List.mem_singleton.2 rfl)))

/-- **Automatic imports take fresh labels, and the call stubs that are asked for.** -/
theorem connects_autoImport (p : LabelPool) (sections : List Section)
    (imports : Option (List ImportDirectory)) (catalog : Catalog) :
    Connects (StubRequested sections catalog) p (Assembly.importLabels (imports.getD []))
      (autoImport p sections imports catalog).pool
      (autoImport p sections imports catalog).labels := by
  obtain ⟨hpool, himports⟩ := autoImport_serve p sections imports catalog
  rw [hpool, AutoImport.labels, himports]
  refine connects_serve ⟨p, imports, []⟩ fun q hq l hl => ?_
  obtain ⟨s, hs, e, he, hr, hdefined, hlibrary⟩ := mem_requests.1 hq
  rw [hl] at hr hdefined hlibrary
  exact ⟨hdefined, Option.isSome_of_eq_some hlibrary, s, hs, e, he, hr⟩

/-! ## Slots without a label -/

theorem connects_labelSlot (i : Import) (c : Context) :
    Connects X c.pool i.labels (Assembly.labelSlot i c).2.pool
      (Assembly.labelSlot i c).1.labels := by
  obtain ⟨name, ordinal, hint, thunk, target⟩ := i
  cases target with
  | some target => exact .refl _ _
  | none => exact (connects_fresh c.pool _).frame [] thunk.toList

/-- **Every slot gets a label.** -/
theorem connects_labelSlots (dirs : List ImportDirectory) (c : Context) :
    Connects X c.pool (Assembly.importLabels dirs) (Assembly.labelSlots dirs c).2.pool
      (Assembly.importLabels (Assembly.labelSlots dirs c).1) :=
  connects_mapState (fun d c => connects_mapState connects_labelSlot d.imports c) dirs c

end PortableImage
