import PortableImage.Proofs.Buffer.Shows
import PortableImage.Proofs.Encode.Stages
import PortableImage.Proofs.Sorting

/-!
# What remains of tables that are written one over the other

Tables are written in the order of their addresses.  Where no later table covers it, a table is in the
output as it was written; and a later one covers no entry of an earlier one if the entries of the
tables lie apart and none of the tables starts where another does.

* `LiesBefore` — a table starts before another one, and so do all its entries.
* `window_writeTables` — what no later table covers.
* `Placement.Places.window`, `Placement.Places.window_entry` — no table covers the entries of another
  one, nor its zero entry where no table is.
* `Placement.Places.field_cases` — where the pending fields of the output come from.
* `SectionAt.shows` — what stands in a section stands in the output, before there are tables.
-/

set_option autoImplicit false

namespace PortableImage

open Buffer

/-! ## Tables in the order of their addresses -/

/-- The size of the entries of a table without the zero one at its end. -/
def entriesSize (width : Nat) (table : Buffer) : Nat := table.virtSize - width

/-- The first table starts before the second, and so do all its entries. -/
def LiesBefore (width : Nat) (t u : Nat × Buffer) : Prop :=
  t.1 < u.1 ∧ t.1 + entriesSize width t.2 ≤ u.1

/-- The tables start at different addresses, and their entries lie apart. -/
def TablesApart (width : Nat) (t u : Nat × Buffer) : Prop :=
  t.1 ≠ u.1 ∧ (t.1 + entriesSize width t.2 ≤ u.1 ∨ u.1 + entriesSize width u.2 ≤ t.1)

theorem TablesApart.symm {width : Nat} {t u : Nat × Buffer} (h : TablesApart width t u) :
    TablesApart width u t :=
  ⟨h.1.symm, h.2.symm⟩

/-- **Each table lies before those that are written after it**, if their entries lie apart. -/
theorem pairwise_orderedTables {width : Nat} {tables : List (Nat × Buffer)}
    (h : tables.Pairwise (TablesApart width)) :
    (orderedTables tables).Pairwise (LiesBefore width) := by
  have hsorted : (orderedTables tables).Pairwise fun t u => decide (t.1 ≤ u.1) = true :=
    pairwise_sortBy (fun t u => by simpa only [decide_eq_true_eq] using Nat.le_total t.1 u.1)
      (fun t u v => by simpa only [decide_eq_true_eq] using Nat.le_trans) tables
  have hapart : (orderedTables tables).Pairwise (TablesApart width) :=
    ((perm_sortBy _ tables).pairwise_iff TablesApart.symm).2 h
  refine (hsorted.and hapart).imp fun {t u} ⟨hle, hne, hends⟩ => ?_
  have hle := of_decide_eq_true hle
  rw [LiesBefore]
  omega

/-! ## What no later table covers -/

theorem exists_patch_writeTable {base rva : Nat} {table : Buffer} {p p' : Placement}
    (h : writeTable base p rva table = .ok p') {o : Nat} (ho : p.tableOffset rva = some o) :
    p'.output = p.output.patch o table := by
  rw [Placement.tableOffset] at ho
  obtain ⟨s, hs, rfl⟩ := Option.map_eq_some_iff.1 ho
  rw [writeTable, hs] at h
  dsimp only at h
  split at h
  · cases h
  · simp only [bind_eq_ok] at h
    obtain ⟨exported, -, binding, -, ⟨⟩⟩ := h
    rfl

/-- A table is in what it has been written over. -/
theorem window_patch {b other : Buffer} {o k : Nat} (hk : k < other.virtSize) :
    (b.patch o other).contents[o + k]? = other.contents[k]? ∧
      (b.patch o other).fields.get? (o + k) = other.fields.get? k := by
  constructor
  · rw [getElem?_contents_patch, if_pos ⟨Nat.le_add_right _ _, Nat.add_lt_add_left hk o⟩,
      Nat.add_sub_cancel_left]
  · have htest : (decide (o + k < o) || decide (o + other.virtSize ≤ o + k)) = false := by
      rw [Bool.or_eq_false_iff, decide_eq_false_iff_not, decide_eq_false_iff_not]
      omega
    rw [get?_fields_patch, if_pos (Nat.le_add_right _ _), Nat.add_sub_cancel_left]
    cases b.fields.get? (o + k) with
    | none => rw [Option.filter_none, Option.or_none]
    | some f => rw [Option.filter_some, htest, if_neg Bool.false_ne_true, Option.or_none]

/-- **Where no later table covers it, a table is in the output as it was written.** -/
theorem window_writeTables {base : Nat} {before behind : List (Nat × Buffer)} {t : Nat × Buffer}
    {p p' : Placement} (h : writeTables base (before ++ t :: behind) p = .ok p') (hp : p.Sound)
    (hroomy : p.Roomy) (htables : ∀ u ∈ before ++ t :: behind, u.2.FieldsInside) {o k : Nat}
    (ho : p.tableOffset t.1 = some o) (hk : k < t.2.virtSize) (hapart : p.ApartFrom behind (o + k) 1) :
    p'.output.contents[o + k]? = t.2.contents[k]? ∧
      p'.output.fields.get? (o + k) = t.2.fields.get? k := by
  induction before generalizing p with
  | nil =>
    rw [List.nil_append, writeTables, bind_eq_ok] at h
    obtain ⟨p₁, h₁, h₂⟩ := h
    have hfirst := overwritten_writeTable h₁ hp hroomy (htables t List.mem_cons_self)
    have hroomy₁ : p₁.Roomy := fun r hr => by
      rw [hfirst.virtSize]
      exact hroomy r (hfirst.placed ▸ hr)
    have hrest := overwritten_writeTables h₂ hfirst.sound hroomy₁ fun u hu =>
      htables u (List.mem_cons_of_mem _ hu)
    have hapart₁ : p₁.ApartFrom behind (o + k) 1 := by
      rw [Placement.ApartFrom]
      simp only [Placement.tableOffset, hfirst.placed]
      exact hapart
    rw [hrest.bytes _ hapart₁, hrest.fields _ hapart₁, exists_patch_writeTable h₁ ho]
    exact window_patch hk
  | cons u before ih =>
    rw [List.cons_append, writeTables, bind_eq_ok] at h
    obtain ⟨p₁, h₁, h₂⟩ := h
    have hfirst := overwritten_writeTable h₁ hp hroomy (htables u List.mem_cons_self)
    have hplaces : p₁.tableOffset = p.tableOffset := by
      funext rva
      rw [Placement.tableOffset, Placement.tableOffset, hfirst.placed]
    refine ih h₂ hfirst.sound (fun r hr => ?_) (fun v hv => htables v (List.mem_cons_of_mem _ hv))
      (by rw [hplaces]; exact ho) ?_
    · rw [hfirst.virtSize]
      exact hroomy r (hfirst.placed ▸ hr)
    · rw [Placement.ApartFrom, hplaces]
      exact hapart

/-! ## Tables and fields of a placed image -/

namespace Placement.Places

variable {q p : Placement} {h : HeadedImage} {tables : List (Nat × Buffer)}
  (hp : q.Places p h tables)

include hp

theorem roomy : q.Roomy := by
  intro r hr
  obtain ⟨i, hi⟩ := List.mem_iff_getElem?.1 hr
  obtain ⟨x, -, -, address, hat⟩ := exists_left_of_forall₂ hp.sections hi
  exact hat.inside

/-- The section that holds a table. -/
theorem exists_room {t : Nat × Buffer} (ht : t ∈ tables) {o : Nat}
    (ho : q.tableOffset t.1 = some o) :
    ∃ r ∈ q.placed, o = r.rawAddress + (t.1 - r.rva) ∧ r.HasRoom t := by
  obtain ⟨r, hr, hat, hroom⟩ := hp.tables.room t (mem_orderedTables.2 ht)
  exact ⟨r, hr, Option.some.inj (ho.symm.trans hat), hroom⟩

/-- Two tables are as far from each other in the file as in memory, or lie apart there. -/
theorem offset_cases {t u : Nat × Buffer} (ht : t ∈ tables) (hu : u ∈ tables) {o o' : Nat}
    (ho : q.tableOffset t.1 = some o) (ho' : q.tableOffset u.1 = some o') :
    o + u.1 = o' + t.1 ∨ o + t.2.virtSize ≤ o' ∨ o' + u.2.virtSize ≤ o := by
  obtain ⟨r, hr, rfl, hroom⟩ := hp.exists_room ht ho
  obtain ⟨s, hs, rfl, hroom'⟩ := hp.exists_room hu ho'
  have hle := hroom.le
  have hle' := hroom'.le
  have hwritten := hroom.written
  have hwritten' := hroom'.written
  by_cases heq : r = s
  · subst heq
    omega
  · have hapart := rel_or_rel_of_pairwise hp.ordered hr hs heq
    omega

/-- The pending fields of the placed sections lie apart from the tables, if those of each section do.
The fields count from the start of the file here. -/
theorem apartFrom_fields
    (hfields : ∀ (i : Nat) s r, h.image.sections[i]? = some s → q.placed[i]? = some r →
      ∀ k f, s.content.fields.get? k = some f →
        q.ApartFrom tables (r.rawAddress + k) f.type.width) {k : Nat} {f : PendingField}
    (hf : q.output.fields.get? k = some f) : q.ApartFrom tables k f.type.width := by
  intro t ht o ho
  obtain ⟨r, hr, rfl, hroom⟩ := hp.exists_room ht ho
  obtain ⟨i, hi⟩ := List.mem_iff_getElem?.1 hr
  obtain ⟨s, hs, -, address, hat⟩ := exists_left_of_forall₂ hp.sections hi
  have hwritten := hroom.written
  by_cases hbefore : k < r.rawAddress
  · have hend := hat.front k f hbefore hf
    omega
  · obtain ⟨d, rfl⟩ := Nat.exists_eq_add_of_le (Nat.le_of_not_lt hbefore)
    by_cases hin : d < r.rawSize
    · rw [hat.fields d hin, get?_fields_slice, Nat.add_zero, Option.filter_eq_some_iff] at hf
      exact hfields i s r hs hi d f hf.1 t ht _ ho
    · omega

variable {width : Nat}
  (hpairs : (orderedTables tables).Pairwise (LiesBefore width))
  (hinside : ∀ t ∈ tables, t.2.FieldsInside)

include hinside hpairs

/-- **A byte of a table is in the output as it was written, if every other table that covers it lies
before the table.** -/
theorem window {t : Nat × Buffer} (ht : t ∈ tables) {o k : Nat} (ho : q.tableOffset t.1 = some o)
    (hk : k < t.2.virtSize)
    (hapart : ∀ u ∈ tables, LiesBefore width t u →
      t.1 + k < u.1 ∨ u.1 + u.2.virtSize ≤ t.1 + k) :
    p.output.contents[o + k]? = t.2.contents[k]? ∧
      p.output.fields.get? (o + k) = t.2.fields.get? k := by
  obtain ⟨before, behind, hsplit⟩ := List.append_of_mem (mem_orderedTables.2 ht)
  have hmem : ∀ u ∈ before ++ t :: behind, u ∈ tables := fun u hu =>
    mem_orderedTables.1 (hsplit ▸ hu)
  have hwritten := hp.written
  rw [hsplit] at hwritten hpairs
  refine window_writeTables hwritten hp.sound hp.roomy (fun u hu => hinside u (hmem u hu)) ho hk
    fun u hu o' ho' => ?_
  have hu' := hmem u (List.mem_append_right _ (List.mem_cons_of_mem _ hu))
  have hbefore := (List.pairwise_cons.1 (List.pairwise_append.1 hpairs).2.1).1 u hu
  have hends := hapart u hu' hbefore
  have hcases := hp.offset_cases ht hu' ho ho'
  omega

/-- **No table covers the entries of another one.** -/
theorem window_entry {t : Nat × Buffer} (ht : t ∈ tables) {o k : Nat}
    (ho : q.tableOffset t.1 = some o) (hk : k < entriesSize width t.2) :
    p.output.contents[o + k]? = t.2.contents[k]? ∧
      p.output.fields.get? (o + k) = t.2.fields.get? k := by
  have hlt : k < t.2.virtSize := Nat.lt_of_lt_of_le hk (Nat.sub_le _ _)
  refine hp.window hpairs hinside ht ho hlt fun u _ hbefore => .inl ?_
  have hle := hbefore.2
  omega

omit hpairs hinside in
/-- A pending field of the output was pending before, apart from all tables, or is a field of an entry
of a table. -/
theorem field_cases (hapart : ∀ k f, q.output.fields.get? k = some f →
      q.ApartFrom tables k f.type.width)
    (hentries : ∀ t ∈ tables, ∀ k f, t.2.fields.get? k = some f →
      k + f.type.width ≤ entriesSize width t.2) {k : Nat} {f : PendingField}
    (hf : p.output.fields.get? k = some f) :
    (q.output.fields.get? k = some f ∧ q.ApartFrom tables k f.type.width) ∨
      ∃ t ∈ tables, ∃ o, q.tableOffset t.1 = some o ∧ o ≤ k ∧
        k + f.type.width ≤ o + entriesSize width t.2 := by
  rcases hp.tables.origin k f hf with hf | ⟨t, ht, o, ho, hle, hf⟩
  · exact .inl ⟨hf, hapart k f hf⟩
  · have ht' := mem_orderedTables.1 ht
    have hend := hentries t ht' _ f hf
    exact .inr ⟨t, ht', o, ho, hle, by omega⟩

end Placement.Places

/-- What stands in the bytes of a section stands in the output where the section was placed. -/
theorem SectionAt.shows {n : LayoutNumbers} {s : Section} {p : Placement} {r : PlacedSection}
    {address o : Nat} {b : Buffer} (h : SectionAt n s p r address)
    (hwritten : s.content.FieldsWritten) (hshows : s.content.Shows o b)
    (hraw : o + b.virtSize ≤ s.content.rawSize) : p.output.Shows (r.rawAddress + o) b := by
  have hrawSize := h.rawSize
  have hinside := h.inside
  refine ⟨by omega, fun j hj => ?_, fun k hk => ?_, fun k f hk hf => ?_⟩
  · have hlt : o + j < s.content.rawSize := by omega
    rw [Nat.add_assoc, h.bytes _ (by omega), getElem?_padTo, if_pos (by exact hlt),
      ← getElem?_contents_of_lt hlt, hshows.contents j hj]
  · rw [Nat.add_assoc, h.fields _ (by omega), get?_fields_slice, Nat.add_zero, Nat.zero_add,
      ← hshows.fields k hk]
    cases hf : s.content.fields.get? (o + k) with
    | none => rfl
    | some g => rw [Option.filter_some, if_pos (decide_eq_true (hwritten _ g hf))]
  · by_cases hbefore : k < r.rawAddress
    · exact Nat.le_trans (h.front k f hbefore hf) (Nat.le_add_right _ _)
    · obtain ⟨d, rfl⟩ := Nat.exists_eq_add_of_le (Nat.le_of_not_lt hbefore)
      rw [h.fields d (by omega), get?_fields_slice, Nat.add_zero, Option.filter_eq_some_iff] at hf
      have hend := hshows.clear d f (by omega) hf.1
      omega

end PortableImage
