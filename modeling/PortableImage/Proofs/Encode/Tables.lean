import PortableImage.Proofs.Encode.Placement

/-!
# Address tables written in place

A table with a fixed address is written over the section that covers the address.  It stays inside
the bytes of this section, and what it does not cover stays as it is.

* `Placement.tableOffset` — where in the file a table goes.
* `Placement.Overwritten` — a placement with tables written into it.
* `overwritten_writeTable`, `overwritten_writeTables` — one table, all tables.
-/

set_option autoImplicit false

namespace PortableImage

open Buffer

/-- The place in the file of an address: in the first section that covers it in memory. -/
def Placement.tableOffset (p : Placement) (rva : Nat) : Option Nat :=
  (p.placed.find? fun s => s.rva ≤ rva && rva < s.rva + s.virtSize).map fun s =>
    s.rawAddress + (rva - s.rva)

/-- The range of the file from `o` on lies apart from all the tables. -/
def Placement.ApartFrom (p : Placement) (tables : List (Nat × Buffer)) (o len : Nat) : Prop :=
  ∀ t ∈ tables, ∀ offset, p.tableOffset t.1 = some offset →
    o + len ≤ offset ∨ offset + t.2.virtSize ≤ o

/-- The section has room for the table, in memory and in the file. -/
structure PlacedSection.HasRoom (r : PlacedSection) (t : Nat × Buffer) : Prop where
  le : r.rva ≤ t.1
  mapped : t.1 + t.2.virtSize ≤ r.rva + r.virtSize
  written : t.1 - r.rva + t.2.virtSize ≤ r.rawSize

/-- The second placement is the first with the tables written into it, the image lying at `base`. -/
structure Placement.Overwritten (p p' : Placement) (base : Nat) (tables : List (Nat × Buffer)) :
    Prop where
  sound : p'.Sound
  placed : p'.placed = p.placed
  cursor : p'.cursor = p.cursor
  virtSize : p'.output.virtSize = p.output.virtSize
  binding : p.binding.Extends p'.binding
  room : ∀ t ∈ tables, ∃ r ∈ p.placed,
    p.tableOffset t.1 = some (r.rawAddress + (t.1 - r.rva)) ∧ r.HasRoom t
  exports : ∀ t ∈ tables, ∀ l k, (l, k) ∈ t.2.exports →
    p'.binding.get? l = some (.ofSize (base + t.1 + k))
  fresh : ∀ t ∈ tables, ∀ l k, (l, k) ∈ t.2.exports → p.binding.get? l = none
  holds : ∀ env o t order v, p.output.Holds env o t order v → p.ApartFrom tables o t.width →
    p'.output.Holds env o t order v
  fields : ∀ k, p.ApartFrom tables k 1 → p'.output.fields.get? k = p.output.fields.get? k
  origin : ∀ k f, p'.output.fields.get? k = some f → p.output.fields.get? k = some f ∨
    ∃ t ∈ tables, ∃ o, p.tableOffset t.1 = some o ∧ o ≤ k ∧ t.2.fields.get? (k - o) = some f
  bytes : ∀ i, p.ApartFrom tables i 1 → p'.output.contents[i]? = p.output.contents[i]?

theorem Placement.Overwritten.refl {p : Placement} (hp : p.Sound) (base : Nat) :
    p.Overwritten p base [] :=
  ⟨hp, rfl, rfl, rfl, .refl _, fun _ ht => (nomatch ht), fun _ ht => (nomatch ht),
    fun _ ht => (nomatch ht), fun _ _ _ _ _ h _ => h, fun _ _ => rfl, fun _ _ h => .inl h,
    fun _ _ => rfl⟩

/-- A table after other ones. -/
theorem Placement.Overwritten.cons {p q r : Placement} {base : Nat} {t : Nat × Buffer}
    {tables : List (Nat × Buffer)} (hpq : p.Overwritten q base [t])
    (hqr : q.Overwritten r base tables) : p.Overwritten r base (t :: tables) where
  sound := hqr.sound
  placed := hqr.placed.trans hpq.placed
  cursor := hqr.cursor.trans hpq.cursor
  virtSize := hqr.virtSize.trans hpq.virtSize
  binding := hpq.binding.trans hqr.binding
  room u hu := by
    rcases List.mem_cons.1 hu with rfl | hu
    · exact hpq.room u (List.mem_singleton.2 rfl)
    · have hroom := hqr.room u hu
      rw [tableOffset, hpq.placed] at hroom
      exact hroom
  exports u hu l k hm := by
    rcases List.mem_cons.1 hu with rfl | hu
    · exact hqr.binding _ _ (hpq.exports u (List.mem_singleton.2 rfl) l k hm)
    · exact hqr.exports u hu l k hm
  fresh u hu l k hm := by
    rcases List.mem_cons.1 hu with rfl | hu
    · exact hpq.fresh u (List.mem_singleton.2 rfl) l k hm
    · have hnone := hqr.fresh u hu l k hm
      cases hl : p.binding.get? l with
      | none => rfl
      | some v =>
        rw [hpq.binding l v hl] at hnone
        exact nomatch hnone
  holds env o ty order v h hapart := by
    refine hqr.holds env o ty order v (hpq.holds env o ty order v h fun u hu => ?_) fun u hu => ?_
    · exact hapart u (List.mem_cons.2 (.inl (List.mem_singleton.1 hu)))
    · rw [tableOffset, hpq.placed]
      exact hapart u (List.mem_cons_of_mem _ hu)
  fields k hapart := by
    rw [hqr.fields k, hpq.fields k fun u hu => ?_]
    · exact hapart u (List.mem_cons.2 (.inl (List.mem_singleton.1 hu)))
    · intro u hu
      rw [tableOffset, hpq.placed]
      exact hapart u (List.mem_cons_of_mem _ hu)
  origin k f hf := by
    rcases hqr.origin k f hf with hf | ⟨u, hu, o, ho, hle, hf⟩
    · rcases hpq.origin k f hf with hf | ⟨u, hu, hrest⟩
      · exact .inl hf
      · exact .inr ⟨u, List.mem_cons.2 (.inl (List.mem_singleton.1 hu)), hrest⟩
    · rw [tableOffset, hpq.placed] at ho
      exact .inr ⟨u, List.mem_cons_of_mem _ hu, o, ho, hle, hf⟩
  bytes i hapart := by
    rw [hqr.bytes i, hpq.bytes i fun u hu => ?_]
    · exact hapart u (List.mem_cons.2 (.inl (List.mem_singleton.1 hu)))
    · intro u hu
      rw [tableOffset, hpq.placed]
      exact hapart u (List.mem_cons_of_mem _ hu)

/-- Every placed section is inside the output. -/
def Placement.Roomy (p : Placement) : Prop :=
  ∀ q ∈ p.placed, q.rawAddress + q.rawSize ≤ p.output.virtSize

/-- **One table is written inside the section that covers its address.** -/
theorem overwritten_writeTable {base rva : Nat} {table : Buffer} {p p' : Placement}
    (h : writeTable base p rva table = .ok p') (hp : p.Sound) (hroomy : p.Roomy)
    (htable : table.FieldsInside) : p.Overwritten p' base [(rva, table)] := by
  rw [writeTable] at h
  split at h
  · exact nomatch h
  · next q hfind =>
    dsimp only at h
    split at h
    · exact nomatch h
    · next hfits =>
      rw [bind_eq_ok] at h
      obtain ⟨exported, hexported, h⟩ := h
      rw [bind_eq_ok] at h
      obtain ⟨binding, hmerge, h⟩ := h
      cases h
      obtain ⟨hext, hconst, hexports⟩ := Binding.merge_spec hexported hmerge hp.constant
      have hoffset : p.tableOffset rva = some (q.rawAddress + (rva - q.rva)) := by
        rw [Placement.tableOffset, hfind]
        rfl
      have hmem := List.mem_of_find?_eq_some hfind
      have hsize := hroomy q hmem
      have hcovers := List.find?_some hfind
      simp only [Bool.and_eq_true, decide_eq_true_eq] at hcovers
      have hroom : q.HasRoom (rva, table) := by
        constructor <;> dsimp only <;> omega
      have hin := hroom.written
      dsimp only at hin
      refine ⟨⟨hconst, hp.inside.patch htable _⟩, rfl, rfl, ?_, hext, ?_, ?_, ?_, ?_, ?_, ?_, ?_⟩
      · dsimp only
        rw [virtSize_patch]
        omega
      · intro t ht
        rw [List.mem_singleton.1 ht]
        exact ⟨q, hmem, hoffset, hroom⟩
      · intro t ht l k hm
        rw [List.mem_singleton.1 ht] at hm ⊢
        exact hexports l k hm
      · intro t ht l k hm
        rw [List.mem_singleton.1 ht] at hm
        have hentries := binding_eq_ok hexported
        have hmem : (l, (Expr.ofSize (base + rva) + Expr.ofSize k).reduce) ∈ exported.entries := by
          rw [hentries]
          exact List.mem_map_of_mem (f := fun e => (e.1, (_ + Expr.ofSize e.2).reduce)) hm
        exact (Binding.bindAll_eq_ok hmerge).2.1 _ hmem
      · intro env o t order v hv hapart
        exact hv.patch htable (hapart _ (List.mem_singleton.2 rfl) _ hoffset)
      · intro k hapart
        refine get?_fields_patch_outside htable ?_
        have hk := hapart _ (List.mem_singleton.2 rfl) _ hoffset
        dsimp only at hk
        omega
      · intro k f hf
        rw [get?_fields_patch, Option.or_eq_some_iff] at hf
        rcases hf with hf | ⟨-, hf⟩
        · split at hf
          · next hle => exact .inr ⟨_, List.mem_singleton.2 rfl, _, hoffset, hle, hf⟩
          · exact nomatch hf
        · exact .inl (Option.filter_eq_some_iff.1 hf).1
      · intro i hapart
        have hi := hapart _ (List.mem_singleton.2 rfl) _ hoffset
        dsimp only at hi ⊢
        rw [getElem?_contents_patch, if_neg (by omega), getElem?_padTo, length_contents]
        by_cases hlt : i < p.output.virtSize
        · rw [if_pos hlt]
        · rw [if_neg hlt, if_neg (by omega), List.getElem?_eq_none]
          rw [length_contents]
          omega

/-- **All tables are written inside the sections that cover their addresses.** -/
theorem overwritten_writeTables {base : Nat} {tables : List (Nat × Buffer)} {p p' : Placement}
    (h : writeTables base tables p = .ok p') (hp : p.Sound) (hroomy : p.Roomy)
    (htables : ∀ t ∈ tables, t.2.FieldsInside) : p.Overwritten p' base tables := by
  induction tables generalizing p with
  | nil =>
    cases h
    exact .refl hp base
  | cons t rest ih =>
    rw [writeTables, bind_eq_ok] at h
    obtain ⟨p₁, h₁, h₂⟩ := h
    have hfirst := overwritten_writeTable h₁ hp hroomy (htables t List.mem_cons_self)
    refine hfirst.cons (ih h₂ hfirst.sound ?_ fun u hu => htables u (List.mem_cons_of_mem _ hu))
    intro q hq
    rw [hfirst.virtSize]
    exact hroomy q (hfirst.placed ▸ hq)

end PortableImage
