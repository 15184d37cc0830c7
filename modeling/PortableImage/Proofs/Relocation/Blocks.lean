import PortableImage.Encode.Assembly
import PortableImage.Proofs.Field.Record
import PortableImage.Proofs.Growth

/-!
# Blocks of base relocations

* `flatMap_groupPages` — grouping offsets by page neither loses nor moves one.
* `BaseRelocation.toNat_word` — an entry: the kind above, the offset below.
* `RelocationTable.record` — a block is a record; `blocks_encodeRelocations` says that the encoded
  blocks hold the records of all tables.
-/

set_option autoImplicit false

namespace PortableImage

/-! ## Pages -/

/-- **Grouping offsets by page neither loses nor moves one.** -/
theorem flatMap_groupPages {α : Type} (g : Nat → Nat → α) (offsets : List Nat) :
    (groupPages offsets).flatMap (fun page => page.2.map (g page.1)) =
      offsets.map fun o => g (o - o % pageSize) o := by
  induction offsets with
  | nil => rfl
  | cons o rest ih =>
    rw [groupPages, List.map_cons, ← ih]
    cases hpages : groupPages rest with
    | nil => rfl
    | cons page pages =>
      obtain ⟨p, offsets⟩ := page
      dsimp only
      split
      · next hp => simp [hp]
      · simp

theorem groupPages_eq_nil {offsets : List Nat} (h : groupPages offsets = []) : offsets = [] := by
  have hnone := flatMap_groupPages (fun _ o => o) offsets
  rw [h] at hnone
  simpa using hnone.symm

/-! ## Entries -/

theorem BaseRelocKind.raw_lt (k : BaseRelocKind) : k.raw.toNat < 16 := by cases k <;> decide

/-- **An entry has the kind in its top four bits and the offset below.** -/
theorem BaseRelocation.toNat_word (r : BaseRelocation) :
    r.word.toNat = r.kind.raw.toNat * pageSize + r.offset.toNat % pageSize := by
  have hkind := r.kind.raw_lt
  have hlow : (r.offset &&& 0xfff).toNat = r.offset.toNat % 2 ^ 12 := by
    rw [UInt16.toNat_and]
    exact Nat.and_two_pow_sub_one_eq_mod _ 12
  have hhigh : (r.kind.raw <<< 12).toNat = r.kind.raw.toNat <<< 12 := by
    rw [UInt16.toNat_shiftLeft, Nat.mod_eq_of_lt]
    · rfl
    · rw [Nat.shiftLeft_eq]
      show r.kind.raw.toNat * 4096 < 65536
      omega
  have hlt : r.offset.toNat % 2 ^ 12 < 2 ^ 12 := Nat.mod_lt _ (by decide)
  rw [word, UInt16.toNat_or, hlow, hhigh, ← Nat.shiftLeft_add_eq_or_of_lt hlt, Nat.shiftLeft_eq]
  rfl

theorem BaseRelocation.word_div (r : BaseRelocation) :
    r.word.toNat / pageSize = r.kind.raw.toNat := by
  have hlt : r.offset.toNat % pageSize < pageSize := Nat.mod_lt _ (by decide)
  rw [toNat_word, Nat.mul_comm, Nat.mul_add_div (by decide), Nat.div_eq_of_lt hlt, Nat.add_zero]

theorem BaseRelocation.word_mod (r : BaseRelocation) :
    r.word.toNat % pageSize = r.offset.toNat % pageSize := by
  rw [toNat_word, Nat.add_comm, Nat.add_mul_mod_self_right, Nat.mod_mod]

/-! ## Blocks -/

/-- The fields of a block: the address of its page, its size, its entries. -/
def RelocationTable.record (t : RelocationTable) : Record :=
  (.u32, t.base) :: (.u32, .ofSize (8 + 2 * (padRelocs t.relocs).length)) ::
    (padRelocs t.relocs).map fun r => (.u16, .ofSize r.word.toNat)

theorem size_entries (relocs : List BaseRelocation) :
    Record.size (relocs.map fun r => (.u16, Expr.ofSize r.word.toNat)) = 2 * relocs.length := by
  induction relocs with
  | nil => rfl
  | cons r rest ih =>
    rw [List.map_cons, Record.size_cons, ih, List.length_cons]
    show 2 + _ = _
    omega

theorem RelocationTable.size_record (t : RelocationTable) :
    t.record.size = 8 + 2 * (padRelocs t.relocs).length := by
  rw [record, Record.size_cons, Record.size_cons, size_entries, ← Nat.add_assoc]
  rfl

/-- The encoded blocks: the records of all tables, one behind the other, and nothing else. -/
structure Buffer.Blocks (f : FieldEncoder) (b : Buffer) (tables : List RelocationTable) : Prop where
  virtSize : b.virtSize = Record.size (tables.flatMap RelocationTable.record)
  tail : b.tail = 0
  inside : b.FieldsInside
  holds : ∀ env, b.HoldsRecord env f.order 0 (tables.flatMap RelocationTable.record)
  fields : ∀ k g, b.fields.get? k = some g →
    ∃ x ∈ tables.flatMap RelocationTable.record, g.target = x.2.reduce

theorem Buffer.Blocks.labelled {f : FieldEncoder} {b b' : Buffer} {tables : List RelocationTable}
    (h : b.Blocks f tables) (hl : b.Labelled b') : b'.Blocks f tables := by
  obtain ⟨added, rfl⟩ := hl
  exact ⟨h.virtSize, h.tail, h.inside, fun env => (h.holds env).map fun p t v _ _ hv => by
    rw [Nat.zero_add]
    exact ⟨hv.inside, hv.apart, hv.value⟩, h.fields⟩

/-- **The encoded blocks hold the records of all tables.** -/
theorem blocks_encodeRelocations {f : FieldEncoder} {tables : List RelocationTable} {b : Buffer}
    (h : Assembly.encodeRelocations f tables = .ok b) : b.Blocks f tables := by
  induction tables generalizing b with
  | nil =>
    cases h
    exact ⟨rfl, rfl, Buffer.fieldsInside_empty, fun _ => trivial, fun k g hg =>
      nomatch (OffsetMap.get?_empty k).symm.trans hg⟩
  | cons t rest ih =>
    simp only [Assembly.encodeRelocations, bind_eq_ok, pure_eq_ok] at h
    obtain ⟨first, hfirst, others, hothers, rfl⟩ := h
    have hrecord : f.record t.record = .ok first := hfirst
    have hrest := ih hothers
    have hsize := FieldEncoder.virtSize_record hrecord
    have hinside := FieldEncoder.fieldsInside_record hrecord
    refine ⟨?_, hrest.tail, hinside.append hrest.inside, fun env => ?_, fun k g hg => ?_⟩
    · rw [Buffer.virtSize_append, hsize, hrest.virtSize, List.flatMap_cons, Record.size_append]
    · rw [List.flatMap_cons, Buffer.holdsRecord_append]
      constructor
      · exact (Buffer.holdsRecord_record hrecord env).map fun p ty v _ _ hv => by
          rw [Nat.zero_add]
          exact hv.append_left
      · rw [Nat.zero_add, ← hsize]
        exact (hrest.holds env).map fun p ty v _ _ hv => hv.append_right hinside
    · rw [Buffer.get?_fields_append, Option.or_eq_some_iff] at hg
      rw [List.flatMap_cons]
      rcases hg with hg | ⟨-, hg⟩
      · split at hg
        · obtain ⟨x, hx, htarget⟩ := hrest.fields _ g hg
          exact ⟨x, List.mem_append_right _ hx, htarget⟩
        · exact nomatch hg
      · obtain ⟨x, hx, htarget⟩ := FieldEncoder.exists_of_fields_record hrecord hg
        exact ⟨x, List.mem_append_left _ hx, htarget⟩

end PortableImage
