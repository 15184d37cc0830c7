import PortableImage.Proofs.Directory.Tables

/-!
# Reading a directory back

A loader sees the bytes of a directory and knows where they are.  It follows addresses, which count
from the start of the image, and reads numbers and texts where they lead.

* `DirectoryView` — the bytes of a directory and the address they are at.
* `Buffer.PlacedAt` — a binding puts a buffer at an address.
* `Tables.Forms` — a directory is made of tables; `Tables.Forms.number`, `Tables.Forms.text` say what
  is read where the tables have something.
-/

set_option autoImplicit false

namespace PortableImage

open Buffer

/-- The bytes of a directory, the way numbers are written in it, and where it is. -/
structure DirectoryView where
  data : List UInt8
  order : ByteOrder
  /-- The address of the first byte, relative to the start of the image. -/
  rva : Nat

namespace DirectoryView

/-- An unsigned number of `width` bytes. -/
def number (v : DirectoryView) (width offset : Nat) : Nat :=
  v.order.toNat (bytesAt v.data offset width)

/-- The bytes up to the next zero byte. -/
def text (v : DirectoryView) (offset : Nat) : List UInt8 :=
  (v.data.drop offset).takeWhile (· != 0)

/-- The offset of an address. -/
def offset (v : DirectoryView) (address : Nat) : Nat := address - v.rva

theorem offset_add (v : DirectoryView) (o : Nat) : v.offset (v.rva + o) = o :=
  Nat.add_sub_cancel_left v.rva o

/-- A text in front of a zero byte is read as it is. -/
theorem text_eq {v : DirectoryView} {o : Nat} {s : List UInt8} (h : HasAt v.data o (s ++ [0]))
    (hs : 0 ∉ s) : v.text o = s ∧ v.data[o + s.length]? = some 0 := by
  obtain ⟨rest, hrest⟩ := h
  constructor
  · rw [text, ← hrest, List.append_assoc, List.takeWhile_append_of_pos]
    · exact List.append_nil s
    · intro x hx
      exact bne_iff_ne.2 fun hzero => hs (hzero ▸ hx)
  · rw [← List.getElem?_drop, ← hrest, List.append_assoc,
      List.getElem?_append_right (Nat.le_refl _), Nat.sub_self]
    rfl

end DirectoryView

/-! ## Placing a buffer -/

/-- The binding puts the buffer `rva` bytes behind the place that `start` stands for.  It does not
reach around the end of the numbers that addresses are computed with. -/
structure Buffer.PlacedAt (b : Buffer) (binding : Binding) (start : String) (rva : Nat) :
    Prop where
  constant : binding.Constant
  based : (binding.get? start).isSome
  labels : ∀ e ∈ b.exports,
    binding.get? e.1 = some (.const (binding.env start + LinkValue.ofSize (rva + e.2)))
  inside : rva + b.virtSize < 2 ^ 128

/-- The start of the image stands for its value. -/
theorem Buffer.PlacedAt.get?_start {b : Buffer} {binding : Binding} {start : String} {rva : Nat}
    (h : b.PlacedAt binding start rva) : binding.get? start = some (.const (binding.env start)) := by
  obtain ⟨value, hvalue⟩ := Option.isSome_iff_exists.1 h.based
  obtain ⟨v, rfl⟩ := h.constant start value hvalue
  rw [Binding.env_of_get? hvalue]
  exact hvalue

/-- A binding that puts a buffer at an address; other labels have the given values. -/
def Buffer.placing (b : Buffer) (start : String) (base : LinkValue) (rva : Nat)
    (others : List (String × LinkValue)) : Binding :=
  ⟨((start, base) :: b.exports.map (fun e => (e.1, base + LinkValue.ofSize (rva + e.2))) ++
    others).map fun e => (e.1, .const e.2)⟩

theorem lookup_append_of_mem {l : List (String × LinkValue)} (hl : (l.map (·.1)).Nodup)
    {e : String × LinkValue} (he : e ∈ l) (others : List (String × LinkValue)) :
    (l ++ others).lookup e.1 = some e.2 := by
  induction l with
  | nil => exact nomatch he
  | cons x l ih =>
    rw [List.map_cons, List.nodup_cons] at hl
    rw [List.cons_append, List.lookup_cons]
    rcases List.mem_cons.1 he with rfl | he
    · rw [beq_self_eq_true]
    · have hne : e.1 ≠ x.1 := fun heq => hl.1 (heq ▸ List.mem_map_of_mem he)
      rw [beq_false_of_ne hne]
      exact ih hl.2 he

/-- The binding of labels to numbers. -/
def Binding.ofConstants (pairs : List (String × LinkValue)) : Binding :=
  ⟨pairs.map fun e => (e.1, .const e.2)⟩

theorem Binding.get?_ofConstants (pairs : List (String × LinkValue)) (l : String) :
    (ofConstants pairs).get? l = (pairs.lookup l).map .const := by
  rw [get?, ofConstants]
  induction pairs with
  | nil => rfl
  | cons x rest ih =>
    rw [List.map_cons, List.lookup_cons, List.lookup_cons, ih]
    cases l == x.1 <;> rfl

theorem Binding.constant_ofConstants (pairs : List (String × LinkValue)) :
    (ofConstants pairs).Constant := by
  intro name e he
  rw [get?_ofConstants] at he
  obtain ⟨v, -, rfl⟩ := Option.map_eq_some_iff.1 he
  exact ⟨v, rfl⟩

/-- Every pair is bound, where the labels differ. -/
theorem Binding.get?_ofConstants_of_mem {pairs : List (String × LinkValue)}
    (hpairs : (pairs.map (·.1)).Nodup) {e : String × LinkValue} (he : e ∈ pairs)
    (others : List (String × LinkValue)) :
    (ofConstants (pairs ++ others)).get? e.1 = some (.const e.2) := by
  rw [get?_ofConstants, lookup_append_of_mem hpairs he]
  rfl

/-- Every buffer whose labels differ can be put at every address. -/
theorem Buffer.placedAt_placing {b : Buffer} {start : String} {rva : Nat} (base : LinkValue)
    (others : List (String × LinkValue)) (hnodup : (start :: b.labels).Nodup)
    (hinside : rva + b.virtSize < 2 ^ 128) :
    b.PlacedAt (b.placing start base rva others) start rva := by
  let pairs := (start, base) :: b.exports.map fun e => (e.1, base + LinkValue.ofSize (rva + e.2))
  have hpairs : (pairs.map (·.1)).Nodup := by
    rw [List.map_cons, List.map_map]
    exact hnodup
  have hstart : (b.placing start base rva others).get? start = some (.const base) :=
    Binding.get?_ofConstants_of_mem hpairs (e := (start, base)) List.mem_cons_self others
  refine ⟨Binding.constant_ofConstants (pairs ++ others), by rw [hstart]; rfl, fun e he => ?_,
    hinside⟩
  have hmem : (e.1, base + LinkValue.ofSize (rva + e.2)) ∈ pairs :=
    List.mem_cons_of_mem _ (List.mem_map_of_mem he)
  rw [Binding.env_of_get? hstart]
  exact Binding.get?_ofConstants_of_mem hpairs hmem others

/-! ## What is read where the tables have something -/

namespace Tables

/-- The directory is made of the tables, which records spell. -/
structure Forms (t : Tables) (b : Buffer) : Prop where
  concat : t.concat = b
  nodup : t.names.Nodup
  spelled : t.Spelled

theorem Forms.end_le {t : Tables} {b : Buffer} (hforms : t.Forms b) {name : String}
    (hname : name ∈ t.names) : t.start name + (t.table name).virtSize ≤ b.virtSize := by
  rw [← hforms.concat]
  exact start_add_virtSize_le hname

/-- A table that has labels is one of the tables. -/
theorem mem_names_of_mem_exports {t : Tables} {name : String} {e : String × Nat}
    (h : e ∈ (t.table name).exports) : name ∈ t.names := by
  by_contra hname
  rw [table_eq, List.find?_eq_none.2 ?_] at h
  · exact nomatch h
  · intro x hx heq
    exact hname (List.mem_map.2 ⟨x, hx, by simpa using heq⟩)

/-- The labels of the tables of a placed directory stand for places behind their starts. -/
theorem Forms.located {t : Tables} {b : Buffer} {binding : Binding} {rva : Nat} (h : t.Forms b)
    (hplaced : b.PlacedAt binding t.context.start rva) :
    t.Located binding (binding.env t.context.start) fun name => rva + t.start name := by
  intro name e he
  have hmem := mem_exports_concat (mem_names_of_mem_exports he) he
  have hlabel := hplaced.labels _ (h.concat ▸ hmem)
  rw [← Nat.add_assoc] at hlabel
  exact hlabel

/-- The bytes of the directory at an address. -/
abbrev view (t : Tables) (b' : Buffer) (rva : Nat) : DirectoryView :=
  ⟨b'.contents, t.context.encoder.order, rva⟩

/-- The numbers that places in the tables are written as do not wrap. -/
theorem Forms.toNat_ofSize {t : Tables} {b : Buffer} {binding : Binding} {start name : String}
    {rva o : Nat} (h : t.Forms b) (hplaced : b.PlacedAt binding start rva) (hname : name ∈ t.names)
    (ho : o ≤ (t.table name).virtSize) :
    (LinkValue.ofSize (rva + t.start name + o)).toNat = rva + t.start name + o := by
  have hle := start_add_virtSize_le hname
  rw [h.concat] at hle
  have hinside := hplaced.inside
  exact LinkValue.toNat_ofSize (by omega)

section Read

variable {t : Tables} {b b' : Buffer} {names : String → Binding} {binding : Binding} {name : String}
  {o : Nat} (h : t.Forms b) (hfix : b.fixup binding = .ok b') (hname : name ∈ t.names)
  (hconstant : (names name).Constant) (hextends : (names name).Extends binding)

include h hfix hname hconstant hextends

/-- **A number of a table is read out of the bytes of the directory.** -/
theorem Forms.number {vs : FieldValues} {i k : Nat} {type : FieldType} {value : LinkValue}
    (hhas : t.Has names name o vs) (hi : vs[i]? = some (type, value))
    (hk : FieldValues.size (vs.take i) = k) (htype : type.signed = false) (rva : Nat) :
    (t.view b' rva).number type.width (t.start name + (o + k)) = value.toNat ∧
      value.toNat < 2 ^ type.bits := by
  obtain ⟨hlt, hvalue⟩ := List.getElem?_eq_some_iff.1 hi
  rw [← List.take_append_drop i vs, List.drop_eq_getElem_cons hlt, hvalue] at hhas
  have hbehind : t.Has names name (o + k) ([(type, value)] ++ vs.drop (i + 1)) :=
    hk ▸ hhas.split.2
  rw [← h.concat] at hfix
  obtain ⟨hfit, hat⟩ := hbehind.split.1.read hname h.nodup h.spelled hfix hconstant hextends
  rw [FieldValues.bytes, List.flatMap_singleton] at hat
  have hfits := hfit _ List.mem_cons_self
  exact ⟨hat.number htype hfits, FieldType.toNat_lt_of_fits htype hfits⟩

/-- **A text of a table is read out of the bytes of the directory.** -/
theorem Forms.text {s : List UInt8} (hs : 0 ∉ s) (hhas : t.Has names name o (.ofBytes (s ++ [0])))
    (order : ByteOrder) (rva : Nat) :
    (DirectoryView.mk b'.contents order rva).text (t.start name + o) = s ∧
      b'.contents[t.start name + o + s.length]? = some 0 := by
  rw [← h.concat] at hfix
  obtain ⟨-, hat⟩ := hhas.read hname h.nodup h.spelled hfix hconstant hextends
  rw [FieldValues.bytes_ofBytes] at hat
  exact DirectoryView.text_eq (v := ⟨b'.contents, order, rva⟩) hat hs

end Read

section Entries

variable {t : Tables} {b b' : Buffer} {binding : Binding} {name : String} {type : FieldType}
  {o : Nat} {vs : List LinkValue}

theorem HasEntries.getElem (h : t.HasEntries binding name type o vs) {j : Nat} {v : LinkValue}
    (hj : vs[j]? = some v) : t.HasUnder binding name (o + type.width * j) [(type, v)] := by
  induction vs generalizing o j with
  | nil => exact nomatch hj
  | cons w vs ih =>
    cases j with
    | zero =>
      cases Option.some.inj hj
      exact h.1
    | succ j =>
      have hrest := ih h.2 hj
      rw [Nat.add_assoc, Nat.add_comm type.width, ← Nat.mul_succ] at hrest
      exact hrest

variable (h : t.Forms b) (hfix : b.fixup binding = .ok b') (hname : name ∈ t.names)
  (hconstant : binding.Constant)

include h hfix hname hconstant

/-- Values that follow each other are in the bytes one behind the other. -/
theorem HasEntries.hasAt (hhas : t.HasEntries binding name type o vs) :
    HasAt b'.contents (t.start name + o)
      (FieldValues.bytes t.context.encoder.order (vs.map fun v => (type, v))) := by
  induction vs generalizing o with
  | nil => exact List.nil_prefix
  | cons v vs ih =>
    have hfix' : t.concat.fixup binding = .ok b' := h.concat ▸ hfix
    obtain ⟨-, hfirst⟩ := hhas.1.read hname h.nodup h.spelled hfix' hconstant (.refl _)
    rw [FieldValues.bytes, List.flatMap_singleton] at hfirst
    rw [List.map_cons, FieldValues.bytes_cons, HasAt.append, type.length_bytes, Nat.add_assoc]
    exact ⟨hfirst, ih hhas.2⟩

end Entries

end Tables

end PortableImage
