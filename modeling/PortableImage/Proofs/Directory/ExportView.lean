import PortableImage.Proofs.Directory.Exports
import PortableImage.Proofs.Text.Utf8

/-!
# Reading the export directory

A loader finds the tables of an export directory through the addresses in its header.  It looks a
name up by bisection, because the names stand in the order of their bytes, and takes the place in
the address table that is noted beside the name.

* `DirectoryView.slot`, `DirectoryView.nameTable`, `DirectoryView.find` — the reader.
* `bisect_isSome` — a bisection of names in order finds each of them.
* `Slots.Read` — what the reader makes of the bytes, given the places of the exports.
* `read_encodeExports` — it reads what was written.
-/

set_option autoImplicit false

namespace PortableImage

open Tables

/-! ## Bisection -/

/-- The index of a key among `name lo`, …, `name (hi - 1)`, which are in order. -/
def bisect (name : Nat → List UInt8) (key : List UInt8) (lo hi : Nat) : Option Nat :=
  if lo < hi then
    let mid := (lo + hi) / 2
    if name mid = key then some mid
    else if name mid < key then bisect name key (mid + 1) hi
    else bisect name key lo mid
  else none
termination_by hi - lo

theorem eq_of_bisect {name : Nat → List UInt8} {key : List UInt8} {lo hi j : Nat}
    (h : bisect name key lo hi = some j) : name j = key ∧ j < hi := by
  fun_induction bisect name key lo hi with
  | case1 lo hi hlt mid heq =>
    have hmid : mid = (lo + hi) / 2 := rfl
    rw [← Option.some.inj h]
    exact ⟨heq, by omega⟩
  | case2 lo hi hlt mid hne hless ih => exact ih h
  | case3 lo hi hlt mid hne hnot ih =>
    have hmid : mid = (lo + hi) / 2 := rfl
    obtain ⟨hj, hlt'⟩ := ih h
    exact ⟨hj, by omega⟩
  | case4 => exact nomatch h

/-- **A bisection of names in order finds each of them.** -/
theorem bisect_isSome {name : Nat → List UInt8} {key : List UInt8} {lo hi n j : Nat}
    (hsorted : ∀ i k, i ≤ k → k < n → name i ≤ name k) (hn : hi ≤ n) (hlo : lo ≤ j) (hhi : j < hi)
    (hj : name j = key) : (bisect name key lo hi).isSome := by
  fun_induction bisect name key lo hi with
  | case1 => rfl
  | case2 lo hi hlt mid hne hless ih =>
    refine ih hn ?_ hhi
    rcases Nat.lt_or_ge mid j with h | h
    · exact h
    · have hle := hsorted j mid h (by omega)
      rw [hj] at hle
      exact absurd hless (List.not_lt.2 hle)
  | case3 lo hi hlt mid hne hnot ih =>
    have hmid : mid = (lo + hi) / 2 := rfl
    refine ih (by omega) hlo ?_
    rcases Nat.lt_or_ge j mid with h | h
    · exact h
    · have hle := hsorted mid j h (by omega)
      rw [hj] at hle
      exact absurd (List.le_antisymm hle (List.not_lt.1 hnot)) hne
  | case4 lo hi hlt => omega

/-! ## The reader -/

namespace DirectoryView

/-- The name of the library that the directory belongs to. -/
def libraryName (v : DirectoryView) : List UInt8 := v.text (v.offset (v.number 4 12))

/-- The ordinal of the first place of the address table. -/
def ordinalBase (v : DirectoryView) : Nat := v.number 4 16

/-- How many places the address table has. -/
def functionCount (v : DirectoryView) : Nat := v.number 4 20

/-- How many names there are. -/
def nameCount (v : DirectoryView) : Nat := v.number 4 24

/-- The entry of a place in the address table. -/
def slot (v : DirectoryView) (i : Nat) : Nat := v.number 4 (v.offset (v.number 4 28) + 4 * i)

/-- A name. -/
def exportName (v : DirectoryView) (j : Nat) : List UInt8 :=
  v.text (v.offset (v.number 4 (v.offset (v.number 4 32) + 4 * j)))

/-- The place that is noted beside a name. -/
def nameSlot (v : DirectoryView) (j : Nat) : Nat := v.number 2 (v.offset (v.number 4 36) + 2 * j)

/-- The names with their places, as they stand. -/
def nameTable (v : DirectoryView) : List (List UInt8 × Nat) :=
  (List.range v.nameCount).map fun j => (v.exportName j, v.nameSlot j)

/-- The place of a name. -/
def find (v : DirectoryView) (key : List UInt8) : Option Nat :=
  (bisect v.exportName key 0 v.nameCount).map v.nameSlot

end DirectoryView

/-! ## What is read -/

/-- No text in the directory has a zero byte in it. -/
structure ExportDirectory.ZeroFree (dir : ExportDirectory) : Prop where
  libraryName : ∀ name ∈ dir.libraryName, '\x00' ∉ name.toList
  names : ∀ e ∈ dir.exports, ∀ name ∈ e.name, '\x00' ∉ name.toList
  forwarders : ∀ e ∈ dir.exports, ∀ library symbol, e.target = .forwarder library symbol →
    '\x00' ∉ library.toList ∧ ∀ name, symbol = .name name → '\x00' ∉ name.toList

/-- The entry of a place: zero if it is free, the address of an export relative to the start of the
image, or an address in the directory, where the text of a forwarder is. -/
def SlotRead (v : DirectoryView) (size : Nat) (binding : Binding) (base : LinkValue)
    (slot : Option Export) (entry : Nat) : Prop :=
  match slot.map Export.target with
  | none => entry = 0
  | some (.address target) => entry = (target.eval binding.env - base).toNat
  | some (.forwarder library symbol) =>
    v.rva ≤ entry ∧ entry < v.rva + size ∧
      v.text (v.offset entry) = Text.utf8 (forwarderText library symbol) ∧
      v.data[v.offset entry + (Text.utf8 (forwarderText library symbol)).length]? = some 0

/-- The names of the exports, each with its place. -/
def Slots.names (slots : Slots) : List (List UInt8 × Nat) :=
  slots.zipIdx.filterMap fun s => (s.1.bind (·.name)).map fun name => (Text.utf8 name, s.2)

theorem Slots.names_eq (slots : Slots) :
    slots.names = (namedSlots 0 slots).map fun name => (Text.utf8 name.1, name.2) := by
  rw [names, namedSlots_eq, List.map_filterMap]
  refine congrArg (List.filterMap · _) (funext fun s => ?_)
  cases s.1.bind (·.name) <;> rfl

theorem Slots.mem_names {slots : Slots} {key : List UInt8} {i : Nat} :
    (key, i) ∈ slots.names ↔
      ∃ e name, slots[i]? = some (some e) ∧ e.name = some name ∧ Text.utf8 name = key := by
  rw [names_eq, List.mem_map]
  constructor
  · rintro ⟨⟨name, j⟩, hmem, heq⟩
    cases heq
    obtain ⟨e, he, hname⟩ := mem_namedSlots.1 hmem
    exact ⟨e, name, he, hname, rfl⟩
  · rintro ⟨e, name, he, hname, rfl⟩
    exact ⟨(name, i), mem_namedSlots.2 ⟨e, he, hname⟩, rfl⟩

/-- The names without their places are those of the exports that have places. -/
theorem Slots.map_names (slots : Slots) :
    slots.names.map (·.1) = slots.placed.filterMap fun e => e.name.map Text.utf8 := by
  conv_rhs => rw [← List.zipIdx_map_fst 0 slots]
  rw [names, placed, List.map_filterMap, List.filterMap_filterMap, List.filterMap_map]
  refine congrArg (List.filterMap · _) (funext fun s => ?_)
  obtain ⟨slot, i⟩ := s
  cases slot with
  | none => rfl
  | some e => cases hname : e.name <;> simp [hname]

/-- What is read of an export directory whose exports have the given places. -/
structure Slots.Read (slots : Slots) (v : DirectoryView) (size : Nat) (binding : Binding)
    (base : LinkValue) (dir : ExportDirectory) : Prop where
  libraryName : v.libraryName = Text.utf8 (dir.libraryName.getD defaultLibraryName)
  ordinalBase : v.ordinalBase = (dir.ordinalBase.getD 1).toNat
  functionCount : v.functionCount = slots.length
  nameCount : v.nameCount = dir.exports.countP (·.name.isSome)
  sorted : (v.nameTable.map (·.1)).Pairwise (· ≤ ·)
  names : v.nameTable.Perm slots.names
  entries : ∀ i slot, slots[i]? = some slot → SlotRead v size binding base slot (v.slot i)
  ordinals : ∀ e ∈ dir.exports, ∀ ordinal, e.ordinal = some ordinal →
    v.ordinalBase ≤ ordinal.toNat ∧ slots[ordinal.toNat - v.ordinalBase]? = some (some e)
  found : ∀ i e name, slots[i]? = some (some e) → e.name = some name →
    dir.exports.countP (·.name == some name) = 1 → v.find (Text.utf8 name) = some i

/-- The text of a forwarder has a zero byte only where a name in it has one. -/
theorem zero_notMem_forwarderText {library : String} {symbol : ForwardedSymbol}
    (hlibrary : '\x00' ∉ library.toList)
    (hsymbol : ∀ name, symbol = .name name → '\x00' ∉ name.toList) :
    0 ∉ Text.utf8 (forwarderText library symbol) := by
  have happend : ∀ {s t : String}, '\x00' ∉ s.toList → '\x00' ∉ t.toList →
      '\x00' ∉ (s ++ t).toList := fun hs ht h => by
    rw [String.toList_append] at h
    exact (List.mem_append.1 h).elim hs ht
  refine Text.zero_notMem_utf8 ?_
  cases symbol with
  | name name => exact happend (happend hlibrary (by decide)) (hsymbol name rfl)
  | ordinal ordinal =>
    refine happend (happend hlibrary (by decide)) fun h => ?_
    rw [Nat.toString_eq_ofList_toDigits, String.toList_ofList] at h
    exact absurd (Nat.isDigit_of_mem_toDigits (by decide) (by decide) h) (by decide)

/-! ## The bytes are those of the tables -/

section Read

variable {t : Tables} {b b' : Buffer} {binding : Binding} {r : Nat} {dir : ExportDirectory}
  {now : UInt32} {slots : Slots} (hforms : t.Forms b) (hnames : t.names = exportTables)
  (hplaced : b.PlacedAt binding t.context.start r) (hfix : b.fixup binding = .ok b')

include hforms hnames hplaced hfix

/-- The value of the entry of a place says what the place has. -/
theorem slotRead_of_slotValue (hzero : ∀ e ∈ dir.exports, ∀ library symbol,
      e.target = .forwarder library symbol →
        '\x00' ∉ library.toList ∧ ∀ name, symbol = .name name → '\x00' ∉ name.toList)
    {slot : Option Export} {v : LinkValue}
    (hslot : ∀ e, slot = some e → e ∈ dir.exports)
    (hv : SlotValue binding (binding.env t.context.start) (fun name => r + t.start name) t slot v) :
    SlotRead (t.view b' r) b.virtSize binding (binding.env t.context.start) slot v.toNat := by
  rw [SlotValue] at hv
  rw [SlotRead]
  cases htarget : slot.map (·.target) with
  | none =>
    rw [htarget] at hv
    rw [hv]
    rfl
  | some target =>
    rw [htarget] at hv
    cases target with
    | address target => exact congrArg _ hv
    | forwarder library symbol =>
      obtain ⟨o, rfl, hhas⟩ := hv
      obtain ⟨e, rfl, hforwarder⟩ := Option.map_eq_some_iff.1 htarget
      obtain ⟨hlibrary, hsymbol⟩ := hzero e (hslot e rfl) library symbol hforwarder
      have hname : "nametable" ∈ t.names := hnames ▸ by decide
      have hinside := hhas.inside
      have hle := start_add_virtSize_le hname
      rw [FieldValues.size_ofBytes, List.length_append, List.length_singleton] at hinside
      rw [hforms.concat] at hle
      have hoffset : (t.view b' r).offset (r + t.start "nametable" + o) =
          t.start "nametable" + o := by
        rw [Nat.add_assoc]
        exact DirectoryView.offset_add _ _
      have htext := hforms.text hfix hname hplaced.constant (.refl _)
        (zero_notMem_forwarderText hlibrary hsymbol) hhas t.context.encoder.order r
      dsimp only
      rw [hforms.toNat_ofSize hplaced hname (by omega), hoffset]
      exact ⟨by omega, by omega, htext⟩

/-- What the tables have of a name is read: its place and, where its address leads, its text. -/
theorem NameAt.read {ordinals pointers : Nat} {name : String × Nat}
    (h : NameAt binding (fun name => r + t.start name) t ordinals pointers name)
    (hzero : '\x00' ∉ name.1.toList) (hlt : name.2 < 2 ^ 128) :
    (t.view b' r).number 2 (t.start "ord_table" + ordinals) = name.2 ∧
      (t.view b' r).text ((t.view b' r).offset
        ((t.view b' r).number 4 (t.start "namptable" + pointers))) = Text.utf8 name.1 := by
  obtain ⟨o, hordinal, hpointer, hhas⟩ := h
  have hname : "nametable" ∈ t.names := hnames ▸ by decide
  have hordinal' := (hforms.number hfix (hnames ▸ by decide) hplaced.constant (.refl _) hordinal
    (i := 0) rfl rfl rfl r).1
  have hpointer' := (hforms.number hfix (hnames ▸ by decide) hplaced.constant (.refl _) hpointer
    (i := 0) rfl rfl rfl r).1
  rw [LinkValue.toNat_ofSize hlt] at hordinal'
  rw [hforms.toNat_ofSize hplaced hname (Nat.le_of_add_right_le hhas.inside)] at hpointer'
  refine ⟨hordinal', ?_⟩
  rw [show (t.view b' r).number 4 (t.start "namptable" + pointers) = _ from hpointer',
    Nat.add_assoc, DirectoryView.offset_add]
  exact (hforms.text hfix hname hplaced.constant (.refl _) (Text.zero_notMem_utf8 hzero) hhas _ r).1

variable (hat : ExportsAt binding (binding.env t.context.start) (fun name => r + t.start name) dir
  now slots t)

include hat

/-- A field of the header is read as its value. -/
theorem ExportsAt.number (i : Nat) {type : FieldType} {value : LinkValue} {o : Nat}
    (hi : (headerValues dir now slots fun name => r + t.start name)[i]? = some (type, value))
    (ho : FieldValues.size ((headerValues dir now slots fun name => r + t.start name).take i) = o)
    (htype : type.signed = false) : (t.view b' r).number type.width o = value.toNat := by
  have hread :=
    (hforms.number hfix (hnames ▸ by decide) hplaced.constant (.refl _) hat.header hi ho htype r).1
  rw [start_first hnames, Nat.zero_add, Nat.zero_add] at hread
  exact hread

/-- The header leads to a table. -/
theorem ExportsAt.offset (i : Nat) {name : String} {o : Nat}
    (hi : (headerValues dir now slots fun name => r + t.start name)[i]? =
      some (.u32, .ofSize (r + t.start name)))
    (ho : FieldValues.size ((headerValues dir now slots fun name => r + t.start name).take i) = o)
    (hname : name ∈ exportTables) :
    (t.view b' r).offset ((t.view b' r).number 4 o) = t.start name := by
  have hvalue := hforms.toNat_ofSize hplaced (hnames ▸ hname) (Nat.zero_le _)
  rw [Nat.add_zero] at hvalue
  have hread := hat.number hforms hnames hplaced hfix i hi ho rfl
  rw [hvalue] at hread
  rw [show (t.view b' r).number 4 o = _ from hread]
  exact DirectoryView.offset_add _ _

theorem ExportsAt.libraryName (hzero : dir.ZeroFree) :
    (t.view b' r).libraryName = Text.utf8 (dir.libraryName.getD defaultLibraryName) := by
  have hoffset := hat.offset (o := 12) hforms hnames hplaced hfix 4 rfl rfl (by decide)
  rw [DirectoryView.libraryName, hoffset]
  refine (hforms.text hfix (hnames ▸ by decide) hplaced.constant (.refl _) ?_ hat.library _ r).1
  refine Text.zero_notMem_utf8 ?_
  cases hname : dir.libraryName with
  | none => decide
  | some name => exact hzero.libraryName name hname

theorem ExportsAt.ordinalBase : (t.view b' r).ordinalBase = (dir.ordinalBase.getD 1).toNat := by
  refine (hat.number hforms hnames hplaced hfix 5 rfl rfl rfl).trans (LinkValue.toNat_ofSize ?_)
  exact Nat.lt_trans (UInt32.toNat_lt _) (by decide)

omit hfix in
theorem ExportsAt.length_lt : slots.length < 2 ^ 128 := by
  obtain ⟨vs, hslots, hhas⟩ := hat.values
  have hinside := hhas.inside
  have hle := start_add_virtSize_le (hnames ▸ by decide : "addrtable" ∈ t.names)
  rw [hforms.concat] at hle
  have hplace := hplaced.inside
  rw [FieldValues.size_map, ← hslots.length_eq, show FieldType.u32.width = 4 from rfl] at hinside
  omega

theorem ExportsAt.functionCount : (t.view b' r).functionCount = slots.length :=
  (hat.number hforms hnames hplaced hfix 6 rfl rfl rfl).trans
    (LinkValue.toNat_ofSize (hat.length_lt hforms hnames hplaced))

theorem ExportsAt.nameCount (hperm : slots.placed.Perm dir.exports) :
    (t.view b' r).nameCount = dir.exports.countP (·.name.isSome) := by
  refine (hat.number hforms hnames hplaced hfix 7 rfl rfl rfl).trans (LinkValue.toNat_ofSize ?_)
  refine Nat.lt_of_le_of_lt List.countP_le_length ?_
  rw [← hperm.length_eq]
  exact Nat.lt_of_le_of_lt (List.length_filterMap_le id slots)
    (hat.length_lt hforms hnames hplaced)

/-- The entry of a place is read as the value that was written. -/
theorem ExportsAt.slotValue {i : Nat} {slot : Option Export} (hi : slots[i]? = some slot) :
    ∃ v, SlotValue binding (binding.env t.context.start) (fun name => r + t.start name) t slot v ∧
      (t.view b' r).slot i = v.toNat := by
  obtain ⟨vs, hslots, hhas⟩ := hat.values
  obtain ⟨hlt, rfl⟩ := List.getElem?_eq_some_iff.1 hi
  have hlt' : i < vs.length := hslots.length_eq ▸ hlt
  have hoffset := hat.offset (o := 28) hforms hnames hplaced hfix 8 rfl rfl (by decide)
  refine ⟨vs[i], hslots.get hlt hlt', ?_⟩
  have hread := (hforms.number hfix (hnames ▸ by decide) hplaced.constant (.refl _) hhas
    (i := i) (k := 4 * i) (by rw [List.getElem?_map, List.getElem?_eq_getElem hlt']; rfl)
    (by rw [← List.map_take, FieldValues.size_map, List.length_take_of_le hlt'.le]; rfl) rfl r).1
  rw [Nat.zero_add] at hread
  rw [DirectoryView.slot, hoffset]
  exact hread

/-- The entry of a place says what the place has. -/
theorem ExportsAt.entry (hzero : ∀ e ∈ dir.exports, ∀ library symbol,
      e.target = .forwarder library symbol →
        '\x00' ∉ library.toList ∧ ∀ name, symbol = .name name → '\x00' ∉ name.toList)
    (hperm : slots.placed.Perm dir.exports) {i : Nat} {slot : Option Export}
    (hi : slots[i]? = some slot) :
    SlotRead (t.view b' r) b.virtSize binding (binding.env t.context.start) slot
      ((t.view b' r).slot i) := by
  obtain ⟨v, hv, hentry⟩ := hat.slotValue hforms hnames hplaced hfix hi
  rw [hentry]
  refine slotRead_of_slotValue hforms hnames hplaced hfix hzero (fun e he => ?_) hv
  exact hperm.subset (List.mem_filterMap.2 ⟨some e, he ▸ List.mem_of_getElem? hi, rfl⟩)

/-- The names are read in the order in which they were written. -/
theorem ExportsAt.nameTable (hzero : ∀ e ∈ dir.exports, ∀ name ∈ e.name, '\x00' ∉ name.toList)
    (hperm : slots.placed.Perm dir.exports) : (t.view b' r).nameTable =
      (sortBy namedSlotLe (namedSlots 0 slots)).map fun name => (Text.utf8 name.1, name.2) := by
  have hcount := hat.nameCount hforms hnames hplaced hfix hperm
  have hlength : (sortBy namedSlotLe (namedSlots 0 slots)).length = (t.view b' r).nameCount := by
    rw [(perm_sortBy _ _).length_eq, length_namedSlots, hperm.countP_eq, hcount]
  refine List.ext_getElem ?_ fun j hj hj' => ?_
  · rw [DirectoryView.nameTable, List.length_map, List.length_map, List.length_range, hlength]
  rw [List.length_map] at hj'
  have hget := List.getElem?_eq_getElem hj'
  have hmem := List.mem_of_getElem? hget
  obtain ⟨e, he, hname⟩ := mem_namedSlots.1 ((perm_sortBy _ _).subset hmem)
  obtain ⟨hlt, hslot⟩ := List.getElem?_eq_some_iff.1 he
  have hexport : e ∈ dir.exports :=
    hperm.subset (List.mem_filterMap.2 ⟨some e, hslot ▸ List.getElem_mem hlt, rfl⟩)
  obtain ⟨hordinal, hpointer⟩ := (hat.names j _ hget).read hforms hnames hplaced hfix
    (hzero e hexport _ hname) (Nat.lt_trans hlt (hat.length_lt hforms hnames hplaced))
  simp only [DirectoryView.nameTable, List.getElem_map, List.getElem_range]
  rw [DirectoryView.exportName, DirectoryView.nameSlot,
    hat.offset (o := 32) hforms hnames hplaced hfix 9 rfl rfl (by decide),
    hat.offset (o := 36) hforms hnames hplaced hfix 10 rfl rfl (by decide), hordinal, hpointer]

/-- The names stand in the order of their bytes, and are those of the exports. -/
theorem ExportsAt.ordered (hzero : ∀ e ∈ dir.exports, ∀ name ∈ e.name, '\x00' ∉ name.toList)
    (hperm : slots.placed.Perm dir.exports) :
    ((t.view b' r).nameTable.map (·.1)).Pairwise (· ≤ ·) ∧
      (t.view b' r).nameTable.Perm slots.names := by
  rw [hat.nameTable hforms hnames hplaced hfix hzero hperm, List.map_map, List.pairwise_map,
    Slots.names_eq]
  exact ⟨sorted_namedSlots slots, (perm_sortBy _ _).map _⟩

end Read

/-! ## Finding a name -/

/-- Only one place of a list has what one place has. -/
theorem index_unique_of_countP {α : Type} {p : α → Bool} {l : List α} (h : l.countP p ≤ 1)
    {i j : Nat} {x y : α} (hx : l[i]? = some x) (hpx : p x) (hy : l[j]? = some y) (hpy : p y) :
    i = j := by
  induction l generalizing i j with
  | nil => exact nomatch hx
  | cons a l ih =>
    rw [List.countP_cons] at h
    have hnone : ∀ {k : Nat} {z : α}, p a → l[k]? = some z → ¬p z := fun {k z} ha hz hpz => by
      have hpos := List.countP_pos_iff.2 ⟨z, List.mem_of_getElem? hz, hpz⟩
      rw [if_pos ha] at h
      omega
    cases i with
    | zero =>
      cases Option.some.inj hx
      cases j with
      | zero => rfl
      | succ j => exact absurd hpy (hnone hpx hy)
    | succ i =>
      cases j with
      | zero =>
        cases Option.some.inj hy
        exact absurd hpx (hnone hpy hx)
      | succ j => exact congrArg _ (ih (by omega) hx hy)

/-- A name that one export has is found. -/
theorem DirectoryView.find_eq_some {v : DirectoryView} {slots : Slots} {exports : List Export}
    (hsorted : (v.nameTable.map (·.1)).Pairwise (· ≤ ·)) (hnames : v.nameTable.Perm slots.names)
    (hperm : slots.placed.Perm exports) {i : Nat} {e : Export} {name : String}
    (hi : slots[i]? = some (some e)) (hname : e.name = some name)
    (hunique : exports.countP (·.name == some name) = 1) :
    v.find (Text.utf8 name) = some i := by
  have hentry : (Text.utf8 name, i) ∈ slots.names := Slots.mem_names.2 ⟨e, name, hi, hname, rfl⟩
  obtain ⟨j, hj, heq⟩ := List.mem_map.1 (hnames.symm.subset hentry)
  have hordered : ∀ i k, i ≤ k → k < v.nameCount → v.exportName i ≤ v.exportName k := by
    intro i k hik hk
    rcases Nat.lt_or_eq_of_le hik with hlt | rfl
    · rw [DirectoryView.nameTable, List.map_map, List.pairwise_map] at hsorted
      have hpair := List.pairwise_iff_getElem.1 hsorted i k (by simpa using hlt.trans hk)
        (by simpa using hk) hlt
      rw [List.getElem_range, List.getElem_range] at hpair
      exact hpair
    · exact List.le_refl _
  obtain ⟨k, hk⟩ := Option.isSome_iff_exists.1 (bisect_isSome hordered (Nat.le_refl _)
    (Nat.zero_le j) (List.mem_range.1 hj) (Prod.mk.inj heq).1)
  obtain ⟨hkey, hlt⟩ := eq_of_bisect hk
  have hfound : (Text.utf8 name, v.nameSlot k) ∈ slots.names :=
    hnames.subset (List.mem_map.2 ⟨k, List.mem_range.2 hlt, by rw [hkey]⟩)
  obtain ⟨e', name', hi', hname', hbytes⟩ := Slots.mem_names.1 hfound
  rw [Text.utf8_injective hbytes] at hname'
  -- one place only has an export of the name
  have hone : slots.countP (fun slot => slot.any (·.name == some name)) = 1 := by
    rw [← hunique, ← hperm.countP_eq, Slots.placed, List.countP_filterMap]
    refine List.countP_congr fun slot _ => ?_
    cases slot <;> rfl
  rw [DirectoryView.find, hk, Option.map_some,
    index_unique_of_countP hone.le hi' (by simp [hname']) hi (by simp [hname])]

/-- **The bytes of an export directory are read as the directory.**  The places of the exports are
those of `assignSlots`, so every export has one. -/
theorem read_encodeExports {c c' : Context} {dir : ExportDirectory} {now : UInt32} {b b' : Buffer}
    {binding : Binding} {r : Nat} (h : encodeExports c dir now = .ok (b, c'))
    (hzero : dir.ZeroFree) (hplaced : b.PlacedAt binding c.start r)
    (htargets : ∀ e ∈ dir.exports, ∀ target, e.target = .address target →
      ∀ l ∈ target.labelLeaves, (binding.get? l).isSome)
    (hfix : b.fixup binding = .ok b') :
    ∃ slots, assignSlots dir.exports (dir.ordinalBase.getD 1).toNat = .ok slots ∧
      slots.placed.Perm dir.exports ∧
      slots.Read ⟨b'.contents, c.encoder.order, r⟩ b.virtSize binding (binding.env c.start) dir := by
  obtain ⟨slots, t, hslots, hforms, hnames, hkeeps, -, hexports⟩ := exportsAt_encodeExports h
  have hperm := perm_assignSlots hslots
  rw [← hkeeps.2] at hplaced ⊢
  rw [← hkeeps.1]
  have hat := hexports binding _ _ ⟨hplaced.constant, hplaced.get?_start, hforms.located hplaced⟩
    fun e he target htarget =>
      htargets e (hperm.subset (List.mem_filterMap.2 ⟨some e, he, rfl⟩)) target htarget
  obtain ⟨hsorted, hnameTable⟩ := hat.ordered hforms hnames hplaced hfix hzero.names hperm
  refine ⟨slots, hslots, hperm, ?_⟩
  exact {
    libraryName := hat.libraryName hforms hnames hplaced hfix hzero
    ordinalBase := hat.ordinalBase hforms hnames hplaced hfix
    functionCount := hat.functionCount hforms hnames hplaced hfix
    nameCount := hat.nameCount hforms hnames hplaced hfix hperm
    sorted := hsorted
    names := hnameTable
    entries := fun i slot hi => hat.entry hforms hnames hplaced hfix hzero.forwarders hperm hi
    ordinals := fun e he ordinal hordinal => by
      rw [hat.ordinalBase hforms hnames hplaced hfix]
      exact getElem?_assignSlots hslots he hordinal
    found := fun i e name hi hname hunique =>
      DirectoryView.find_eq_some hsorted hnameTable hperm hi hname hunique }

/-- A place that an ordinal fixes, a free place behind it that a name fills, one that stays empty, and
a forwarder. -/
def pinnedAndFilled : ExportDirectory :=
  { ExportDirectory.empty with
    libraryName := some "sample.dll"
    ordinalBase := some 5
    exports := [⟨some "run", .address (.label "code"), none⟩,
      ⟨some "alloc", .forwarder "core" (.name "alloc"), some 8⟩,
      ⟨none, .address (.label "code" + .ofSize 16), some 5⟩] }

theorem read_encodeExports_pinnedAndFilled :
    ∃ b c' b', encodeExports ⟨.empty, ⟨.little, false⟩, "image"⟩ pinnedAndFilled 7 = .ok (b, c') ∧
      let binding := b.placing "image" 0x400000 0x1000 [("code", 0x402000)]
      b.PlacedAt binding "image" 0x1000 ∧ b.fixup binding = .ok b' ∧
      ∃ slots, assignSlots pinnedAndFilled.exports 5 = .ok slots ∧
        slots.placed.Perm pinnedAndFilled.exports ∧
        slots.Read ⟨b'.contents, .little, 0x1000⟩ b.virtSize binding (binding.env "image")
          pinnedAndFilled := by
  obtain ⟨⟨b, c'⟩, hencode, hnodup, hsize, hfixed, hcode⟩ :
      ∃ e, encodeExports ⟨.empty, ⟨.little, false⟩, "image"⟩ pinnedAndFilled 7 = .ok e ∧
        ("image" :: e.1.labels).Nodup ∧ e.1.virtSize < 0x1000 ∧
        (e.1.fixup (e.1.placing "image" 0x400000 0x1000 [("code", 0x402000)])).toOption.isSome ∧
        ((e.1.placing "image" 0x400000 0x1000 [("code", 0x402000)]).get? "code").isSome :=
    exists_eq_ok (by decide +kernel)
  obtain ⟨b', hfix⟩ := isSome_toOption.1 hfixed
  change b.virtSize < 0x1000 at hsize
  have hplaced : b.PlacedAt (b.placing "image" 0x400000 0x1000 [("code", 0x402000)]) "image"
      0x1000 := b.placedAt_placing _ _ hnodup (by omega)
  have hlabel : ∀ l ∈ ["code"],
      ((b.placing "image" 0x400000 0x1000 [("code", 0x402000)]).get? l).isSome :=
    List.forall_mem_singleton.2 hcode
  refine ⟨b, c', b', hencode, hplaced, hfix,
    read_encodeExports hencode ⟨by decide, by decide, ?_⟩ hplaced ?_ hfix⟩
  · refine List.forall_mem_cons.2 ⟨?_, List.forall_mem_cons.2 ⟨?_, List.forall_mem_singleton.2 ?_⟩⟩
    · exact fun _ _ h => nomatch h
    · rintro _ _ ⟨⟩
      exact ⟨by decide, fun _ hname => by cases hname; decide⟩
    · exact fun _ _ h => nomatch h
  · refine List.forall_mem_cons.2 ⟨?_, List.forall_mem_cons.2 ⟨?_, List.forall_mem_singleton.2 ?_⟩⟩
    · rintro _ ⟨⟩
      exact hlabel
    · exact fun _ h => nomatch h
    · rintro _ ⟨⟩
      exact hlabel

end PortableImage
