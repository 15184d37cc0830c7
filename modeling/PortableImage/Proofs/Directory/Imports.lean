import PortableImage.Proofs.Directory.View
import PortableImage.Proofs.Rounding

/-!
# The import directory is made of its tables

The entries of a library are written twice, to the lookup table and to the address table, while the
hints and names go to a table of their own, each at an even place.

* `ImportValue` — the value of an entry: an ordinal with its flag, or where a hint and a name are.
* `Buffer.IsAddressTable` — entries, which may be pending, and a zero one behind them.
* `LibraryAt` — what the tables have of a library, beside its address table.
* `librariesAt_encodeImports` — the directory is made of tables that have every library.
-/

set_option autoImplicit false

namespace PortableImage

open Buffer Tables

/-! ## What is written -/

/-- The value of an entry: the ordinal with its flag, or the address of a hint and a name. -/
def ImportValue (binding : Binding) (place : String → Nat) (t : Tables) (i : Import)
    (v : LinkValue) : Prop :=
  match i.ordinal, i.name with
  | some ordinal, _ =>
    v = .ofSize (ordinal.toNat.toUInt64 ||| t.context.encoder.ordinalFlag).toNat
  | none, some name => ∃ o, v = .ofSize (place "nametable" + o) ∧ 2 ∣ o ∧
      t.HasUnder binding "nametable" o [(.u16, .ofSize (i.hint.getD 0).toNat)] ∧
      t.HasUnder binding "nametable" (o + 2) (.ofBytes (Text.utf8 name ++ [0]))
  | none, none => False

/-- An address table of the given number of entries.  They may be pending; the zero entry behind them
is not. -/
structure Buffer.IsAddressTable (b : Buffer) (width count : Nat) : Prop where
  full : b.tail = 0
  size : b.virtSize = width * (count + 1)
  entries : ∀ k f, b.fields.get? k = some f → k + f.type.width ≤ width * count
  stop : ∀ k, width * count ≤ k → k < width * (count + 1) → b.contents[k]? = some 0

theorem Buffer.IsAddressTable.labelled {b b' : Buffer} {width count : Nat}
    (h : b.IsAddressTable width count) (hb : b.Labelled b') : b'.IsAddressTable width count := by
  obtain ⟨added, rfl⟩ := hb
  exact ⟨h.full, h.size, h.entries, h.stop⟩

/-- The zero entry at the end of a table is written at once. -/
theorem FieldEncoder.address_zero {f : FieldEncoder} {stop : Buffer}
    (h : f.address (.const 0) = .ok stop) :
    stop = ofBytes (List.replicate f.addressType.width 0) := by
  obtain ⟨v, bytes, hv, hbytes, rfl⟩ | ⟨hnone, -⟩ := encode_eq_ok h
  · cases hv
    obtain ⟨-, rfl⟩ := FieldType.encodeValue_eq_ok.1 hbytes
    show ofBytes (f.order.arrange (littleEndian _ 0)) = _
    rw [littleEndian_zero]
    cases f.order with
    | little => rfl
    | big =>
      show ofBytes (List.replicate _ 0).reverse = _
      rw [List.reverse_replicate]
  · exact nomatch hnone

theorem Buffer.isAddressTable_append {f : FieldEncoder} {front stop : Buffer} {count : Nat}
    (hfront : front.FieldsInside) (hsize : front.virtSize = f.addressType.width * count)
    (hstop : f.address (.const 0) = .ok stop) :
    (front ++ stop).IsAddressTable f.addressType.width count := by
  obtain rfl := FieldEncoder.address_zero hstop
  refine ⟨rfl, ?_, ?_, ?_⟩
  · rw [virtSize_append, hsize, Nat.mul_succ]
    exact congrArg _ (List.length_replicate)
  · intro k g hg
    rw [get?_fields_append, Option.or_eq_some_iff] at hg
    rcases hg with hg | ⟨-, hg⟩
    · split at hg
      · exact nomatch (OffsetMap.get?_empty _).symm.trans hg
      · exact nomatch hg
    · rw [← hsize]
      exact hfront k g hg
  · intro k hle hlt
    rw [Nat.mul_succ] at hlt
    rw [contents_append, List.getElem?_append_right (by rw [length_contents]; omega),
      length_contents, contents_eq_data rfl]
    exact List.getElem?_replicate_of_lt (by omega)

section Write

variable {binding : Binding} {base : LinkValue} {place : String → Nat} {t u t' : Tables}

theorem ImportValue.grows {i : Import} {v : LinkValue} (h : ImportValue binding place t i v)
    (hg : Grows (fun _ => binding) t u) : ImportValue binding place u i v := by
  rw [ImportValue] at h ⊢
  split at h
  · rw [hg.context.1]
    exact h
  · obtain ⟨o, hv, heven, hhint, hname⟩ := h
    exact ⟨o, hv, heven, hhint.grows hg, hname.grows hg⟩
  · exact h

theorem virtSize_importEntry {library : String} {i : Import} {value : Expr}
    (h : importEntry library i t = .ok (value, t')) {other : String} (hother : other ≠ "nametable") :
    (t'.table other).virtSize = (t.table other).virtSize := by
  rw [importEntry.eq_def] at h
  split at h
  · cases h
    rfl
  · simp only [bind_eq_ok, pure_eq_ok, Prod.mk.injEq] at h
    obtain ⟨_, -, -, rfl⟩ := h
    rw [virtSize_text_of_ne _ hother, table_append_of_ne _ hother]
    show ((Tables.label _ "nametable").2.table other).virtSize = _
    rw [virtSize_label, table_modify_of_ne _ hother]
  · exact nomatch h

/-- The value of an entry says what is imported. -/
theorem importValue_importEntry {library : String} {i : Import} {value : Expr}
    (h : importEntry library i t = .ok (value, t')) (ht : t.Spelled) (hname : "nametable" ∈ t.names) :
    (∀ names, Grows names t t') ∧ ∀ binding base place, t'.Placed binding base place →
      ∃ v, value.constantUnder binding = some v ∧ ImportValue binding place t' i v := by
  rw [importEntry.eq_def] at h
  split at h
  · next ordinal hordinal =>
    cases h
    refine ⟨fun _ => .refl _ _, fun binding base place _ =>
      ⟨.ofSize (ordinal.toNat.toUInt64 ||| t.context.encoder.ordinalFlag).toNat, rfl, ?_⟩⟩
    rw [ImportValue, hordinal]
  · next name hordinal hnamed =>
    simp only [bind_eq_ok, pure_eq_ok, Prod.mk.injEq] at h
    obtain ⟨hint, hhint, rfl, rfl⟩ := h
    let t₁ := t.modify "nametable" (·.align 2)
    let t₂ := (t₁.rvaEnd "nametable").2
    let t₃ := t₂.append "nametable" hint
    let t₄ := t₃.text "nametable" (Text.utf8 name)
    have g₁ : ∀ names, Grows names t t₁ := fun _ => grows_align hname 2
    have g₂ : ∀ names, Grows names t₁ t₂ := fun names => grows_rvaEnd ((g₁ names).mem hname)
    have g₁₂ := fun names => (g₁ names).trans (g₂ names)
    have hspells : hint.Spells t₂.context.encoder _ := spells_encode hhint
    have g₃ : ∀ names, Grows names t₂ t₃ := fun names =>
      grows_append ((g₁₂ names).mem hname) hspells
    have g₁₃ := fun names => (g₁₂ names).trans (g₃ names)
    have g₄ : ∀ names, Grows names t₃ t₄ := fun names => grows_text ((g₁₃ names).mem hname) _
    refine ⟨fun names => (g₁₃ names).trans (g₄ names), fun binding base place hplaced => ?_⟩
    have hvalue : (t₁.rvaEnd "nametable").1.constantUnder binding = _ :=
      constantUnder_rvaEnd (hplaced.of_grows ((g₃ _).trans (g₄ _)))
    have heven : 2 ∣ (t₁.table "nametable").virtSize := by
      rw [table_modify_self, Buffer.virtSize_align _ rfl]
      exact (isLeast_alignSize rfl _).1.1
    have hsize₂ : (t₂.table "nametable").virtSize = (t₁.table "nametable").virtSize :=
      virtSize_label t₁ "nametable" "nametable"
    have hhas₃ : t₃.HasUnder binding "nametable" (t₂.table "nametable").virtSize
        [(.u16, .ofSize (i.hint.getD 0).toNat)] :=
      has_append (ht.grows (g₁₂ fun _ => binding)) hspells (.cons ⟨rfl, rfl⟩ .nil)
    have hhas₄ : t₄.HasUnder binding "nametable" (t₃.table "nametable").virtSize _ :=
      has_text (ht.grows (g₁₃ fun _ => binding)) (Text.utf8 name)
    have hsize₃ : (t₃.table "nametable").virtSize = (t₁.table "nametable").virtSize + 2 := by
      rw [table_append_self, virtSize_append, hsize₂, hspells.virtSize_eq]
      rfl
    rw [hsize₂] at hhas₃
    rw [hsize₃] at hhas₄
    refine ⟨_, hvalue, ?_⟩
    rw [ImportValue, hordinal, hnamed]
    exact ⟨_, rfl, heven, hhas₃.grows (g₄ _), hhas₄⟩
  · cases h

/-- The address table of a library, before an entry is put behind it. -/
def withTarget (i : Import) (addresses : Buffer) : Buffer :=
  match i.target with
  | some target => addresses.addExport target addresses.virtSize
  | none => addresses

theorem alike_withTarget (i : Import) (addresses : Buffer) :
    (withTarget i addresses).Alike addresses := by
  rw [withTarget]
  split
  · exact ⟨rfl, rfl⟩
  · exact .refl _

theorem encodeEntries_cons {library : String} {i : Import} {is : List Import} {addresses b : Buffer}
    (h : encodeEntries library (i :: is) addresses t = .ok (b, t')) :
    ∃ value t₁ entry, importEntry library i t = .ok (value, t₁) ∧
      t₁.context.encoder.address value = .ok entry ∧
      encodeEntries library is (withTarget i addresses ++ entry) (t₁.append "ilt" entry) =
        .ok (b, t') := by
  simp only [encodeEntries, bind_eq_ok, Prod.exists] at h
  obtain ⟨value, t₁, h₁, entry, hentry, h₂⟩ := h
  exact ⟨value, t₁, entry, h₁, hentry, h₂⟩

/-- The slots of the imports have their labels. -/
theorem exports_encodeEntries {library : String} {is : List Import} {addresses b : Buffer}
    (h : encodeEntries library is addresses t = .ok (b, t')) :
    (∀ e ∈ addresses.exports, e ∈ b.exports) ∧
      ∀ (j : Nat) i target, is[j]? = some i → i.target = some target →
        (target, addresses.virtSize + t.context.encoder.addressType.width * j) ∈ b.exports := by
  induction is generalizing addresses t with
  | nil =>
    simp only [encodeEntries, bind_eq_ok, pure_eq_ok, Prod.mk.injEq] at h
    obtain ⟨stop, -, rfl, rfl⟩ := h
    refine ⟨fun e he => ?_, fun _ _ _ hj => by cases hj⟩
    rw [exports_append]
    exact List.mem_append_left _ he
  | cons i is ih =>
    obtain ⟨value, t₁, entry, h₁, hentry, h₂⟩ := encodeEntries_cons h
    have hencoder : (t₁.append "ilt" entry).context.encoder = t.context.encoder :=
      (continues_importEntry h₁).context.1
    obtain ⟨hkeeps, hslots⟩ := ih h₂
    have hmem : ∀ e ∈ (withTarget i addresses).exports, e ∈ b.exports := fun e he =>
      hkeeps e (by rw [exports_append]; exact List.mem_append_left _ he)
    refine ⟨fun e he => hmem e ?_, fun j i' target hj htarget => ?_⟩
    · rw [withTarget]
      split
      · exact List.mem_append_left _ he
      · exact he
    · cases j with
      | zero =>
        obtain rfl : i = i' := Option.some.inj hj
        refine hmem _ ?_
        rw [withTarget, htarget, Nat.mul_zero, Nat.add_zero]
        exact List.mem_append_right _ (List.mem_singleton.2 rfl)
      | succ j =>
        have hslot := hslots j i' target hj htarget
        rw [hencoder, virtSize_append, (alike_withTarget i addresses).virtSize_eq,
          FieldEncoder.virtSize_encode hentry, (continues_importEntry h₁).context.1,
          Nat.add_assoc, Nat.add_comm (FieldType.width _), ← Nat.mul_succ] at hslot
        exact hslot

/-- Entries are put behind those that are there, and a zero one behind them. -/
theorem exists_stop_encodeEntries {library : String} {is : List Import} {addresses b : Buffer}
    (h : encodeEntries library is addresses t = .ok (b, t')) (hin : addresses.FieldsInside) :
    ∃ front stop, b = front ++ stop ∧ front.FieldsInside ∧
      front.virtSize = addresses.virtSize + t.context.encoder.addressType.width * is.length ∧
      t.context.encoder.address (.const 0) = .ok stop := by
  induction is generalizing addresses t with
  | nil =>
    simp only [encodeEntries, bind_eq_ok, pure_eq_ok, Prod.mk.injEq] at h
    obtain ⟨stop, hstop, rfl, rfl⟩ := h
    exact ⟨addresses, stop, rfl, hin, rfl, hstop⟩
  | cons i is ih =>
    obtain ⟨value, t₁, entry, h₁, hentry, h₂⟩ := encodeEntries_cons h
    have hencoder : t₁.context.encoder = t.context.encoder := (continues_importEntry h₁).context.1
    have hencoder' : (t₁.append "ilt" entry).context.encoder = t.context.encoder := hencoder
    have halike := alike_withTarget i addresses
    have hin' : (withTarget i addresses).FieldsInside := fun k f hf => by
      rw [halike.fields] at hf
      rw [halike.virtSize_eq]
      exact hin k f hf
    obtain ⟨front, stop, rfl, hfront, hsize, hstop⟩ :=
      ih h₂ (hin'.append (FieldEncoder.fieldsInside_encode hentry))
    refine ⟨front, stop, rfl, hfront, ?_, hencoder' ▸ hstop⟩
    rw [hsize, virtSize_append, halike.virtSize_eq, FieldEncoder.virtSize_encode hentry, hencoder,
      hencoder', List.length_cons, Nat.mul_succ]
    omega

theorem virtSize_encodeEntries {library : String} {is : List Import} {addresses b : Buffer}
    (h : encodeEntries library is addresses t = .ok (b, t')) :
    (t'.table "ilt").virtSize = (t.table "ilt").virtSize +
        t.context.encoder.addressType.width * (is.length + 1) ∧
      (t'.table "idata").virtSize = (t.table "idata").virtSize := by
  induction is generalizing addresses t with
  | nil =>
    simp only [encodeEntries, bind_eq_ok, pure_eq_ok, Prod.mk.injEq] at h
    obtain ⟨stop, hstop, rfl, rfl⟩ := h
    rw [table_append_self, virtSize_append, table_append_of_ne t (by decide),
      FieldEncoder.virtSize_encode hstop, List.length_nil, Nat.zero_add, Nat.mul_one]
    exact ⟨rfl, rfl⟩
  | cons i is ih =>
    obtain ⟨value, t₁, entry, h₁, hentry, h₂⟩ := encodeEntries_cons h
    have hencoder : t₁.context.encoder = t.context.encoder := (continues_importEntry h₁).context.1
    have hencoder' : (t₁.append "ilt" entry).context.encoder = t.context.encoder := hencoder
    obtain ⟨hlookup, hdescriptors⟩ := ih h₂
    constructor
    · rw [hlookup, table_append_self, virtSize_append, FieldEncoder.virtSize_encode hentry, hencoder,
        hencoder', virtSize_importEntry h₁ (by decide), List.length_cons, Nat.mul_succ _ (_ + 1)]
      omega
    · rw [hdescriptors, table_append_of_ne t₁ (by decide), virtSize_importEntry h₁ (by decide)]

/-- **Both tables of a library have the values of the entries and, behind them, a zero one.** -/
theorem entries_encodeEntries {library : String} {is : List Import} {addresses b : Buffer}
    (h : encodeEntries library is addresses t = .ok (b, t')) (ht : t.Spelled)
    (hlookup : "ilt" ∈ t.names) (hname : "nametable" ∈ t.names) :
    (∀ names, Grows names t t') ∧ ∃ r : Record,
      (∀ r₀, addresses.Spells t.context.encoder r₀ → b.Spells t.context.encoder (r₀ ++ r)) ∧
      ∀ binding base place, t'.Placed binding base place → ∃ vs : List LinkValue,
        List.Forall₂ (ImportValue binding place t') is vs ∧
        r.Becomes binding ((vs ++ [0]).map fun v => (t.context.encoder.addressType, v)) ∧
        t'.HasEntries binding "ilt" t.context.encoder.addressType (t.table "ilt").virtSize
          (vs ++ [0]) := by
  induction is generalizing addresses t with
  | nil =>
    simp only [encodeEntries, bind_eq_ok, pure_eq_ok, Prod.mk.injEq] at h
    obtain ⟨stop, hstop, rfl, rfl⟩ := h
    have hspells : stop.Spells t.context.encoder _ := spells_encode hstop
    refine ⟨fun _ => grows_append hlookup hspells, _, fun r₀ hr₀ => hr₀.append hspells,
      fun binding base place _ => ⟨[], .nil, .cons ⟨rfl, rfl⟩ .nil, ?_, trivial⟩⟩
    exact has_append ht hspells (.cons ⟨rfl, rfl⟩ .nil)
  | cons i is ih =>
    obtain ⟨value, t₁, entry, h₁, hentry, h₂⟩ := encodeEntries_cons h
    obtain ⟨g₁, hvalue⟩ := importValue_importEntry h₁ ht hname
    have hspells : entry.Spells t₁.context.encoder _ := spells_encode hentry
    let t₂ := t₁.append "ilt" entry
    have g₂ : ∀ names, Grows names t₁ t₂ := fun names =>
      grows_append ((g₁ names).mem hlookup) hspells
    have g₁₂ := fun names => (g₁ names).trans (g₂ names)
    let any : String → Binding := fun _ => .empty
    obtain ⟨g₃, r, hr, hvalues⟩ := ih h₂ (ht.grows (g₁₂ any)) ((g₁₂ any).mem hlookup)
      ((g₁₂ any).mem hname)
    have hencoder₁ : t₁.context.encoder = t.context.encoder := (g₁ any).context.1
    have hencoder₂ : (t₁.append "ilt" entry).context.encoder = t.context.encoder :=
      (g₁₂ any).context.1
    rw [hencoder₂] at hr hvalues
    refine ⟨fun names => (g₁₂ names).trans (g₃ names), (t.context.encoder.addressType, value) :: r,
      fun r₀ hr₀ => ?_, fun binding base place hplaced => ?_⟩
    · rw [hencoder₁] at hspells
      have happend := hr _ ((hr₀.congr (alike_withTarget i addresses)).append hspells)
      rw [List.append_assoc] at happend
      exact happend
    · obtain ⟨v, hv, himport⟩ :=
        hvalue binding base place (hplaced.of_grows ((g₂ _).trans (g₃ _)))
      obtain ⟨vs, himports, hbecomes, hentries⟩ := hvalues binding base place hplaced
      have hhas : t₂.HasUnder binding "ilt" (t₁.table "ilt").virtSize
          [(t₁.context.encoder.addressType, v)] :=
        has_append (ht.grows (g₁ fun _ => binding)) hspells (.cons ⟨rfl, hv⟩ .nil)
      have hsize : (t₁.table "ilt").virtSize = (t.table "ilt").virtSize :=
        virtSize_importEntry h₁ (by decide)
      rw [hsize, hencoder₁] at hhas
      rw [table_append_self, virtSize_append, FieldEncoder.virtSize_encode hentry, hsize,
        hencoder₁] at hentries
      exact ⟨v :: vs, .cons (himport.grows ((g₂ _).trans (g₃ _))) himports,
        .cons ⟨rfl, hv⟩ hbecomes, hhas.grows (g₃ _), hentries⟩

/-! ## Libraries -/

/-- The values of the fields of a descriptor. -/
def descriptorValues (dir : ImportDirectory) (lookup name addresses : Nat) : FieldValues :=
  [(.u32, .ofSize lookup),
    (.u32, .ofSize dir.timestamp.toNat),
    (.u32, .ofSize dir.forwarderChain.toNat),
    (.u32, .ofSize name),
    (.u32, .ofSize addresses)]

/-- What the tables have of a library whose address table `b` is at the address `q`: a descriptor at
the offset `d`, a name, and a lookup table with the values that the address table has. -/
def LibraryAt (binding : Binding) (place : String → Nat) (t : Tables) (d : Nat)
    (dir : ImportDirectory) (b : Buffer) (q : Nat) : Prop :=
  ∃ lookup name vs r,
    t.HasUnder binding "idata" d
      (descriptorValues dir (place "ilt" + lookup) (place "nametable" + name) q) ∧
    t.HasUnder binding "nametable" name (.ofBytes (Text.utf8 dir.library ++ [0])) ∧
    List.Forall₂ (ImportValue binding place t) dir.imports vs ∧
    t.HasEntries binding "ilt" t.context.encoder.addressType lookup (vs ++ [0]) ∧
    b.Spells t.context.encoder r ∧
    r.Becomes binding ((vs ++ [0]).map fun v => (t.context.encoder.addressType, v))

theorem LibraryAt.grows {d q : Nat} {dir : ImportDirectory} {b : Buffer}
    (h : LibraryAt binding place t d dir b q) (hg : Grows (fun _ => binding) t u) :
    LibraryAt binding place u d dir b q := by
  obtain ⟨lookup, name, vs, r, hdescriptor, hname, himports, hentries, hspells, hr⟩ := h
  refine ⟨lookup, name, vs, r, hdescriptor.grows hg, hname.grows hg,
    himports.imp fun _ _ h => h.grows hg, ?_⟩
  rw [hg.context.1]
  exact ⟨hentries.grows hg, hspells, hr⟩

/-- What writing a library does to the tables, whatever binding they are read with. -/
structure AddsLibrary (dir : ImportDirectory) (b : Buffer) (t t' : Tables) : Prop where
  grows : ∀ names, Grows names t t'
  descriptors : (t'.table "idata").virtSize = (t.table "idata").virtSize + 20
  lookups : (t'.table "ilt").virtSize = (t.table "ilt").virtSize +
    t.context.encoder.addressType.width * (dir.imports.length + 1)
  slots : ∀ (j : Nat) i target, dir.imports[j]? = some i → i.target = some target →
    (target, t.context.encoder.addressType.width * j) ∈ b.exports
  table : b.IsAddressTable t.context.encoder.addressType.width dir.imports.length

/-- **A library is written to the tables and to its address table.** -/
theorem libraryAt_encodeLibrary {dir : ImportDirectory} {b : Buffer}
    (h : encodeLibrary dir t = .ok (b, t')) (ht : t.Spelled) (hnames : t.names = importTables) :
    AddsLibrary dir b t t' ∧ ∀ binding base place q, t'.Placed binding base place →
      b.PlacedAt binding t.context.start q →
      LibraryAt binding place t' (t.table "idata").virtSize dir b q := by
  simp only [encodeLibrary, bind_eq_ok] at h
  obtain ⟨descriptor, hdescriptor, h⟩ := h
  let iat := t.context.labelAt .empty 0 "iat"
  let t₁ : Tables := { t with context := iat.2.1 }
  let t₂ := (t₁.rvaEnd "ilt").2
  let t₃ := (t₂.rvaEnd "nametable").2
  let t₄ := t₃.append "idata" descriptor
  let t₅ := t₄.text "nametable" (Text.utf8 dir.library)
  let any : String → Binding := fun _ => .empty
  have hmem : ∀ {u : Tables}, u.names = importTables → ∀ name ∈ importTables, name ∈ u.names :=
    fun hu _ hname => hu ▸ hname
  have g₁ : ∀ names, Grows names t t₁ := fun _ => grows_context t (t.context.keeps_labelAt _ _ _)
  have n₁ := (g₁ any).names.trans hnames
  have g₂ : ∀ names, Grows names t₁ t₂ := fun _ => grows_rvaEnd (hmem n₁ _ (by decide))
  have n₂ := (g₂ any).names.trans n₁
  have g₃ : ∀ names, Grows names t₂ t₃ := fun _ => grows_rvaEnd (hmem n₂ _ (by decide))
  have n₃ := (g₃ any).names.trans n₂
  have hspells : descriptor.Spells t₃.context.encoder _ := spells_record hdescriptor
  have g₄ : ∀ names, Grows names t₃ t₄ := fun _ => grows_append (hmem n₃ _ (by decide)) hspells
  have n₄ := (g₄ any).names.trans n₃
  have g₅ : ∀ names, Grows names t₄ t₅ := fun _ => grows_text (hmem n₄ _ (by decide)) _
  have n₅ := (g₅ any).names.trans n₄
  have g₁₃ := fun names => ((g₁ names).trans (g₂ names)).trans (g₃ names)
  have g₁₅ := fun names => ((g₁₃ names).trans (g₄ names)).trans (g₅ names)
  have hencoder : t₅.context.encoder = t.context.encoder := (g₁₅ any).context.1
  obtain ⟨g₆, r, hr, hvalues⟩ := entries_encodeEntries h (ht.grows (g₁₅ any))
    (hmem n₅ _ (by decide)) (hmem n₅ _ (by decide))
  obtain ⟨hlookups, hdescriptors⟩ := virtSize_encodeEntries h
  obtain ⟨hkeeps, hslots⟩ := exports_encodeEntries h
  have hiat : iat.2.2.Alike .empty := (labelled_labelAt t.context .empty 0 "iat").alike
  have hsize₃ : ∀ name, (t₃.table name).virtSize = (t.table name).virtSize := fun name => by
    show (((t₂.label "nametable").2).table name).virtSize = _
    rw [virtSize_label]
    exact virtSize_label t₁ "ilt" name
  have hdescriptors₅ : (t₅.table "idata").virtSize = (t.table "idata").virtSize + 20 := by
    rw [virtSize_text_of_ne t₄ (by decide), table_append_self, virtSize_append, hsize₃,
      hspells.virtSize_eq]
    rfl
  have hlookups₅ : (t₅.table "ilt").virtSize = (t.table "ilt").virtSize := by
    rw [virtSize_text_of_ne t₄ (by decide), table_append_of_ne t₃ (by decide), hsize₃]
  constructor
  · refine ⟨fun names => (g₁₅ names).trans (g₆ names), hdescriptors.trans hdescriptors₅, ?_,
      fun j i target hj htarget => ?_, ?_⟩
    · rw [hlookups]
      exact congrArg₂ _ hlookups₅ (by rw [← hencoder])
    · have hslot := hslots j i target hj htarget
      rw [hiat.virtSize_eq, show Buffer.empty.virtSize = 0 from rfl, Nat.zero_add] at hslot
      rw [← hencoder]
      exact hslot
    · have hin : iat.2.2.FieldsInside := fieldsInside_empty.labelAt t.context 0 "iat"
      obtain ⟨front, stop, rfl, hfront, hsize, hstop⟩ := exists_stop_encodeEntries h hin
      rw [hiat.virtSize_eq, show Buffer.empty.virtSize = 0 from rfl, Nat.zero_add] at hsize
      rw [← hencoder]
      exact isAddressTable_append hfront hsize hstop
  · intro binding base place q hplaced hq
    obtain ⟨vs, himports, hbecomes, hentries⟩ := hvalues binding base place hplaced
    have g₃₆ := ((g₄ fun _ => binding).trans (g₅ _)).trans (g₆ _)
    have hstart : binding.get? t.context.start = some (.const base) := by
      rw [← ((g₁₅ any).trans (g₆ any)).context.2]
      exact hplaced.start
    have hlabel : binding.get? iat.1 = some (.const (base + LinkValue.ofSize q)) := by
      have hget := hq.labels _ (hkeeps _ (mem_exports_labelAt t.context .empty 0 "iat"))
      rw [Binding.env_of_get? hstart] at hget
      exact hget
    have hlookup : (t₁.rvaEnd "ilt").1.constantUnder binding = _ :=
      constantUnder_rvaEnd (hplaced.of_grows ((g₃ _).trans g₃₆))
    have hname : (t₂.rvaEnd "nametable").1.constantUnder binding = _ :=
      constantUnder_rvaEnd (hplaced.of_grows g₃₆)
    have haddresses : (t₃.context.rva (.label iat.1)).constantUnder binding = _ :=
      constantUnder_rva hplaced.constant (hplaced.of_grows g₃₆).start hlabel
    have hhas₄ : t₄.HasUnder binding "idata" (t₃.table "idata").virtSize (descriptorValues dir
        (place "ilt" + (t₁.table "ilt").virtSize)
        (place "nametable" + (t₂.table "nametable").virtSize) q) :=
      has_append (ht.grows (g₁₃ fun _ => binding)) hspells <|
        .cons ⟨rfl, hlookup⟩ <| .cons ⟨rfl, rfl⟩ <| .cons ⟨rfl, rfl⟩ <| .cons ⟨rfl, hname⟩ <|
        .cons ⟨rfl, haddresses⟩ .nil
    have hhas₅ : t₅.HasUnder binding "nametable" (t₄.table "nametable").virtSize _ :=
      has_text ((ht.grows (g₁₃ any)).grows (g₄ any)) (Text.utf8 dir.library)
    have hsize₄ : (t₄.table "nametable").virtSize = (t₂.table "nametable").virtSize := by
      rw [table_append_of_ne t₃ (by decide)]
      exact virtSize_label t₂ "nametable" "nametable"
    rw [hsize₃] at hhas₄
    rw [hsize₄] at hhas₅
    have hencoder' : t'.context.encoder = t₅.context.encoder := (g₆ any).context.1
    refine ⟨(t₁.table "ilt").virtSize, (t₂.table "nametable").virtSize, vs, r,
      hhas₄.grows ((g₅ _).trans (g₆ _)), hhas₅.grows (g₆ _), himports, ?_⟩
    rw [hencoder', show (t₁.table "ilt").virtSize = _ from hlookups₅.symm]
    exact ⟨hentries, hr [] ((spells_empty _).congr hiat), hbecomes⟩

/-- The slots of every library have the labels of its imports. -/
def SlotsLabelled (f : FieldEncoder) (dirs : List ImportDirectory) (bs : List Buffer) : Prop :=
  ∀ (n : Nat) dir b, dirs[n]? = some dir → bs[n]? = some b →
    ∀ (j : Nat) i target, dir.imports[j]? = some i → i.target = some target →
      (target, f.addressType.width * j) ∈ b.exports

/-- The address table of every library has as many entries as there are imports. -/
def AreAddressTables (f : FieldEncoder) (dirs : List ImportDirectory) (bs : List Buffer) : Prop :=
  ∀ (n : Nat) dir b, dirs[n]? = some dir → bs[n]? = some b →
    b.IsAddressTable f.addressType.width dir.imports.length

/-- What writing libraries does to the tables, whatever binding they are read with. -/
structure AddsLibraries (dirs : List ImportDirectory) (bs : List Buffer) (t t' : Tables) : Prop where
  grows : ∀ names, Grows names t t'
  length : bs.length = dirs.length
  descriptors : (t'.table "idata").virtSize = (t.table "idata").virtSize + 20 * dirs.length
  lookups : ∃ k, (t'.table "ilt").virtSize = (t.table "ilt").virtSize +
    t.context.encoder.addressType.width * k
  slots : SlotsLabelled t.context.encoder dirs bs
  tables : AreAddressTables t.context.encoder dirs bs

/-- **The libraries are written one behind the other.** -/
theorem librariesAt_encodeLibraries {dirs : List ImportDirectory} {bs : List Buffer}
    (h : encodeLibraries dirs t = .ok (bs, t')) (ht : t.Spelled) (hnames : t.names = importTables) :
    AddsLibraries dirs bs t t' ∧ ∀ binding base place, t'.Placed binding base place →
      ∀ (n : Nat) dir b q, dirs[n]? = some dir → bs[n]? = some b →
        b.PlacedAt binding t.context.start q →
        LibraryAt binding place t' ((t.table "idata").virtSize + 20 * n) dir b q := by
  induction dirs generalizing t bs with
  | nil =>
    cases h
    exact ⟨⟨fun _ => .refl _ _, rfl, rfl, ⟨0, rfl⟩, fun _ _ _ hn => (nomatch hn),
      fun _ _ _ hn => (nomatch hn)⟩,
      fun _ _ _ _ _ _ _ _ hn => nomatch hn⟩
  | cons dir dirs ih =>
    simp only [encodeLibraries, bind_eq_ok, pure_eq_ok, Prod.exists, Prod.mk.injEq] at h
    obtain ⟨b, t₁, h₁, bs, t₂, h₂, rfl, rfl⟩ := h
    obtain ⟨hadds, hlibrary⟩ := libraryAt_encodeLibrary h₁ ht hnames
    have hfirst := hadds.grows fun _ => .empty
    have hencoder : t₁.context.encoder = t.context.encoder := hfirst.context.1
    obtain ⟨hrest, hlibraries⟩ := ih h₂ (ht.grows hfirst) (hfirst.names.trans hnames)
    refine ⟨⟨fun names => (hadds.grows names).trans (hrest.grows names),
      congrArg (· + 1) hrest.length, ?_, ?_, ?_, ?_⟩, ?_⟩
    · rw [hrest.descriptors, hadds.descriptors, List.length_cons]
      omega
    · obtain ⟨k, hk⟩ := hrest.lookups
      exact ⟨dir.imports.length + 1 + k, by rw [hk, hadds.lookups, hencoder, Nat.mul_add _ _ k,
        Nat.add_assoc]⟩
    · intro n dir' b' hdir hb
      cases n with
      | zero =>
        cases Option.some.inj hdir
        cases Option.some.inj hb
        exact hadds.slots
      | succ n =>
        rw [← hencoder]
        exact hrest.slots n dir' b' hdir hb
    · intro n dir' b' hdir hb
      cases n with
      | zero =>
        cases Option.some.inj hdir
        cases Option.some.inj hb
        exact hadds.table
      | succ n =>
        rw [← hencoder]
        exact hrest.tables n dir' b' hdir hb
    · intro binding base place hplaced n dir' b' q hdir hb hq
      cases n with
      | zero =>
        cases Option.some.inj hdir
        cases Option.some.inj hb
        exact (hlibrary binding base place q (hplaced.of_grows (hrest.grows _)) hq).grows
          (hrest.grows _)
      | succ n =>
        rw [← hfirst.context.2] at hq
        have hat := hlibraries binding base place hplaced n dir' b' q hdir hb hq
        rw [hadds.descriptors, Nat.add_assoc, Nat.add_comm 20, ← Nat.mul_succ] at hat
        exact hat

/-- What the tables of an import directory have, whatever binding they are read with. -/
structure ImportsFormed (c : Context) (dirs : List ImportDirectory) (b : Buffer) (bs : List Buffer)
    (t : Tables) : Prop where
  forms : t.Forms b
  names : t.names = importTables
  keeps : c.Keeps t.context
  length : bs.length = dirs.length
  slots : SlotsLabelled c.encoder dirs bs
  tables : AreAddressTables c.encoder dirs bs
  /-- A zero descriptor stands in front of the texts, so no text has the address zero. -/
  behind : 20 ≤ t.start "nametable"
  even : 2 ∣ t.start "nametable"

/-- **The import directory is made of tables that have every library**, and a zero descriptor. -/
theorem librariesAt_encodeImports {c c' : Context} {dirs : List ImportDirectory} {b : Buffer}
    {bs : List Buffer} (h : encodeImports c dirs = .ok (b, bs, c')) :
    ∃ t, ImportsFormed c dirs b bs t ∧ ∀ binding base place, t.Placed binding base place →
      t.HasUnder binding "idata" (20 * dirs.length) (List.replicate 5 (.u32, 0)) ∧
      ∀ (n : Nat) dir b q, dirs[n]? = some dir → bs[n]? = some b →
        b.PlacedAt binding c.start q → LibraryAt binding place t (20 * n) dir b q := by
  simp only [encodeImports, bind_eq_ok, pure_eq_ok, Prod.exists, Prod.mk.injEq] at h
  obtain ⟨bs, t₁, h₁, stop, hstop, rfl, rfl, rfl⟩ := h
  let t₀ := Tables.new c importTables
  let t₂ := t₁.append "idata" stop
  have ht₀ : t₀.Spelled := spelled_new c importTables
  have hempty : ∀ name, (t₀.table name).virtSize = 0 := fun name => by
    rw [table_new]
    rfl
  obtain ⟨hadds, hlibraries⟩ := librariesAt_encodeLibraries h₁ ht₀ (names_new c importTables)
  have hall := hadds.grows fun _ => .empty
  have n₁ : t₁.names = importTables := hall.names.trans (names_new c importTables)
  have hstop₁ : stop.Spells t₁.context.encoder _ := hall.context.1.symm ▸ spells_record hstop
  have g₂ : ∀ names, Grows names t₁ t₂ := fun _ => grows_append (n₁ ▸ by decide) hstop₁
  have n₂ : t₂.names = importTables := (g₂ fun _ => .empty).names.trans n₁
  have hidata : (t₁.table "idata").virtSize = 20 * dirs.length := by
    rw [hadds.descriptors, hempty, Nat.zero_add]
  have hstart : t₂.start "nametable" = 20 * (dirs.length + 1) + (t₁.table "ilt").virtSize := by
    have hnodup : t₂.names.Nodup := n₂ ▸ by decide
    have hsplit : t₂.names = ["idata", "ilt"] ++ "nametable" :: [] := n₂
    rw [start_eq hnodup hsplit, List.map_cons, List.map_singleton,
      table_append_self, virtSize_append, table_append_of_ne t₁ (by decide), hidata,
      hstop₁.virtSize_eq]
    rfl
  refine ⟨t₂, ⟨⟨rfl, n₂ ▸ by decide, (ht₀.grows hall).grows (g₂ fun _ => .empty)⟩, n₂,
    hall.context, hadds.length, hadds.slots,
    hadds.tables, by omega, ?_⟩, fun binding base place hplaced => ⟨?_, ?_⟩⟩
  · obtain ⟨k, hk⟩ := hadds.lookups
    have hwidth : 2 ∣ c.encoder.addressType.width := by
      rw [FieldEncoder.addressType]
      split <;> decide
    rw [hstart, hk, hempty, Nat.zero_add]
    exact Nat.dvd_add (Dvd.dvd.mul_right (by decide) _) (Dvd.dvd.mul_right hwidth k)
  · have hhas : t₂.HasUnder binding "idata" (t₁.table "idata").virtSize (List.replicate 5 (.u32, 0)) :=
      has_append (ht₀.grows hall) hstop₁ (Record.becomes_record (List.replicate 5 (.u32, 0)))
    rw [hidata] at hhas
    exact hhas
  · intro n dir b q hdir hb hq
    have hat := hlibraries binding base place (hplaced.of_grows (g₂ _)) n dir b q hdir hb hq
    rw [hempty, Nat.zero_add] at hat
    exact hat.grows (g₂ _)

/-! ## The end of the directory -/

theorem tail_importEntry {library : String} {i : Import} {value : Expr}
    (h : importEntry library i t = .ok (value, t')) (ht : (t.table "nametable").tail = 0) :
    (t'.table "nametable").tail = 0 := by
  rw [importEntry.eq_def] at h
  split at h
  · cases h
    exact ht
  · simp only [bind_eq_ok, pure_eq_ok, Prod.mk.injEq] at h
    obtain ⟨_, -, -, rfl⟩ := h
    exact tail_text_self _ _ _
  · exact nomatch h

theorem tail_encodeEntries {library : String} {is : List Import} {addresses b : Buffer}
    (h : encodeEntries library is addresses t = .ok (b, t')) (ht : (t.table "nametable").tail = 0) :
    (t'.table "nametable").tail = 0 := by
  induction is generalizing addresses t with
  | nil =>
    simp only [encodeEntries, bind_eq_ok, pure_eq_ok, Prod.mk.injEq] at h
    obtain ⟨stop, -, -, rfl⟩ := h
    rw [table_append_of_ne _ (by decide), ht]
  | cons i is ih =>
    obtain ⟨value, t₁, entry, h₁, -, h₂⟩ := encodeEntries_cons h
    refine ih h₂ ?_
    rw [table_append_of_ne _ (by decide), tail_importEntry h₁ ht]

theorem tail_encodeLibrary {dir : ImportDirectory} {b : Buffer}
    (h : encodeLibrary dir t = .ok (b, t')) : (t'.table "nametable").tail = 0 := by
  simp only [encodeLibrary, bind_eq_ok] at h
  obtain ⟨descriptor, -, h⟩ := h
  exact tail_encodeEntries h (tail_text_self _ _ _)

theorem tail_encodeLibraries {dirs : List ImportDirectory} {bs : List Buffer}
    (h : encodeLibraries dirs t = .ok (bs, t')) (ht : (t.table "nametable").tail = 0) :
    (t'.table "nametable").tail = 0 := by
  induction dirs generalizing t bs with
  | nil =>
    cases h
    exact ht
  | cons dir dirs ih =>
    simp only [encodeLibraries, bind_eq_ok, pure_eq_ok, Prod.exists, Prod.mk.injEq] at h
    obtain ⟨b, t₁, h₁, bs, t₂, h₂, -, rfl⟩ := h
    exact ih h₂ (tail_encodeLibrary h₁)

/-- **The import directory ends with its bytes**, namely with those of the names. -/
theorem tail_encodeImports {c c' : Context} {dirs : List ImportDirectory} {b : Buffer}
    {bs : List Buffer} (h : encodeImports c dirs = .ok (b, bs, c')) : b.tail = 0 := by
  simp only [encodeImports, bind_eq_ok, pure_eq_ok, Prod.exists, Prod.mk.injEq] at h
  obtain ⟨bs, t₁, h₁, stop, -, rfl, -⟩ := h
  obtain ⟨hadds, -⟩ := librariesAt_encodeLibraries h₁ (spelled_new c importTables)
    (names_new c importTables)
  have hnames : (t₁.append "idata" stop).names = ["idata", "ilt"] ++ ["nametable"] := by
    have hbefore := (hadds.grows fun _ => .empty).names.trans (names_new c importTables)
    rw [Tables.append, names_modify (hbefore ▸ by decide), hbefore]
    rfl
  rw [tail_concat (hnames ▸ by decide) hnames,
    table_append_of_ne _ (by decide), tail_encodeLibraries h₁ (by rw [table_new]; rfl)]

end Write

end PortableImage
