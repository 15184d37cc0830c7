import PortableImage.Proofs.Encode.AddressTables
import PortableImage.Proofs.Encode.OnePass
import PortableImage.Proofs.Header.Directories
import PortableImage.Proofs.Sorting

/-!
# The data directory of the address tables

A loader may find all address tables of an image through one data directory.  It reaches from the
first table to the end of the last, in an order that depends on the addresses which the libraries ask
for.  So it covers all slots where this is the order that the tables have in memory.

* `tablePlace` — where the address table of a library is.
* `SlotsAt` — the labels of all slots are known.
* `Encoding.exists_places` — the slots of an encoded image.
* `encodeImage_tableDirectory` — what the data directory covers.
-/

set_option autoImplicit false

namespace PortableImage

open Buffer Assembly

/-! ## Places -/

/-- The size of the address table of a library: an entry for each import, and a zero one. -/
def ImportDirectory.tableSize (dir : ImportDirectory) (width : Nat) : Nat :=
  width * (dir.imports.length + 1)

/-- The size of the address tables that have no place in one of the sections. -/
def floatingSize (sections : List Section) (width : Nat) : List ImportDirectory → Nat
  | [] => 0
  | dir :: rest =>
    (if fixedPlace sections dir = none then dir.tableSize width else 0) +
      floatingSize sections width rest

/-- Where the address table of a library is, relative to the start of the image: at the address that
the library asks for, if one of the sections covers it, and otherwise behind the tables of the
libraries before it, which start at `base`. -/
def tablePlace (sections : List Section) (width base : Nat) (dirs : List ImportDirectory)
    (n : Nat) : Nat :=
  match dirs[n]?.bind (fixedPlace sections) with
  | some rva => rva
  | none => base + floatingSize sections width (dirs.take n)

/-- The slots of the libraries have labels, and these are bound to the addresses of the slots. -/
def SlotsAt (binding : Binding) (base width : Nat) (place : Nat → Nat)
    (dirs : List ImportDirectory) : Prop :=
  ∀ (n : Nat) dir (j : Nat) i, dirs[n]? = some dir → dir.imports[j]? = some i →
    ∃ target, i.target = some target ∧
      binding.get? target = some (.ofSize (base + place n + width * j))

/-- The labels of the address tables are bound to the places of the tables. -/
def TablesAt (binding : Binding) (base : Nat) (place : Nat → Nat) (dirs : List ImportDirectory)
    (tables : List Buffer) : Prop :=
  ∀ (n : Nat) dir table, dirs[n]? = some dir → tables[n]? = some table →
    place n + table.virtSize < 2 ^ 65 + 2 ^ 33 ∧ ∀ l k, (l, k) ∈ table.exports →
      binding.get? l = some (.ofSize (base + place n + k))

theorem looseSize_zip {sections : List Section} {width : Nat} {dirs : List ImportDirectory}
    {tables : List Buffer} (hlength : tables.length = dirs.length)
    (hsize : ∀ (n : Nat) dir table, dirs[n]? = some dir → tables[n]? = some table →
      table.virtSize = dir.tableSize width) (n : Nat) :
    looseSize sections ((dirs.zip tables).take n) = floatingSize sections width (dirs.take n) := by
  induction dirs generalizing tables n with
  | nil =>
    rw [List.zip_nil_left, List.take_nil, List.take_nil]
    rfl
  | cons dir dirs ih =>
    cases tables with
    | nil => exact nomatch hlength
    | cons table tables =>
      cases n with
      | zero => rfl
      | succ n =>
        rw [List.zip_cons_cons, List.take_succ_cons, List.take_succ_cons, looseSize, floatingSize,
          ih (Nat.succ.inj hlength) fun n => hsize (n + 1), hsize 0 dir table rfl rfl]

/-- Floating tables are in the order of their libraries. -/
theorem floatingSize_take_le {sections : List Section} (width : Nat) {dirs : List ImportDirectory}
    {m n : Nat} {dir : ImportDirectory} (hm : dirs[m]? = some dir)
    (hdir : fixedPlace sections dir = none) (hlt : m < n) :
    floatingSize sections width (dirs.take m) + dir.tableSize width ≤
      floatingSize sections width (dirs.take n) := by
  induction dirs generalizing m n with
  | nil => exact nomatch hm
  | cons first rest ih =>
    obtain ⟨n, rfl⟩ := Nat.exists_eq_succ_of_ne_zero (Nat.ne_zero_of_lt hlt)
    rw [List.take_succ_cons, floatingSize]
    cases m with
    | zero =>
      cases hm
      rw [List.take_zero, floatingSize, if_pos hdir]
      omega
    | succ m =>
      have hrest := ih hm (Nat.lt_of_succ_lt_succ hlt)
      rw [List.take_succ_cons, floatingSize]
      omega

theorem fixedPlace_eq_some {sections : List Section} {dir : ImportDirectory} {place : Nat}
    (h : fixedPlace sections dir = some place) :
    ∃ rva, dir.tableAddress = some rva ∧ place = rva.toNat := by
  rw [fixedPlace] at h
  split at h
  · cases h
  · next rva hrva =>
    split at h
    · cases h
      exact ⟨rva, hrva, rfl⟩
    · cases h

theorem fixedPlace_eq_none {sections : List Section} {dir : ImportDirectory}
    (h : dir.tableAddress = none) : fixedPlace sections dir = none := by
  rw [fixedPlace, h]

/-- **A table that a section of the caller covers stays in its place** while sections grow. -/
theorem fixedPlace_grows {l l' : List Section} (h : SectionsGrow l l') {dir : ImportDirectory}
    {place : Nat} (hplace : fixedPlace l dir = some place) : fixedPlace l' dir = some place := by
  rw [fixedPlace] at hplace ⊢
  split at hplace
  · cases hplace
  · split at hplace
    · next hcovered =>
      obtain ⟨s, hs, hcovers⟩ := List.any_eq_true.1 hcovered
      obtain ⟨i, hi⟩ := List.mem_iff_getElem?.1 hs
      obtain ⟨s', hs', hgrows⟩ := h i s hi
      rw [if_pos (List.any_eq_true.2 ⟨s', List.mem_of_getElem? hs', hgrows.covers hcovers⟩)]
      exact hplace
    · cases hplace

theorem tablePlace_of_fixed {sections : List Section} {width base : Nat}
    {dirs : List ImportDirectory} {n : Nat} {dir : ImportDirectory} {place : Nat}
    (hn : dirs[n]? = some dir) (h : fixedPlace sections dir = some place) :
    tablePlace sections width base dirs n = place := by
  rw [tablePlace, hn, Option.bind_some, h]

theorem tablePlace_of_floating {sections : List Section} {width base : Nat}
    {dirs : List ImportDirectory} {n : Nat} {dir : ImportDirectory}
    (hn : dirs[n]? = some dir) (h : fixedPlace sections dir = none) :
    tablePlace sections width base dirs n =
      base + floatingSize sections width (dirs.take n) := by
  rw [tablePlace, hn, Option.bind_some, h]

/-! ## The slots of an encoded image -/

namespace Encoding

variable {image : Image} {options : EncodeOptions} {clock : UInt32} {a : Assembly}
  {h : HeadedImage} {q p : Placement} {e : EncodedImage} {size : Nat}
  (enc : Encoding image options clock a h q p e size)

include enc

/-- What stands in a section of the assembled image is found in memory where the section is. -/
theorem exists_standing (hlen : e.bytes.length < UInt64.size) {i o : Nat} {b : Buffer}
    (hstands : StandsIn a.image.sections i o b) :
    ∃ r, q.placed[i]? = some r ∧ o + b.rawSize < UInt64.size ∧
      r.rva ≤ UInt64.size + UInt32.size ∧
      ∀ l k, (l, k) ∈ b.exports →
        p.binding.get? l = some (.ofSize (h.numbers.base + (r.rva + o) + k)) := by
  have ⟨s, _, hs, _⟩ := hstands
  obtain ⟨s', r, address, hs', hr, -, hat, hlabelled⟩ :=
    enc.exists_placed_of_assembled hs
  have haddress := (enc.view_row hs' hat hlen).2
  have hbase := h.base_lt
  have hraw := hstands.rawSize_le hs
  have hgrow := hlabelled.grows.rawSize_le
  have hfile := hat.rawSize
  have hend := enc.rawAddress_le hat
  refine ⟨r, hr, by omega, ?_, fun l k hlk => ?_⟩
  · have hsmall := hat.small
    rw [maxAddress] at hsmall
    rw [UInt64.size, UInt32.size] at hsmall ⊢
    omega
  · obtain ⟨t, ht, hmem⟩ := hstands.exports hlk
    rw [hs, Option.some.injEq] at ht
    subst ht
    have hbound := enc.places.tables.binding _ _
      (hat.exports l (o + k) (hlabelled.grows.exports.subset hmem))
    rw [hbound, haddress]
    congr 2
    omega

/-- **All address tables of an image that imports something have places**, and their labels are bound
to these. -/
theorem exists_places (hlen : e.bytes.length < UInt64.size) (himports : image.imports.getD [] ≠ []) :
    ∃ sections base dirs b tables, SectionsGrow image.sections sections ∧
      LibrariesGrow (image.imports.getD []) dirs ∧ a.Imported sections dirs b tables ∧
      TablesAt p.binding h.numbers.base
        (tablePlace sections image.encoder.addressType.width base dirs) dirs tables := by
  obtain ⟨l, -, himported⟩ := directories_withDirectories enc.assembled
  obtain ⟨sections, dirs, b, tables, hgrow, hlibraries, himported, -⟩ := himported himports
  obtain ⟨i, o, hloose⟩ := himported.loose
  have hencoder : a.context.encoder = image.encoder := enc.encoder_eq
  have hlength : tables.length = dirs.length := by
    obtain ⟨c, bs, c', -, hencode, hlabelled⟩ := himported.encoded
    obtain ⟨t, hformed, -⟩ := librariesAt_encodeImports hencode
    rw [← hlabelled.length_eq, hformed.length]
  have htable : ∀ (n : Nat) dir table, dirs[n]? = some dir → tables[n]? = some table →
      table.IsAddressTable image.encoder.addressType.width dir.imports.length := by
    intro n dir table hdir htable
    obtain ⟨table', htable', hformed, -⟩ := himported.exists_table hdir
    rw [htable, Option.some.injEq] at htable'
    rw [htable', ← hencoder]
    exact hformed
  have hplaced : ∀ (n : Nat) dir table, dirs[n]? = some dir → tables[n]? = some table →
      fixedPlace sections dir = none → StandsIn a.image.sections i
        (o + floatingSize sections image.encoder.addressType.width (dirs.take n)) table := by
    intro n dir table hdir ht hnone
    have hstands := hloose n dir table hdir ht hnone
    rwa [looseSize_zip hlength fun m dir table hdir ht => (htable m dir table hdir ht).size]
      at hstands
  refine ⟨sections, ((q.placed[i]?).map (·.rva)).getD 0 + o, dirs, b, tables, hgrow, hlibraries,
    himported, fun n dir table hdir ht => ?_⟩
  cases hfixed : fixedPlace sections dir with
  | none =>
    obtain ⟨r, hr, hsize, hrva, hbound⟩ :=
      enc.exists_standing hlen (hplaced n dir table hdir ht hfixed)
    rw [tablePlace_of_floating hdir hfixed, hr, Option.map_some, Option.getD_some]
    rw [rawSize] at hsize
    rw [virtSize, (htable n dir table hdir ht).full]
    rw [UInt64.size] at hsize
    rw [UInt64.size, UInt32.size] at hrva
    refine ⟨by omega, fun l k hlk => ?_⟩
    rw [hbound l k hlk, Nat.add_assoc r.rva]
  | some rva =>
    have hordered := mem_orderedTables.2 (himported.mem_tablesInPlace hdir ht hfixed)
    obtain ⟨given, -, rfl⟩ := fixedPlace_eq_some hfixed
    obtain ⟨r, hr, -, hroom⟩ := enc.places.tables.room _ hordered
    obtain ⟨j, hj⟩ := List.mem_iff_getElem?.1 hr
    obtain ⟨s, -, -, address, hat⟩ := exists_left_of_forall₂ enc.places.sections hj
    have hend := enc.rawAddress_le hat
    have hsmall := given.toNat_lt
    rw [UInt64.size] at hlen
    rw [tablePlace_of_fixed hdir hfixed]
    have hinside := hroom.written
    dsimp only at hinside
    exact ⟨by omega, enc.places.tables.exports _ hordered⟩

variable {sections : List Section} {dirs : List ImportDirectory} {b : Buffer}
  {tables : List Buffer} {place : Nat → Nat}

/-- Every slot is in the address table of its library. -/
theorem slotsAt (himported : a.Imported sections dirs b tables)
    (hplaces : TablesAt p.binding h.numbers.base place dirs tables) :
    SlotsAt p.binding h.numbers.base image.encoder.addressType.width place dirs := by
  intro n dir j i hdir hi
  have hencoder : a.context.encoder = image.encoder := enc.encoder_eq
  obtain ⟨table, htable, -, hslots⟩ := himported.exists_table hdir
  obtain ⟨target, htarget⟩ := Option.isSome_iff_exists.1
    (himported.targets dir (List.mem_of_getElem? hdir) i (List.mem_of_getElem? hi))
  refine ⟨target, htarget, (hplaces n dir table hdir htable).2 target _ ?_⟩
  rw [← hencoder]
  exact hslots j i target hi htarget

/-- **The data directory goes from the first table to the end of the last.** -/
theorem view_tableDirectory (himported : a.Imported sections dirs b tables)
    (hplaces : TablesAt p.binding h.numbers.base place dirs tables)
    (hcount : 13 ≤ image.directoryCount) :
    ∃ first last dir, (tableOrder dirs).head? = some first ∧
      (tableOrder dirs).getLast? = some last ∧ dirs[last]? = some dir ∧
      place first ≤ place last + dir.tableSize image.encoder.addressType.width ∧
      (e.view image options).directory .importAddressTable = ⟨place first,
        place last + dir.tableSize image.encoder.addressType.width - place first⟩ := by
  have hencoder : a.context.encoder = image.encoder := enc.encoder_eq
  have hbase := h.base_lt
  obtain ⟨first, last, start, stop, t, t', hfirst, hlast, ht, hstart, ht', hstop, hdirectory⟩ :=
    himported.directory
  obtain ⟨dir, hdir⟩ : ∃ dir, dirs[first]? = some dir :=
    ⟨_, List.getElem?_eq_getElem (mem_tableOrder.1 (List.mem_of_head? hfirst))⟩
  obtain ⟨dir', hdir'⟩ : ∃ dir, dirs[last]? = some dir :=
    ⟨_, List.getElem?_eq_getElem (mem_tableOrder.1 (List.mem_of_getLast? hlast))⟩
  obtain ⟨u, hu, htable, -⟩ := himported.exists_table hdir'
  rw [ht', Option.some.injEq] at hu
  rw [← hu, hencoder] at htable
  have hsize : t'.virtSize = dir'.tableSize image.encoder.addressType.width := htable.size
  obtain ⟨hsmall, hlabel⟩ := hplaces first dir t hdir ht
  obtain ⟨hsmall', hlabel'⟩ := hplaces last dir' t' hdir' ht'
  rw [hsize] at hsmall' hstop
  have hstart' := hlabel start 0 hstart
  have hstop' := hlabel' stop _ hstop
  obtain ⟨hview, -, hfits⟩ := enc.view_directory (Nat.lt_of_lt_of_le (by decide) hcount) hdirectory
  have hvalue : (Expr.label stop - Expr.label start).eval p.binding.env =
      .ofSize (h.numbers.base + place last + dir'.tableSize image.encoder.addressType.width) -
        .ofSize (h.numbers.base + place first + 0) :=
    congrArg₂ (· - ·) (Binding.env_of_get? hstop') (Binding.env_of_get? hstart')
  dsimp only at hview hfits
  rw [hvalue] at hview hfits
  obtain ⟨hle, hsub⟩ := LinkValue.toNat_ofSize_sub (by omega) (by omega)
    (Nat.lt_trans hfits (by decide))
  have haddress : ((a.context.rva (.label start)).eval p.binding.env).toNat = place first :=
    enc.eval_rva (by omega) (by rw [hstart', Nat.add_zero])
  refine ⟨first, last, dir', hfirst, hlast, hdir', by omega, hview.trans ?_⟩
  rw [hsub, haddress]
  congr 1
  omega

end Encoding

/-! ## The order of the tables -/

/-- In the order of the data directory, the entries of a table end before the next table starts. -/
def TablesInOrder (width : Nat) (place : Nat → Nat) (dirs : List ImportDirectory) : Prop :=
  (tableOrder dirs).Pairwise fun m n =>
    ∀ dir, dirs[m]? = some dir → place m + width * dir.imports.length ≤ place n

/-- The entries of two tables at different addresses lie apart. -/
def EntriesApart (width : Nat) (place : Nat → Nat) (dirs : List ImportDirectory) : Prop :=
  ∀ (m n : Nat) dir dir', dirs[m]? = some dir → dirs[n]? = some dir' → m ≠ n →
    place m ≠ place n ∧ (place m + width * dir.imports.length ≤ place n ∨
      place n + width * dir'.imports.length ≤ place m)

/-- Tables without a fixed address are in order. -/
theorem tablesInOrder_of_floating {dirs : List ImportDirectory}
    (h : ∀ dir ∈ dirs, dir.tableAddress = none) (sections : List Section) (width base : Nat) :
    TablesInOrder width (tablePlace sections width base dirs) dirs := by
  have horder : tableOrder dirs = List.range dirs.length := by
    have hhead : (dirs.head?.bind (·.tableAddress)).isSome = false := by
      cases hdirs : dirs.head? with
      | none => rfl
      | some dir =>
        rw [Option.bind_some, h dir (List.mem_of_head? hdirs)]
        rfl
    rw [tableOrder, hhead]
    rfl
  rw [TablesInOrder, horder]
  refine (List.pairwise_lt_range (n := dirs.length)).imp_of_mem fun {m n} _ hn hlt dir hm => ?_
  have hn' := List.getElem?_eq_getElem (List.mem_range.1 hn)
  have hfloats : ∀ {k} {dir : ImportDirectory}, dirs[k]? = some dir →
      fixedPlace sections dir = none := fun hk => fixedPlace_eq_none (h _ (List.mem_of_getElem? hk))
  rw [tablePlace_of_floating hm (hfloats hm), tablePlace_of_floating hn' (hfloats hn')]
  have hle := floatingSize_take_le width hm (hfloats hm) hlt
  rw [ImportDirectory.tableSize, Nat.mul_succ] at hle
  omega

/-- If the first library asks for an address, the libraries that do are in the order of these. -/
theorem pairwise_tableOrder {dirs : List ImportDirectory} {first : UInt32}
    (h : dirs.head?.bind (·.tableAddress) = some first) : (tableOrder dirs).Pairwise fun m n =>
      ∀ dir dir' rva rva', dirs[m]? = some dir → dirs[n]? = some dir' →
        dir.tableAddress = some rva → dir'.tableAddress = some rva' → rva.toNat ≤ rva'.toNat := by
  rw [tableOrder, h, Option.isSome_some, if_pos rfl]
  refine (pairwise_sortBy (fun m n => ?_) (fun m n k => ?_) _).imp
    fun {m n} hle dir dir' rva rva' hdir hdir' hrva hrva' => ?_
  · simp only [decide_eq_true_eq]
    exact Nat.le_total _ _
  · simp only [decide_eq_true_eq]
    exact Nat.le_trans
  · simpa only [hdir, hdir', hrva, hrva', Option.getD_some, decide_eq_true_eq] using hle

/-- Tables over sections of the image are in order if their entries lie apart. -/
theorem tablesInOrder_of_fixed {dirs : List ImportDirectory} {sections : List Section}
    {width base : Nat} (h : ∀ dir ∈ dirs, (fixedPlace sections dir).isSome)
    (hapart : EntriesApart width (tablePlace sections width base dirs) dirs) :
    TablesInOrder width (tablePlace sections width base dirs) dirs := by
  have hplace : ∀ {n} {dir : ImportDirectory}, dirs[n]? = some dir → ∃ rva,
      dir.tableAddress = some rva ∧ tablePlace sections width base dirs n = rva.toNat := by
    intro n dir hn
    obtain ⟨place, hplace⟩ := Option.isSome_iff_exists.1 (h dir (List.mem_of_getElem? hn))
    obtain ⟨rva, hrva, rfl⟩ := fixedPlace_eq_some hplace
    exact ⟨rva, hrva, tablePlace_of_fixed hn hplace⟩
  -- the order is that of the addresses, which are all different
  have hsorted : (tableOrder dirs).Pairwise fun m n =>
      tablePlace sections width base dirs m ≤ tablePlace sections width base dirs n := by
    cases hdirs : dirs with
    | nil => exact .nil
    | cons first rest =>
      have hzero : dirs[0]? = some first := by rw [hdirs]; rfl
      obtain ⟨rva, hrva, -⟩ := hplace hzero
      rw [← hdirs]
      refine (pairwise_tableOrder (by rw [hdirs]; exact hrva)).imp_of_mem
        fun {m n} hm hn hle => ?_
      obtain ⟨dir, hdir⟩ : ∃ dir, dirs[m]? = some dir :=
        ⟨_, List.getElem?_eq_getElem (mem_tableOrder.1 hm)⟩
      obtain ⟨dir', hdir'⟩ : ∃ dir, dirs[n]? = some dir :=
        ⟨_, List.getElem?_eq_getElem (mem_tableOrder.1 hn)⟩
      obtain ⟨rva, hrva, heq⟩ := hplace hdir
      obtain ⟨rva', hrva', heq'⟩ := hplace hdir'
      rw [heq, heq']
      exact hle dir dir' rva rva' hdir hdir' hrva hrva'
  have hnodup : (tableOrder dirs).Nodup :=
    (perm_tableOrder dirs).nodup_iff.2 List.nodup_range
  refine (hsorted.and hnodup).imp_of_mem fun {m n} _ hn ⟨hle, hne⟩ dir hm => ?_
  obtain ⟨hdiffers, hends | hends⟩ :=
    hapart m n dir _ hm (List.getElem?_eq_getElem (mem_tableOrder.1 hn)) hne
  · exact hends
  · omega

/-- What is in order lies between the first and the last. -/
theorem TablesInOrder.between {width : Nat} {place : Nat → Nat} {dirs : List ImportDirectory}
    (h : TablesInOrder width place dirs) {first last : Nat}
    (hfirst : (tableOrder dirs).head? = some first) (hlast : (tableOrder dirs).getLast? = some last)
    {n : Nat} {dir dir' : ImportDirectory} (hn : dirs[n]? = some dir)
    (hdir' : dirs[last]? = some dir') : place first ≤ place n ∧
      place n + width * dir.imports.length ≤ place last + dir'.tableSize width := by
  have hmem : n ∈ tableOrder dirs := mem_tableOrder.2 (List.getElem?_eq_some_iff.1 hn).1
  constructor
  · obtain ⟨rest, hrest⟩ := List.head?_eq_some_iff.1 hfirst
    rw [TablesInOrder, hrest, List.pairwise_cons] at h
    rw [hrest] at hmem
    rcases List.mem_cons.1 hmem with rfl | hmem
    · exact Nat.le_refl _
    · have hfirst' : first < dirs.length := mem_tableOrder.1 (by rw [hrest]; exact List.mem_cons_self)
      have hle := h.1 n hmem _ (List.getElem?_eq_getElem hfirst')
      omega
  · obtain ⟨front, hfront⟩ := List.getLast?_eq_some_iff.1 hlast
    rw [TablesInOrder, hfront, List.pairwise_append] at h
    rw [hfront] at hmem
    rw [ImportDirectory.tableSize, Nat.mul_succ]
    rcases List.mem_append.1 hmem with hmem | hmem
    · have hle := h.2.2 n hmem last (List.mem_singleton.2 rfl) dir hn
      omega
    · rw [List.mem_singleton.1 hmem] at hn ⊢
      rw [hn, Option.some.injEq] at hdir'
      rw [hdir']
      omega

/-! ## What the data directory covers -/

/-- The data directory covers the range. -/
def FileDirectory.Covers (d : FileDirectory) (o len : Nat) : Prop :=
  d.rva ≤ o ∧ o + len ≤ d.rva + d.size

/-- The data directory of the address tables covers all slots. -/
def FileView.CoversSlots (v : FileView) (width : Nat) (place : Nat → Nat)
    (dirs : List ImportDirectory) : Prop :=
  ∀ (n : Nat) dir (j : Nat), dirs[n]? = some dir → j < dir.imports.length →
    (v.directory .importAddressTable).Covers (place n + width * j) width

/-- **The data directory of the address tables goes from the first table to the end of the last.**
The places of the tables follow from the sections and the libraries, and the slots are where their
labels say.  If the order of the tables is the one they have in memory, all slots are covered.  It is
if no library asks for an address, and if sections cover the addresses of all tables and these lie
apart. -/
theorem encodeImage_tableDirectory {image : Image} {options : EncodeOptions} {clock : UInt32}
    {e : EncodedImage} (he : (encodeImage image options clock).result = .ok e)
    (hlen : e.bytes.length < UInt64.size) (himports : image.imports.getD [] ≠ [])
    (hcount : 13 ≤ image.directoryCount) :
    ∃ h p sections base dirs place,
      placedImage image options clock = .ok (h, p) ∧
      e.image.imports = some dirs ∧ LibrariesGrow (image.imports.getD []) dirs ∧
      SectionsGrow image.sections sections ∧
      place = tablePlace sections image.encoder.addressType.width base dirs ∧
      SlotsAt p.binding (e.view image options).imageBase image.encoder.addressType.width place dirs ∧
      (∃ first last dir, (tableOrder dirs).head? = some first ∧
        (tableOrder dirs).getLast? = some last ∧ dirs[last]? = some dir ∧
        place first ≤ place last + dir.tableSize image.encoder.addressType.width ∧
        (e.view image options).directory .importAddressTable = ⟨place first,
          place last + dir.tableSize image.encoder.addressType.width - place first⟩) ∧
      (TablesInOrder image.encoder.addressType.width place dirs →
        (e.view image options).CoversSlots image.encoder.addressType.width place dirs) ∧
      ((∀ dir ∈ dirs, dir.tableAddress = none) →
        TablesInOrder image.encoder.addressType.width place dirs) ∧
      ((∀ dir ∈ dirs, (fixedPlace image.sections dir).isSome) →
        EntriesApart image.encoder.addressType.width place dirs →
        TablesInOrder image.encoder.addressType.width place dirs) := by
  obtain ⟨a, h, q, p, size, enc⟩ := encodeImage_eq_ok he
  obtain ⟨sections, base, dirs, b, tables, hgrow, hlibraries, himported, hplaces⟩ :=
    enc.exists_places hlen himports
  obtain ⟨first, last, dir, hfirst, hlast, hdir, hle, hdirectory⟩ :=
    enc.view_tableDirectory himported hplaces hcount
  have hslots := enc.slotsAt himported hplaces
  rw [← enc.view_imageBase] at hslots
  refine ⟨h, p, sections, base, dirs, _, enc.placedImage_eq, ?_, hlibraries, hgrow, rfl, hslots,
    ⟨first, last, dir, hfirst, hlast, hdir, hle, hdirectory⟩, fun horder n dir' j hn hj => ?_,
    fun hfloat => tablesInOrder_of_floating hfloat _ _ _, fun hfixed hapart =>
      tablesInOrder_of_fixed (fun dir hdir => ?_) hapart⟩
  · rw [enc.finished.image]
    exact enc.lays.imports.trans himported.imports
  · obtain ⟨hbefore, hbehind⟩ := horder.between hfirst hlast hn hdir
    have hentry := Nat.mul_le_mul_left image.encoder.addressType.width (Nat.succ_le_of_lt hj)
    rw [Nat.mul_succ] at hentry
    rw [hdirectory]
    constructor <;> dsimp only <;> omega
  · obtain ⟨place, hplace⟩ := Option.isSome_iff_exists.1 (hfixed dir hdir)
    rw [fixedPlace_grows hgrow hplace]
    rfl

/-- Two libraries, of which the first asks for an address for its table. -/
def twoTables : List ImportDirectory := [
  { ImportDirectory.new "k.dll" with
    imports := [{ Import.byOrdinal 1 with target := some "first" },
      { Import.byOrdinal 2 with target := some "second" }]
    tableAddress := some 0x1000 },
  { ImportDirectory.new "u.dll" with
    imports := [{ Import.byOrdinal 3 with target := some "third" }] }]

/-- A program that imports from both, with a section where the first table is written in place. -/
def twoLibraryProgram : Image :=
  { Image.empty with
    sections := [{ Section.new ".data" (.read ||| .write) (.ofBytes (List.replicate 16 0)) with
      address := some 0x1000 }]
    imports := some twoTables }

theorem encodeImage_tableDirectory_twoLibraries :
    ∃ e, (encodeImage twoLibraryProgram (.new .exe) 0).result = .ok e ∧
      ∃ place, place 0 = 0x1000 ∧ 0x1010 ≤ place 1 ∧ e.image.imports = some twoTables ∧
        (e.view twoLibraryProgram (.new .exe)).CoversSlots 4 place twoTables := by
  obtain ⟨e, he, hlen, himports, hbase⟩ :
      ∃ e, (encodeImage twoLibraryProgram (.new .exe) 0).result = .ok e ∧
        e.bytes.length < UInt64.size ∧ e.image.imports = some twoTables ∧
        (e.view twoLibraryProgram (.new .exe)).imageBase = 0x400000 :=
    exists_encodeImage (by decide +kernel)
  obtain ⟨h, p, sections, base, dirs, place, hplaced, hdirs, -, hgrow, hplace, hslots, -, hcovers,
    -, -⟩ := encodeImage_tableDirectory he hlen (by decide) (by decide)
  obtain rfl : twoTables = dirs := Option.some.inj (himports.symm.trans hdirs)
  have hfixed : place 0 = 0x1000 := by
    rw [hplace]
    exact tablePlace_of_fixed rfl (fixedPlace_grows hgrow (by decide))
  -- the slot of the floating table says where this is
  have hfloating : 0x1010 ≤ place 1 := by
    obtain ⟨_, ⟨⟩, hslot⟩ := hslots 1 _ 0 _ rfl rfl
    obtain ⟨x, hx, hvalue⟩ : ∃ x, placedImage twoLibraryProgram (.new .exe) 0 = .ok x ∧
        x.2.binding.get? "third" = some (.ofSize 0x401010) := exists_eq_ok (by decide +kernel)
    obtain rfl : x = (h, p) := Except.ok.inj (hx.symm.trans hplaced)
    rw [hvalue, hbase] at hslot
    have hvalues := LinkValue.mod_eq_of_ofSize (Expr.const.inj (Option.some.inj hslot))
    omega
  have horder : TablesInOrder 4 place twoTables := by
    have horder : tableOrder twoTables = [0, 1] := by decide
    rw [TablesInOrder, horder]
    refine List.pairwise_pair.2 ?_
    rintro _ ⟨⟩
    show place 0 + 4 * 2 ≤ place 1
    omega
  exact ⟨e, he, place, hfixed, hfloating, himports, hcovers horder⟩

end PortableImage
