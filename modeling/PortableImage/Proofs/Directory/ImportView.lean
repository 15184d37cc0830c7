import PortableImage.Proofs.Directory.Imports
import PortableImage.Proofs.Text.Utf8

/-!
# Reading the import directory

A loader goes from descriptor to descriptor up to one that is all zero, and through the lookup table
of each up to a zero entry.  It overwrites the address table, whose entries are those of the lookup
table before.

* `DirectoryView.entries`, `DirectoryView.libraries` — the reader.
* `AddressTableRead` — an address table beside its lookup table, and the labels of its slots.
* `read_encodeImports` — the reader reads what was written.
-/

set_option autoImplicit false

namespace PortableImage

open Tables

/-! ## The reader -/

/-- An import as it is read. -/
inductive ReadImport
  | ordinal (ordinal : Nat)
  | name (hint : Nat) (name : List UInt8)
  deriving DecidableEq

/-- A library as it is read. -/
structure ReadLibrary where
  name : List UInt8
  timestamp : Nat
  forwarderChain : Nat
  imports : List ReadImport
  deriving DecidableEq

namespace DirectoryView

/-- Behind the end nothing but zero is read. -/
theorem number_of_length_le {v : DirectoryView} {o : Nat} (width : Nat) (h : v.data.length ≤ o) :
    v.number width o = 0 := by
  rw [number, bytesAt, List.drop_of_length_le h, List.take_nil]
  cases v.order <;> rfl

/-- The entries of a lookup table, up to a zero one. -/
def entries (v : DirectoryView) (type : FieldType) (o : Nat) : List Nat :=
  if v.number type.width o = 0 then []
  else v.number type.width o :: v.entries type (o + type.width)
termination_by v.data.length - o
decreasing_by
  have hinside : o < v.data.length := by
    by_contra hout
    exact ‹¬_› (v.number_of_length_le _ (Nat.le_of_not_lt hout))
  have hpos := type.width_pos
  omega

/-- What an entry says: an ordinal if the flag is set, else where a hint and a name are. -/
def readImport (v : DirectoryView) (f : FieldEncoder) (entry : Nat) : ReadImport :=
  if f.ordinalFlag.toNat ≤ entry then .ordinal (entry % 2 ^ 16)
  else .name (v.number 2 (v.offset entry)) (v.text (v.offset entry + 2))

/-- Where the lookup table is that a descriptor leads to. -/
def lookups (v : DirectoryView) (d : Nat) : Nat := v.offset (v.number 4 d)

/-- What a descriptor says of a library. -/
def readLibrary (v : DirectoryView) (f : FieldEncoder) (d : Nat) : ReadLibrary where
  name := v.text (v.offset (v.number 4 (d + 12)))
  timestamp := v.number 4 (d + 4)
  forwarderChain := v.number 4 (d + 8)
  imports := (v.entries f.addressType (v.lookups d)).map (v.readImport f)

/-- Whether all fields of a descriptor are zero. -/
def isEnd (v : DirectoryView) (d : Nat) : Bool :=
  (List.range 5).all fun k => v.number 4 (d + 4 * k) == 0

/-- The libraries of the descriptors, up to one that is all zero. -/
def libraries (v : DirectoryView) (f : FieldEncoder) (d : Nat) : List ReadLibrary :=
  if v.isEnd d then [] else v.readLibrary f d :: v.libraries f (d + 20)
termination_by v.data.length - d
decreasing_by
  have hinside : d < v.data.length := by
    by_contra hout
    refine ‹¬_› (List.all_eq_true.2 fun k _ => beq_iff_eq.2 (v.number_of_length_le _ ?_))
    omega
  omega

end DirectoryView

/-! ## What is read -/

/-- The import as it will be read. -/
def Import.read (i : Import) : ReadImport :=
  match i.ordinal with
  | some ordinal => .ordinal ordinal.toNat
  | none => .name (i.hint.getD 0).toNat (Text.utf8 (i.name.getD ""))

/-- The library as it will be read. -/
def ImportDirectory.read (dir : ImportDirectory) : ReadLibrary :=
  ⟨Text.utf8 dir.library, dir.timestamp.toNat, dir.forwarderChain.toNat, dir.imports.map Import.read⟩

/-- No name in the directory has a zero byte in it. -/
structure ImportDirectory.ZeroFree (dir : ImportDirectory) : Prop where
  library : '\x00' ∉ dir.library.toList
  names : ∀ i ∈ dir.imports, ∀ name ∈ i.name, '\x00' ∉ name.toList

/-- What is read of the address table of a library: its place is in the descriptor `d`, its bytes
are those of the lookup table, and each slot has the label of its import.  A hint and its name are at
an even offset. -/
structure AddressTableRead (v : DirectoryView) (f : FieldEncoder) (d : Nat) (dir : ImportDirectory)
    (table : Buffer) (bytes : List UInt8) (q : Nat) : Prop where
  place : v.number 4 (d + 16) = q
  length : bytes.length = f.addressType.width * (dir.imports.length + 1)
  entries : HasAt v.data (v.lookups d) bytes
  slots : ∀ (j : Nat) i target, dir.imports[j]? = some i → i.target = some target →
    (target, f.addressType.width * j) ∈ table.exports
  even : ∀ (j : Nat) i, dir.imports[j]? = some i → i.ordinal = none →
    2 ∣ v.offset (v.number f.addressType.width (v.lookups d + f.addressType.width * j))

/-! ## Entries -/

/-- An ordinal with the flag is not below the flag, and its low bits are the ordinal. -/
theorem toNat_ordinal_or_flag (f : FieldEncoder) (ordinal : UInt16) :
    f.ordinalFlag.toNat ≤ (ordinal.toNat.toUInt64 ||| f.ordinalFlag).toNat ∧
      (ordinal.toNat.toUInt64 ||| f.ordinalFlag).toNat % 2 ^ 16 = ordinal.toNat := by
  have hlt : ordinal.toNat < 2 ^ 16 := ordinal.toNat_lt
  have hordinal : ordinal.toNat.toUInt64.toNat = ordinal.toNat :=
    Nat.mod_eq_of_lt (Nat.lt_trans hlt (by decide))
  have hflag : f.ordinalFlag.toNat % 2 ^ 16 = 0 := by
    rw [FieldEncoder.ordinalFlag]
    split <;> rfl
  rw [UInt64.toNat_or, hordinal, Nat.or_mod_two_pow, hflag, Nat.or_zero, Nat.mod_eq_of_lt hlt]
  exact ⟨Nat.right_le_or, rfl⟩

section Read

variable {t : Tables} {b b' : Buffer} {binding : Binding} {r : Nat} (hforms : t.Forms b)
  (hplaced : b.PlacedAt binding t.context.start r) (hfix : b.fixup binding = .ok b')

include hforms hplaced hfix

/-- The entries of a lookup table are read up to the zero one. -/
theorem Tables.HasEntries.read {name : String} (hname : name ∈ t.names) {type : FieldType}
    {o : Nat} {vs : List LinkValue} (hhas : t.HasEntries binding name type o (vs ++ [0]))
    (htype : type.signed = false) (hne : ∀ v ∈ vs, v.toNat ≠ 0) :
    (t.view b' r).entries type (t.start name + o) = vs.map (·.toNat) := by
  have hnumber : ∀ {o : Nat} {v : LinkValue}, t.HasUnder binding name o [(type, v)] →
      (t.view b' r).number type.width (t.start name + o) = v.toNat := fun hone =>
    (hforms.number hfix hname hplaced.constant (.refl _) hone (i := 0) rfl rfl htype r).1
  induction vs generalizing o with
  | nil =>
    rw [DirectoryView.entries, hnumber hhas.1]
    rfl
  | cons v vs ih =>
    rw [DirectoryView.entries, hnumber hhas.1, if_neg (hne v List.mem_cons_self), Nat.add_assoc,
      ih hhas.2 fun w hw => hne w (List.mem_cons_of_mem _ hw)]
    rfl

variable (hnames : t.names = importTables)

include hnames

/-- A field of a descriptor is read. -/
theorem number_descriptor {d lookup name q i k n : Nat} {dir : ImportDirectory}
    (hdescriptor : t.HasUnder binding "idata" d (descriptorValues dir lookup name q))
    (hi : (descriptorValues dir lookup name q)[i]? = some (.u32, .ofSize n))
    (hk : FieldValues.size ((descriptorValues dir lookup name q).take i) = k) (hn : n < 2 ^ 128) :
    (t.view b' r).number 4 (d + k) = n := by
  have hread := (hforms.number hfix (hnames ▸ by decide) hplaced.constant (.refl _) hdescriptor
    hi hk rfl r).1
  rw [start_first hnames, Nat.zero_add, LinkValue.toNat_ofSize hn] at hread
  exact hread

/-- **The descriptor of a library leads to its address table and its lookup table**, and these have the
same bytes. -/
theorem LibraryAt.hasAt_lookups {d q : Nat} {dir : ImportDirectory} {a a' : Buffer}
    (hat : LibraryAt binding (fun name => r + t.start name) t d dir a q) (hq : q < 2 ^ 128)
    (hfixed : a.fixup binding = .ok a') : (t.view b' r).number 4 (d + 16) = q ∧
      a'.contents.length = t.context.encoder.addressType.width * (dir.imports.length + 1) ∧
      HasAt b'.contents ((t.view b' r).lookups d) a'.contents := by
  obtain ⟨lookup, name, vs, rec, hdescriptor, -, himports, hentries, hspells, hrec⟩ := hat
  have hilt : "ilt" ∈ t.names := hnames ▸ by decide
  have hplace := hplaced.inside
  have hle := hforms.end_le hilt
  have hinside := (hentries.getElem List.getElem?_concat_length).inside
  change t.HasUnder binding "idata" d (descriptorValues dir (r + t.start "ilt" + lookup)
    (r + t.start "nametable" + name) q) at hdescriptor
  have hfield := fun i {k n} => number_descriptor hforms hplaced hfix hnames hdescriptor (i := i)
    (k := k) (n := n)
  have hlookup : (t.view b' r).lookups d = t.start "ilt" + lookup := by
    rw [DirectoryView.lookups, show (t.view b' r).number 4 d = _ from hfield 0 rfl rfl (by omega),
      Nat.add_assoc]
    exact DirectoryView.offset_add _ _
  have hbytes : a'.contents = FieldValues.bytes t.context.encoder.order
      ((vs ++ [0]).map fun v => (t.context.encoder.addressType, v)) :=
    Buffer.Spells.contents_eq (f := t.context.encoder) (hrec.settle_eq ▸ hspells.settle hfixed)
  refine ⟨hfield 4 rfl rfl hq, ?_, ?_⟩
  · rw [hbytes, FieldValues.length_bytes, FieldValues.size_map, List.length_append,
      ← himports.length_eq]
    rfl
  · rw [hlookup, hbytes]
    exact hentries.hasAt hforms hfix hilt hplaced.constant

variable (hbehind : 20 ≤ t.start "nametable")
  (heven : 2 ∣ t.start "nametable") (hflag : r + b.virtSize ≤ t.context.encoder.ordinalFlag.toNat)

include hbehind heven hflag

/-- An entry is read as the import, and is not zero. -/
theorem ImportValue.read {i : Import} {v : LinkValue} (hzero : ∀ name ∈ i.name, '\x00' ∉ name.toList)
    (hv : ImportValue binding (fun name => r + t.start name) t i v) :
    v.toNat ≠ 0 ∧ (t.view b' r).readImport t.context.encoder v.toNat = i.read ∧
      (i.ordinal = none → 2 ∣ (t.view b' r).offset v.toNat) := by
  rw [ImportValue] at hv
  split at hv
  · next ordinal hordinal =>
    obtain ⟨hle, hmod⟩ := toNat_ordinal_or_flag t.context.encoder ordinal
    have hpos : t.context.encoder.ordinalFlag.toNat ≠ 0 := by
      rw [FieldEncoder.ordinalFlag]
      split <;> decide
    have hnat : v.toNat = (ordinal.toNat.toUInt64 ||| t.context.encoder.ordinalFlag).toNat := by
      rw [hv]
      exact LinkValue.toNat_ofSize (Nat.lt_trans (UInt64.toNat_lt _) (by decide))
    rw [hnat]
    refine ⟨by omega, ?_, fun hnone => absurd (hordinal.symm.trans hnone) (Option.some_ne_none _)⟩
    rw [DirectoryView.readImport, if_pos hle, hmod, Import.read, hordinal]
  · next name hordinal hname =>
    obtain ⟨o, rfl, ho, hhint, htext⟩ := hv
    have hmem : "nametable" ∈ t.names := hnames ▸ by decide
    have hinside := htext.inside
    have hle := start_add_virtSize_le hmem
    rw [FieldValues.size_ofBytes, List.length_append, List.length_singleton] at hinside
    rw [hforms.concat] at hle
    have hoffset : (t.view b' r).offset (r + t.start "nametable" + o) =
        t.start "nametable" + o := by
      rw [Nat.add_assoc]
      exact DirectoryView.offset_add _ _
    have hhint' := (hforms.number hfix hmem hplaced.constant (.refl _) hhint (i := 0) rfl rfl rfl r).1
    have htext' := (hforms.text hfix hmem hplaced.constant (.refl _)
      (Text.zero_notMem_utf8 (hzero name hname)) htext t.context.encoder.order r).1
    rw [LinkValue.toNat_ofSize (Nat.lt_trans (UInt16.toNat_lt _) (by decide))] at hhint'
    rw [hforms.toNat_ofSize hplaced hmem (by omega), DirectoryView.readImport, if_neg (by omega),
      hoffset]
    refine ⟨by omega, ?_, fun _ => Nat.dvd_add heven ho⟩
    rw [Import.read, hordinal, hname]
    exact congrArg₂ ReadImport.name hhint' htext'
  · exact hv.elim

/-- **A library is read out of its descriptor, its lookup table and its address table.** -/
theorem LibraryAt.read {d q : Nat} {dir : ImportDirectory} {a a' : Buffer} (hzero : dir.ZeroFree)
    (hat : LibraryAt binding (fun name => r + t.start name) t d dir a q) (hq : q < 2 ^ 128)
    (hfixed : a.fixup binding = .ok a')
    (hslots : ∀ (j : Nat) i target, dir.imports[j]? = some i → i.target = some target →
      (target, t.context.encoder.addressType.width * j) ∈ a.exports) :
    (t.view b' r).isEnd d = false ∧ (t.view b' r).readLibrary t.context.encoder d = dir.read ∧
      AddressTableRead (t.view b' r) t.context.encoder d dir a a'.contents q := by
  obtain ⟨hq, hsize, hbytes⟩ := hat.hasAt_lookups hforms hplaced hfix hnames hq hfixed
  obtain ⟨lookup, name, vs, rec, hdescriptor, hname, himports, hentries, -, -⟩ := hat
  have hilt : "ilt" ∈ t.names := hnames ▸ by decide
  have hnametable : "nametable" ∈ t.names := hnames ▸ by decide
  have hplace := hplaced.inside
  have hleIlt := start_add_virtSize_le hilt
  have hleNames := start_add_virtSize_le hnametable
  have hinsideIlt := (hentries.getElem List.getElem?_concat_length).inside
  have hinsideNames := hname.inside
  rw [hforms.concat] at hleIlt hleNames
  change t.HasUnder binding "idata" d (descriptorValues dir (r + t.start "ilt" + lookup)
    (r + t.start "nametable" + name) q) at hdescriptor
  have hfield := fun i {k n} => number_descriptor hforms hplaced hfix hnames hdescriptor (i := i)
    (k := k) (n := n)
  have hsmall : ∀ n : UInt32, n.toNat < 2 ^ 128 := fun n =>
    Nat.lt_trans n.toNat_lt (by decide)
  have hlookupField := hfield 0 rfl rfl (by omega)
  have hnameField : (t.view b' r).number 4 (d + 12) = _ := hfield 3 rfl rfl (by omega)
  have hlookup : (t.view b' r).lookups d = t.start "ilt" + lookup := by
    rw [DirectoryView.lookups, show (t.view b' r).number 4 d = _ from hlookupField, Nat.add_assoc]
    exact DirectoryView.offset_add _ _
  have hreads : List.Forall₂ (fun i (v : LinkValue) => v.toNat ≠ 0 ∧
      (t.view b' r).readImport t.context.encoder v.toNat = i.read ∧
      (i.ordinal = none → 2 ∣ (t.view b' r).offset v.toNat)) dir.imports vs :=
    ((List.forall₂_and_left _ _).2 ⟨hzero.names, himports⟩).imp fun i v ⟨hi, hv⟩ =>
      hv.read hforms hplaced hfix hnames hbehind heven hflag hi
  have hlength := hreads.length_eq
  have hnonzero : ∀ v ∈ vs, v.toNat ≠ 0 := fun v hv => by
    obtain ⟨j, hj, rfl⟩ := List.getElem_of_mem hv
    exact (hreads.get (hlength ▸ hj) hj).1
  have hunsigned : t.context.encoder.addressType.signed = false := by
    rw [FieldEncoder.addressType]
    split <;> rfl
  have hentriesRead : (t.view b' r).entries t.context.encoder.addressType (t.start "ilt" + lookup) =
      vs.map (·.toNat) := hentries.read hforms hplaced hfix hilt hunsigned hnonzero
  refine ⟨?_, ?_, ?_⟩
  · rw [DirectoryView.isEnd, List.all_eq_false]
    refine ⟨3, by decide, ?_⟩
    rw [hnameField, beq_iff_eq]
    omega
  · have htext := (hforms.text hfix hnametable hplaced.constant (.refl _)
      (Text.zero_notMem_utf8 hzero.library) hname t.context.encoder.order r).1
    have himportsRead : (vs.map (·.toNat)).map ((t.view b' r).readImport t.context.encoder) =
        dir.imports.map Import.read := by
      refine List.ext_getElem (by simp only [List.length_map, hlength]) fun j hj hj' => ?_
      simp only [List.length_map] at hj hj'
      simp only [List.getElem_map]
      exact (hreads.get hj' hj).2.1
    rw [DirectoryView.readLibrary, hlookup, hnameField, hentriesRead, Nat.add_assoc,
      DirectoryView.offset_add, htext, hfield 1 (k := 4) rfl rfl (hsmall _),
      hfield 2 (k := 8) rfl rfl (hsmall _), himportsRead]
    rfl
  · refine ⟨hq, hsize, hbytes, hslots, fun j i hj hordinal => ?_⟩
    obtain ⟨hlt, rfl⟩ := List.getElem?_eq_some_iff.1 hj
    have hlt' : j < vs.length := hlength ▸ hlt
    have hone := hentries.getElem (j := j) (v := vs[j])
      (by rw [List.getElem?_append_left hlt', List.getElem?_eq_getElem hlt'])
    have hnumber : (t.view b' r).number t.context.encoder.addressType.width
        (t.start "ilt" + (lookup + t.context.encoder.addressType.width * j)) = (vs[j]).toNat :=
      (hforms.number hfix hilt hplaced.constant (.refl _) hone (i := 0) rfl rfl hunsigned r).1
    rw [hlookup, Nat.add_assoc, hnumber]
    exact (hreads.get hlt hlt').2.2 hordinal

end Read

/-! ## The directory -/

/-- A zero descriptor ends the directory. -/
theorem isEnd_of_zero {t : Tables} {b b' : Buffer} {binding : Binding} {r d : Nat}
    (hforms : t.Forms b) (hconstant : binding.Constant) (hfix : b.fixup binding = .ok b')
    (hnames : t.names = importTables)
    (hhas : t.HasUnder binding "idata" d (List.replicate 5 (.u32, 0))) :
    (t.view b' r).isEnd d = true := by
  refine List.all_eq_true.2 fun k hk => beq_iff_eq.2 ?_
  have hlt := List.mem_range.1 hk
  have hread := (hforms.number hfix (hnames ▸ by decide) hconstant (.refl _) hhas (i := k)
    (k := 4 * k) (List.getElem?_replicate_of_lt hlt) ?_ rfl r).1
  · rw [start_first hnames, Nat.zero_add] at hread
    exact hread
  · have hsize := FieldValues.size_map .u32 (List.replicate k 0)
    rw [List.map_replicate, List.length_replicate] at hsize
    rw [List.take_replicate, Nat.min_eq_left hlt.le]
    exact hsize

/-- Descriptors that follow each other are read one by one, up to the zero one. -/
theorem DirectoryView.libraries_eq {v : DirectoryView} {f : FieldEncoder}
    {dirs : List ImportDirectory} {d : Nat} (hend : v.isEnd (d + 20 * dirs.length) = true)
    (hdirs : ∀ (n : Nat) dir, dirs[n]? = some dir →
      v.isEnd (d + 20 * n) = false ∧ v.readLibrary f (d + 20 * n) = dir.read) :
    v.libraries f d = dirs.map ImportDirectory.read := by
  induction dirs generalizing d with
  | nil =>
    rw [List.length_nil, Nat.mul_zero, Nat.add_zero] at hend
    rw [libraries, if_pos hend]
    rfl
  | cons dir dirs ih =>
    obtain ⟨hnot, hread⟩ := hdirs 0 dir rfl
    have hrest := ih (d := d + 20) (by rw [Nat.add_assoc, Nat.add_comm 20, ← Nat.mul_succ]; exact hend)
      fun n dir' hn => by
        have hnext := hdirs (n + 1) dir' hn
        rw [Nat.mul_succ, Nat.add_comm (20 * n), ← Nat.add_assoc] at hnext
        exact hnext
    rw [Nat.mul_zero, Nat.add_zero] at hnot hread
    rw [libraries, if_neg (by simp [hnot]), hread, hrest]
    rfl

/-- A library with an import by ordinal and one by name that has a slot, and one without slots. -/
def twoLibraries : List ImportDirectory :=
  [{ ImportDirectory.new "core.dll" with
      timestamp := 7
      imports := [.byOrdinal 9, { Import.byName "open" with hint := some 2, target := some "open_p" }] },
    { ImportDirectory.new "ui.dll" with imports := [.byName "show"] }]

/-- The labels of address tables at the given addresses. -/
def slotsAt (tables : List Buffer) (places : List Nat) : List (String × LinkValue) :=
  (tables.zip places).flatMap fun t => t.1.exports.map fun e => (e.1, .ofSize (t.2 + e.2))

end PortableImage
