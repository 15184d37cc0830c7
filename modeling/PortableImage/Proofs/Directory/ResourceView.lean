import PortableImage.Proofs.Directory.Resources
import PortableImage.Proofs.Directory.ResourceTree
import PortableImage.Proofs.Text.Utf16

/-!
# Reading the resource directory

A loader goes down from the level at the start of the directory.  The high bit of the first word of
an entry marks a name, that of the second another level; what is left is an offset.  Only the bytes
of a resource are at an address.

* `DirectoryView.resources` — the reader; it goes down at most as many levels as it is told to, and
  compares the counts of a level with its entries.
* `resourceContent_eq` — what an entry leads to is read.
* `read_encodeResources` — the tree that was written is read, with every level in order.
-/

set_option autoImplicit false

namespace PortableImage

open Tables

/-! ## The reader -/

namespace DirectoryView

/-- The name at an offset: how many units it has, then the units. -/
def resourceName (v : DirectoryView) (o : Nat) : String :=
  .ofList (Text.decodeUtf16 ((List.range (v.number 2 o)).map fun k =>
    .ofNat (v.number 2 (o + (2 + 2 * k)))))

/-- What the first word of an entry says. -/
def resourceId (v : DirectoryView) (word : Nat) : ResourceId :=
  if 2 ^ 31 ≤ word then .name (v.resourceName (word - 2 ^ 31)) else .number (.ofNat word)

/-- The fields of the level at an offset, without the counts. -/
def resourceInfo (v : DirectoryView) (o : Nat) : ResourceInfo :=
  ⟨.ofNat (v.number 4 o), .ofNat (v.number 4 (o + 4)), .ofNat (v.number 2 (o + 8)),
    .ofNat (v.number 2 (o + 10))⟩

/-- The resource that is described at an offset. -/
def resource (v : DirectoryView) (o : Nat) : ResourceContent :=
  .data (bytesAt v.data (v.offset (v.number 4 o)) (v.number 4 (o + 4)))
    (.ofNat (v.number 4 (o + 8))) (.ofNat (v.number 4 (o + 12)))

/-- Entries that follow each other; `below` is what a word leads to. -/
def resourceEntries (v : DirectoryView) (below : Nat → Option ResourceContent) :
    Nat → Nat → Option (List (ResourceId × ResourceContent))
  | 0, _ => some []
  | count + 1, o => do
    let content ← below (v.number 4 (o + 4))
    let rest ← v.resourceEntries below count (o + 8)
    return (v.resourceId (v.number 4 o), content) :: rest

/-- The level at an offset.  It counts the entries with a name and the others, and so many of each
kind there must be. -/
def resourceLevel (v : DirectoryView) (below : Nat → Option ResourceContent) (o : Nat) :
    Option ResourceDirectory := do
  let named := v.number 2 (o + 12)
  let numbered := v.number 2 (o + 14)
  let entries ← v.resourceEntries below (named + numbered) (o + 16)
  if entries.countP isNamed = named then some ⟨v.resourceInfo o, entries⟩ else none

/-- What the second word of an entry leads to, with as many levels as there are at most. -/
def resourceContent (v : DirectoryView) : Nat → Nat → Option ResourceContent
  | 0, _ => none
  | depth + 1, word =>
    if 2 ^ 31 ≤ word then
      (v.resourceLevel (v.resourceContent depth) (word - 2 ^ 31)).map fun d =>
        .directory d.info d.entries
    else some (v.resource word)

/-- The tree, with as many levels below the root as there are at most. -/
def resources (v : DirectoryView) (depth : Nat) : Option ResourceDirectory :=
  v.resourceLevel (v.resourceContent depth) 0

end DirectoryView

/-! ## The binding of the levels -/

/-- The binding of the labels of a list only. -/
def Binding.restrict (b : Binding) (labels : List String) : Binding :=
  ⟨b.entries.filter fun e => labels.contains e.1⟩

namespace Binding

variable (b : Binding) {labels : List String} {l : String}

theorem get?_restrict_of_mem (h : l ∈ labels) : (b.restrict labels).get? l = b.get? l := by
  rw [get?, restrict, get?]
  induction b.entries with
  | nil => rfl
  | cons e rest ih =>
    obtain ⟨name, value⟩ := e
    rw [List.lookup_cons, ← ih]
    by_cases he : l = name
    · rw [List.filter_cons_of_pos (by rw [← he]; exact List.contains_iff_mem.2 h),
        List.lookup_cons, he, beq_self_eq_true]
    · rw [List.filter_cons, beq_false_of_ne he]
      split
      · rw [List.lookup_cons, beq_false_of_ne he]
      · rfl

theorem get?_restrict_of_notMem (h : l ∉ labels) : (b.restrict labels).get? l = none := by
  rw [get?, restrict, List.lookup_eq_none_iff]
  intro e he
  have hmem := List.contains_iff_mem.1 (List.mem_filter.1 he).2
  exact bne_iff_ne.2 fun heq => h (heq ▸ hmem)

theorem restrict_extends (labels : List String) : (b.restrict labels).Extends b := by
  intro name e he
  by_cases hname : name ∈ labels
  · rwa [get?_restrict_of_mem b hname] at he
  · rw [get?_restrict_of_notMem b hname] at he
    exact nomatch he

end Binding

/-- The labels of the levels are known to no table. -/
theorem Tables.Forms.notMem_labels {t : Tables} {b : Buffer} (h : t.Forms b) {l : String}
    (hl : t.Awaitable l) : l ∉ b.labels := by
  rw [← h.concat, labels_concat, Tables.labels, List.mem_flatMap]
  rintro ⟨e, he, hmem⟩
  obtain ⟨⟨name, o⟩, hexport, rfl⟩ := List.mem_map.1 hmem
  exact hl.unused ⟨e.1, o, table_of_mem h.nodup he ▸ hexport⟩

section Read

variable {t : Tables} {b b' : Buffer} {binding : Binding} {r : Nat}

/-- What the directory has in its tables does not depend on more than the labels of the tables and
the start of the image. -/
abbrev resourceView (b : Buffer) (binding : Binding) : String → Binding :=
  resourceBinding (binding.restrict b.labels) binding

theorem constant_resourceView (hplaced : b.PlacedAt binding t.context.start r) (name : String) :
    (resourceView b binding name).Constant := by
  by_cases h : name = "table"
  · rw [resourceView, resourceBinding, if_pos h]
    exact fun l e he => hplaced.constant l e (binding.restrict_extends _ l e he)
  · rw [resourceView, resourceBinding, if_neg h]
    exact hplaced.constant

theorem resourceView_extends (b : Buffer) (binding : Binding) (name : String) :
    (resourceView b binding name).Extends binding := by
  by_cases h : name = "table"
  · rw [resourceView, resourceBinding, if_pos h]
    exact binding.restrict_extends _
  · rw [resourceView, resourceBinding, if_neg h]
    exact .refl _

/-- Where a placed directory is. -/
theorem resourcesPlaced (hforms : t.Forms b) (hnames : t.names = resourceTables)
    (hplaced : b.PlacedAt binding t.context.start r) :
    ResourcesPlaced (binding.restrict b.labels) binding (binding.env t.context.start) r t.start
      t where
  constant := constant_resourceView hplaced "table"
  unbound l hl := binding.get?_restrict_of_notMem (hforms.notMem_labels hl)
  located name e he := by
    have hmem := mem_exports_concat (mem_names_of_mem_exports he) he
    rw [hforms.concat] at hmem
    have hl : e.1 ∈ b.labels := List.mem_map.2 ⟨_, hmem, rfl⟩
    have hlabel := hforms.located hplaced name e he
    rw [binding.get?_restrict_of_mem hl, hlabel, Nat.add_assoc]
    simp only [LinkValue.ofSize, BitVec.ofNat_add, BitVec.add_assoc]
  first := start_first hnames
  placed := ⟨hplaced.constant, hplaced.get?_start, hforms.located hplaced⟩

/-- The flag is not one of the bits of a small place. -/
theorem toNat_or_subdirectoryBit {o : Nat} (h : o < 2 ^ 31) :
    (LinkValue.ofSize o ||| subdirectoryBit).toNat = 2 ^ 31 + o := by
  have hbit : subdirectoryBit.toNat = 2 ^ 31 * 1 := rfl
  rw [BitVec.toNat_or, LinkValue.toNat_ofSize (by omega), hbit, Nat.or_comm,
    ← Nat.two_pow_add_eq_or_of_lt h, Nat.mul_one]

/-- The entries of a level are inside the table. -/
theorem EntriesAt.length_le {names : String → Binding} {place : String → Nat}
    {entries : List (ResourceId × ResourceContent)} {o : Nat}
    (h : EntriesAt names r place t entries o) (ho : o ≤ (t.table "table").virtSize) :
    o + 8 * entries.length ≤ (t.table "table").virtSize := by
  induction entries generalizing o with
  | nil => exact ho
  | cons e rest ih =>
    rw [EntriesAt] at h
    obtain ⟨-, ⟨w, hcontent, -⟩, hrest⟩ := h
    have hinside : o + 4 + 4 ≤ (t.table "table").virtSize := hcontent.inside
    have hbehind := ih hrest (by omega)
    rw [List.length_cons]
    omega

/-- A unit takes two bytes. -/
theorem size_units (units : List UInt16) :
    FieldValues.size (units.map fun u => (.u16, .ofSize u.toNat)) = 2 * units.length := by
  have hmap := FieldValues.size_map .u16 (units.map fun u => .ofSize u.toNat)
  rw [List.map_map, List.length_map] at hmap
  exact hmap

variable (hforms : t.Forms b) (hplaced : b.PlacedAt binding t.context.start r)
  (hfix : b.fixup binding = .ok b') (hnames : t.names = resourceTables)

include hforms hplaced hfix

/-- A size that a table has is read. -/
theorem resourceNumber {name : String} (hname : name ∈ t.names) {o i k n : Nat} {type : FieldType}
    {vs : FieldValues} (hhas : t.Has (resourceView b binding) name o vs)
    (hi : vs[i]? = some (type, .ofSize n)) (hk : FieldValues.size (vs.take i) = k)
    (htype : type.signed = false) (hn : n < 2 ^ 128) :
    (t.view b' r).number type.width (t.start name + (o + k)) = n := by
  rw [(hforms.number hfix hname (constant_resourceView hplaced name)
    (resourceView_extends b binding name) hhas hi hk htype r).1, LinkValue.toNat_ofSize hn]

include hnames

/-- A number in a level is read. -/
theorem tableNumber {o i k n : Nat} {type : FieldType} {vs : FieldValues}
    (hhas : t.Has (resourceView b binding) "table" o vs) (hi : vs[i]? = some (type, .ofSize n))
    (hk : FieldValues.size (vs.take i) = k) (htype : type.signed = false) (hn : n < 2 ^ 128) :
    (t.view b' r).number type.width (o + k) = n := by
  have hread := resourceNumber hforms hplaced hfix (hnames ▸ by decide) hhas hi hk htype hn
  rw [start_first hnames, Nat.zero_add] at hread
  exact hread

/-- A word of an entry is read. -/
theorem tableWord {o : Nat} {v : LinkValue}
    (hhas : t.Has (resourceView b binding) "table" o [(.u32, v)]) :
    (t.view b' r).number 4 o = v.toNat := by
  have hread := (hforms.number hfix (hnames ▸ by decide) (constant_resourceView hplaced "table")
    (resourceView_extends b binding "table") hhas (i := 0) rfl rfl rfl r).1
  rw [start_first hnames, Nat.zero_add] at hread
  exact hread

/-- A name is read. -/
theorem resourceName_eq {name : String} {o : Nat}
    (hhas : t.Has (resourceView b binding) "names" o (nameValues name)) :
    (t.view b' r).resourceName (t.start "names" + o) = name := by
  have hmem : "names" ∈ t.names := hnames ▸ by decide
  have hinside := hhas.inside
  have hend := hforms.end_le hmem
  have hplace := hplaced.inside
  rw [nameValues, FieldValues.size_cons, size_units] at hinside
  have hcount : (t.view b' r).number 2 (t.start "names" + o) = (Text.utf16 name).length :=
    resourceNumber hforms hplaced hfix hmem hhas (i := 0) rfl rfl rfl (by omega)
  have hunits : ((List.range (Text.utf16 name).length).map fun k =>
      UInt16.ofNat ((t.view b' r).number 2 (t.start "names" + o + (2 + 2 * k)))) =
      Text.utf16 name := by
    refine List.ext_getElem (by rw [List.length_map, List.length_range]) fun k hk hk' => ?_
    have hunit : (t.view b' r).number 2 (t.start "names" + (o + (2 + 2 * k))) =
        (Text.utf16 name)[k].toNat := by
      have hvalue : (nameValues name)[k + 1]? =
          some (.u16, .ofSize (Text.utf16 name)[k].toNat) := by
        rw [nameValues, List.getElem?_cons_succ, List.getElem?_map, List.getElem?_eq_getElem hk']
        rfl
      refine resourceNumber hforms hplaced hfix hmem hhas hvalue ?_ rfl
        (Nat.lt_trans (UInt16.toNat_lt _) (by decide))
      · rw [nameValues, List.take_succ_cons, FieldValues.size_cons, ← List.map_take, size_units,
          List.length_take, Nat.min_eq_left hk'.le]
        rfl
    rw [List.getElem_map, List.getElem_range, Nat.add_assoc, hunit, UInt16.ofNat_toNat]
  rw [DirectoryView.resourceName, hcount, hunits, Text.decodeUtf16_utf16, String.ofList_toList]

/-- The fields of a level are read. -/
theorem resourceLevel_eq {info : ResourceInfo} {entries : List (ResourceId × ResourceContent)}
    {o : Nat} {below : Nat → Option ResourceContent}
    (hhas : t.Has (resourceView b binding) "table" o (levelValues info entries))
    (hlength : entries.length < 2 ^ 128)
    (hentries : (t.view b' r).resourceEntries below entries.length (o + 16) = some entries) :
    (t.view b' r).resourceLevel below o = some ⟨info, entries⟩ := by
  have hcount : entries.countP isNamed ≤ entries.length := List.countP_le_length
  have hfield : ∀ (i : Nat) {k n : Nat} {type : FieldType},
      (levelValues info entries)[i]? = some (type, .ofSize n) →
      FieldValues.size ((levelValues info entries).take i) = k → type.signed = false →
      n < 2 ^ 128 → (t.view b' r).number type.width (o + k) = n := fun _ =>
    tableNumber hforms hplaced hfix hnames hhas
  have hnamed : (t.view b' r).number 2 (o + 12) = entries.countP isNamed :=
    hfield 4 rfl rfl rfl (by omega)
  have hnumbered : (t.view b' r).number 2 (o + 14) = entries.length - entries.countP isNamed :=
    hfield 5 rfl rfl rfl (by omega)
  have hinfo : (t.view b' r).resourceInfo o = info := by
    have hword : ∀ n : UInt32, n.toNat < 2 ^ 128 := fun n => Nat.lt_trans n.toNat_lt (by decide)
    have hhalf : ∀ n : UInt16, n.toNat < 2 ^ 128 := fun n => Nat.lt_trans n.toNat_lt (by decide)
    have hcharacteristics : (t.view b' r).number 4 o = _ := hfield 0 rfl rfl rfl (hword _)
    have htimestamp : (t.view b' r).number 4 (o + 4) = _ := hfield 1 rfl rfl rfl (hword _)
    have hmajor : (t.view b' r).number 2 (o + 8) = _ := hfield 2 rfl rfl rfl (hhalf _)
    have hminor : (t.view b' r).number 2 (o + 10) = _ := hfield 3 rfl rfl rfl (hhalf _)
    rw [DirectoryView.resourceInfo, hcharacteristics, htimestamp, hmajor, hminor]
    simp only [UInt32.ofNat_toNat, UInt16.ofNat_toNat]
  rw [DirectoryView.resourceLevel, hnamed, hnumbered, Nat.add_sub_cancel' hcount, hentries, hinfo]
  exact if_pos rfl

/-- The description of a resource is read, and its bytes. -/
theorem resource_eq {bytes : List UInt8} {codepage reserved : UInt32} {o d : Nat}
    (hdescription : t.Has (resourceView b binding) "dataentries" o
      (descriptionValues (r + t.start "data" + d) bytes codepage reserved))
    (hbytes : t.Has (resourceView b binding) "data" d (.ofBytes bytes)) :
    (t.view b' r).resource (t.start "dataentries" + o) = .data bytes codepage reserved := by
  have hmem : "dataentries" ∈ t.names := hnames ▸ by decide
  have hdata : "data" ∈ t.names := hnames ▸ by decide
  have hinside := hbytes.inside
  have hend := hforms.end_le hdata
  have hplace := hplaced.inside
  rw [FieldValues.size_ofBytes] at hinside
  have hfield : ∀ (i : Nat) {k n : Nat},
      (descriptionValues (r + t.start "data" + d) bytes codepage reserved)[i]? =
        some (.u32, .ofSize n) →
      FieldValues.size ((descriptionValues (r + t.start "data" + d) bytes codepage
        reserved).take i) = k →
      n < 2 ^ 128 → (t.view b' r).number 4 (t.start "dataentries" + o + k) = n := by
    intro i k n hi hk hn
    rw [Nat.add_assoc]
    exact resourceNumber hforms hplaced hfix hmem hdescription hi hk rfl hn
  have hword : ∀ n : UInt32, n.toNat < 2 ^ 128 := fun n => Nat.lt_trans n.toNat_lt (by decide)
  have haddress : (t.view b' r).number 4 (t.start "dataentries" + o) = r + t.start "data" + d :=
    hfield 0 rfl rfl (by omega)
  have hat : bytesAt b'.contents (t.start "data" + d) bytes.length = bytes := by
    have hread := (hbytes.read hdata hforms.nodup hforms.spelled (hforms.concat ▸ hfix)
      (constant_resourceView hplaced "data") (resourceView_extends b binding "data")).2
    rw [FieldValues.bytes_ofBytes] at hread
    exact hread.bytesAt_eq
  rw [DirectoryView.resource, haddress, hfield 1 (k := 4) rfl rfl (by omega),
    hfield 2 (k := 8) rfl rfl (hword _), hfield 3 (k := 12) rfl rfl (hword _), Nat.add_assoc,
    DirectoryView.offset_add, hat]
  simp only [UInt32.ofNat_toNat]

variable (hsize : b.virtSize < 2 ^ 31)

include hsize

/-- The identifier of an entry is read. -/
theorem resourceId_eq {id : ResourceId} {v : LinkValue} (hsmall : id.Small)
    (hat : IdAt (resourceView b binding) t.start t id v) :
    (t.view b' r).resourceId v.toNat = id := by
  cases id with
  | number id =>
    have hid : id.toNat < 2 ^ 31 := hsmall
    rw [show v = .ofSize id.toNat from hat, LinkValue.toNat_ofSize (by omega),
      DirectoryView.resourceId, if_neg (by omega), UInt32.ofNat_toNat]
  | name name =>
    obtain ⟨o, rfl, hhas⟩ := hat
    have hinside := hhas.inside
    have hend := hforms.end_le (show "names" ∈ t.names from hnames ▸ by decide)
    rw [toNat_or_subdirectoryBit (by omega), DirectoryView.resourceId, if_pos (by omega),
      Nat.add_sub_cancel_left, resourceName_eq hforms hplaced hfix hnames hhas]

mutual

/-- **What an entry leads to is read.** -/
theorem resourceContent_eq {content : ResourceContent} {v : LinkValue} {depth : Nat}
    (hsmall : content.SmallIds) (hdepth : content.depth ≤ depth)
    (hat : ContentAt (resourceView b binding) r t.start t content v) :
    (t.view b' r).resourceContent depth v.toNat = some content := by
  match content, depth with
  | .data bytes codepage reserved, 0 =>
    rw [ResourceContent.depth] at hdepth
    exact absurd hdepth (by decide)
  | .directory info entries, 0 =>
    rw [ResourceContent.depth] at hdepth
    exact absurd hdepth (Nat.not_succ_le_zero _)
  | .data bytes codepage reserved, depth + 1 =>
    rw [ContentAt] at hat
    obtain ⟨o, d, rfl, hdescription, hbytes⟩ := hat
    have hinside := hdescription.inside
    have hend := hforms.end_le (show "dataentries" ∈ t.names from hnames ▸ by decide)
    rw [LinkValue.toNat_ofSize (by omega), DirectoryView.resourceContent, if_neg (by omega),
      resource_eq hforms hplaced hfix hnames hdescription hbytes]
  | .directory info entries, depth + 1 =>
    rw [ResourceContent.SmallIds] at hsmall
    rw [ResourceContent.depth] at hdepth
    rw [ContentAt] at hat
    obtain ⟨o, rfl, hlevel, hentries⟩ := hat
    have hinside : o + 16 ≤ (t.table "table").virtSize := hlevel.inside
    have hlength := hentries.length_le hinside
    have hend := hforms.end_le (show "table" ∈ t.names from hnames ▸ by decide)
    have hbelow := resourceEntries_eq hsmall (Nat.le_of_succ_le_succ hdepth) hentries
    rw [toNat_or_subdirectoryBit (by omega), DirectoryView.resourceContent, if_pos (by omega),
      Nat.add_sub_cancel_left,
      resourceLevel_eq hforms hplaced hfix hnames hlevel (by omega) hbelow]
    rfl

/-- The entries of a level are read. -/
theorem resourceEntries_eq {entries : List (ResourceId × ResourceContent)} {o depth : Nat}
    (hsmall : SmallEntries entries) (hdepth : entriesDepth entries ≤ depth)
    (hat : EntriesAt (resourceView b binding) r t.start t entries o) :
    (t.view b' r).resourceEntries ((t.view b' r).resourceContent depth) entries.length o =
      some entries := by
  match entries with
  | [] => rfl
  | (id, content) :: rest =>
    rw [SmallEntries] at hsmall
    rw [entriesDepth] at hdepth
    rw [EntriesAt] at hat
    obtain ⟨hid, hcontent, hrest⟩ := hsmall
    obtain ⟨⟨v, hword, hv⟩, ⟨w, hword', hw⟩, hentries⟩ := hat
    rw [List.length_cons, DirectoryView.resourceEntries,
      tableWord hforms hplaced hfix hnames hword', tableWord hforms hplaced hfix hnames hword,
      resourceId_eq hforms hplaced hfix hnames hsize hid hv,
      resourceContent_eq hcontent (Nat.le_trans (Nat.le_max_left _ _) hdepth) hw,
      resourceEntries_eq hrest (Nat.le_trans (Nat.le_max_right _ _) hdepth) hentries]
    rfl

end

end Read

/-- **The bytes of a resource directory are read as its tree**, with the entries of every level in a
stable order. -/
theorem read_encodeResources {c c' : Context} {root : ResourceDirectory} {b b' : Buffer}
    {binding : Binding} {r : Nat} (h : encodeResources c root = .ok (b, c'))
    (hsmall : root.SmallIds) (hsize : b.virtSize < 2 ^ 31) (hplaced : b.PlacedAt binding c.start r)
    (hfix : b.fixup binding = .ok b') :
    let v : DirectoryView := ⟨b'.contents, c.encoder.order, r⟩
    (∀ depth, root.depth ≤ depth → v.resources depth = some root.sorted) ∧
      root.OrderedAs root.sorted := by
  obtain ⟨t, hforms, hnames, ⟨hencoder, hstart⟩, -, hlevel⟩ := levelAt_encodeResources h
  rw [← hstart] at hplaced
  obtain ⟨hhas, hentries⟩ := hlevel _ _ _ _ _ (resourcesPlaced hforms hnames hplaced)
  rw [← hencoder]
  refine ⟨fun depth hdepth => ?_, root.orderedAs_sorted⟩
  have hinside : 16 ≤ (t.table "table").virtSize := hhas.inside
  have hend := hforms.end_le (show "table" ∈ t.names from hnames ▸ by decide)
  have hlength : root.sorted.entries.length < 2 ^ 128 := by
    have := hentries.length_le hinside
    omega
  rw [← root.depth_sorted] at hdepth
  exact resourceLevel_eq hforms hplaced hfix hnames hhas hlength
    (resourceEntries_eq hforms hplaced hfix hnames hsize
      (ResourceDirectory.smallIds_sorted.2 hsmall) hdepth hentries)

/-- A level below a name, a name in front of which it has to be put, and a number. -/
def nestedResources : ResourceDirectory :=
  ⟨⟨1, 7, 2, 3⟩,
    [(.number 5, .data [1, 2, 3] 1252 0),
      (.name "b𐀀", .directory ⟨0, 8, 0, 1⟩
        [(.number 9, .data [4] 0 6), (.number 2, .directory ⟨0, 0, 0, 0⟩ [])]),
      (.name "A", .data [] 0 0)]⟩

theorem read_encodeResources_nestedResources :
    ∃ b c' b',
      encodeResources ⟨.empty, ⟨.little, false⟩, "image"⟩ nestedResources = .ok (b, c') ∧
      nestedResources.SmallIds ∧ b.virtSize < 2 ^ 31 ∧
      let binding := b.placing "image" 0 0x1000 []
      b.PlacedAt binding "image" 0x1000 ∧ b.fixup binding = .ok b' ∧
      let v : DirectoryView := ⟨b'.contents, .little, 0x1000⟩
      (∀ depth, nestedResources.depth ≤ depth →
        v.resources depth = some nestedResources.sorted) ∧
      nestedResources.OrderedAs nestedResources.sorted := by
  obtain ⟨⟨b, c'⟩, hencode, hnodup, hsize, hfixed⟩ :
      ∃ e, encodeResources ⟨.empty, ⟨.little, false⟩, "image"⟩ nestedResources = .ok e ∧
        ("image" :: e.1.labels).Nodup ∧ e.1.virtSize < 0x1000 ∧
        (e.1.fixup (e.1.placing "image" 0 0x1000 [])).toOption.isSome :=
    exists_eq_ok (by decide +kernel)
  obtain ⟨b', hfix⟩ := isSome_toOption.1 hfixed
  change b.virtSize < 0x1000 at hsize
  have hplaced : b.PlacedAt (b.placing "image" 0 0x1000 []) "image" 0x1000 :=
    b.placedAt_placing _ _ hnodup (by omega)
  have hsmall : nestedResources.SmallIds :=
    ⟨by decide, trivial, trivial, ⟨by decide, trivial, by decide, trivial, trivial⟩, trivial,
      trivial, trivial⟩
  exact ⟨b, c', b', hencode, hsmall, by omega, hplaced, hfix,
    read_encodeResources hencode hsmall (by omega) hplaced hfix⟩

end PortableImage
