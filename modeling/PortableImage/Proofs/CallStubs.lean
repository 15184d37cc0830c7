import PortableImage.Proofs.Buffer.Shows
import PortableImage.Proofs.Encode.Assembly
import PortableImage.Proofs.Field.Spelled
import PortableImage.Proofs.Growth
import PortableImage.Proofs.Labels.Assembly

/-!
# Call stubs in their places

Call stubs are written one behind the other while no label has an address.  Once the buffer of the stubs
and the slots of the imports have theirs, every stub jumps through its slot: by the address of the slot,
or, independent of the address, by way of one helper in front of all stubs.

## What is here

* `Buffer.appendAll`, `Buffer.fixup_appendAll` — any number of buffers behind a buffer, which are fixed
  up one by one.
* `StubEncoder.Jumps` — bytes at an address that jump through a slot.
* `StubEncoder.encode_eq_ok`, `Assembly.stubs_addStubs` — one import more, and all of them.
* `StubEncoder.Places`, `StubEncoder.Links` — the addresses that the labels are given, and the code that
  comes of them; `Places.links` says that it does.
* `Assembly.addStubs_jumps` — **call stubs jump through their slots**.
-/

set_option autoImplicit false

namespace PortableImage

namespace Buffer

/-- Buffers behind a buffer. -/
def appendAll (front : Buffer) (bs : List Buffer) : Buffer := bs.foldl (· ++ ·) front

theorem appendAll_concat (front : Buffer) (bs : List Buffer) (b : Buffer) :
    front.appendAll (bs ++ [b]) = front.appendAll bs ++ b := by
  rw [appendAll, List.foldl_append]
  rfl

theorem contents_appendAll (front : Buffer) (bs : List Buffer) :
    (front.appendAll bs).contents = front.contents ++ bs.flatMap contents := by
  induction bs generalizing front with
  | nil => exact (List.append_nil _).symm
  | cons b rest ih =>
    rw [appendAll, List.foldl_cons, ← appendAll, ih, contents_append, List.flatMap_cons,
      List.append_assoc]

/-- Every pending field lies in the bytes, and no zeros follow them. -/
structure Solid (b : Buffer) : Prop where
  inside : b.FieldsInside
  tail : b.tail = 0

theorem Solid.append {a b : Buffer} (ha : a.Solid) (hb : b.Solid) : (a ++ b).Solid :=
  ⟨ha.inside.append hb.inside, hb.tail⟩

theorem Solid.appendAll {front : Buffer} {bs : List Buffer} (hfront : front.Solid)
    (hbs : ∀ b ∈ bs, b.Solid) : (front.appendAll bs).Solid := by
  induction bs using List.reverseRecOn with
  | nil => exact hfront
  | append_singleton bs b ih =>
    rw [appendAll_concat]
    obtain ⟨hbs, hb⟩ := List.forall_mem_append.1 hbs
    exact (ih hbs).append (hb b (List.mem_singleton_self b))

theorem noFields_appendAll {front : Buffer} {bs : List Buffer} (hfront : front.fields = .empty)
    (hbs : ∀ b ∈ bs, b.fields = .empty) : (front.appendAll bs).fields = .empty := by
  induction bs using List.reverseRecOn with
  | nil => exact hfront
  | append_singleton bs b ih =>
    obtain ⟨hbs, hb⟩ := List.forall_mem_append.1 hbs
    refine OffsetMap.ext_get? fun k => ?_
    rw [appendAll_concat, get?_fields_append, ih hbs, hb b (List.mem_singleton_self b)]
    split <;> rfl

/-- **Buffers behind a buffer are fixed up one by one.** -/
theorem fixup_appendAll {front c : Buffer} {bs : List Buffer} {binding : Binding}
    (hfront : front.Solid) (hbs : ∀ b ∈ bs, b.Solid)
    (h : (front.appendAll bs).fixup binding = .ok c) :
    ∃ front' bs', front.fixup binding = .ok front' ∧
      List.Forall₂ (fun b b' => b.fixup binding = .ok b') bs bs' ∧ c = front'.appendAll bs' := by
  induction bs using List.reverseRecOn generalizing c with
  | nil => exact ⟨c, [], h, .nil, rfl⟩
  | append_singleton bs b ih =>
    obtain ⟨hbs, -⟩ := List.forall_mem_append.1 hbs
    have hsolid := hfront.appendAll hbs
    rw [appendAll_concat, fixup_append hsolid.inside hsolid.tail] at h
    obtain ⟨d, b', hd, hb', rfl⟩ := h
    obtain ⟨front', bs', hfront', hbs', rfl⟩ := ih hbs hd
    refine ⟨front', bs' ++ [b'], hfront', ?_, (appendAll_concat _ _ _).symm⟩
    exact List.rel_append hbs' (.cons hb' .nil)

end Buffer

open Buffer

namespace StubEncoder

/-! ## A stub on its own -/

/-- The stub on its own. -/
def stub (e : StubEncoder) (thunk target : String) : Buffer :=
  if e.pic then relativeStub .empty thunk target else absoluteStub .empty thunk target

/-- How many bytes a stub takes. -/
def width (e : StubEncoder) : Nat := if e.pic then 11 else 6

/-- A label for the end of a buffer, and bytes behind it. -/
theorem addExport_extend (b : Buffer) (name : String) (bytes : List UInt8) :
    (b.addExport name b.virtSize).extend bytes =
      b ++ (Buffer.empty.addExport name 0).extend bytes := by
  refine Buffer.ext rfl rfl (fun k => ?_) ?_
  · rw [get?_fields_append]
    split <;> rfl
  · show b.exports ++ [(name, b.virtSize)] = b.exports ++ [(name, 0 + b.virtSize)]
    rw [Nat.zero_add]

theorem absoluteStub_eq (plt : Buffer) (thunk target : String) :
    absoluteStub plt thunk target = plt ++ absoluteStub .empty thunk target := by
  rw [absoluteStub, addExport_extend, append_assoc]
  rfl

theorem relativeStub_eq (plt : Buffer) (thunk target : String) :
    relativeStub plt thunk target = plt ++ relativeStub .empty thunk target := by
  rw [relativeStub, addExport_extend]
  show (_ ++ _ ++ _ : Buffer).extend jumpRelative ++ _ =
    plt ++ ((_ ++ _ : Buffer).extend jumpRelative ++ _)
  rw [extend_eq_append, extend_eq_append]
  simp only [append_assoc]
  rfl

/-- A stub that is independent of the address is a call of the helper and a jump. -/
theorem relativeStub_empty (thunk target : String) :
    relativeStub .empty thunk target =
      ((Buffer.empty.addExport thunk 0).extend call ++
          distance (.label helperLabel - (.label thunk + .const 5))) ++
        (ofBytes jumpRelative ++ distance (.label target - .label helperLabel)) := by
  rw [relativeStub, extend_eq_append, append_assoc]
  rfl

theorem solid_of_noFields {b : Buffer} (hfields : b.fields = .empty) (htail : b.tail = 0) : b.Solid :=
  ⟨fieldsInside_of_noFields hfields, htail⟩

theorem solid_placeholder (e : Expr) (t : FieldType) (order : ByteOrder) :
    (placeholder e t order).Solid :=
  ⟨fieldsInside_placeholder e t order, rfl⟩

theorem solid_stub (e : StubEncoder) (thunk target : String) : (e.stub thunk target).Solid := by
  rw [stub]
  split
  · rw [relativeStub_empty]
    exact ((solid_of_noFields rfl rfl).append (solid_placeholder _ _ _)).append
      ((solid_of_noFields rfl rfl).append (solid_placeholder _ _ _))
  · exact (solid_of_noFields rfl rfl).append (solid_placeholder _ _ _)

@[simp]
theorem virtSize_stub (e : StubEncoder) (thunk target : String) :
    (e.stub thunk target).virtSize = e.width := by
  rw [stub, width]
  split <;> rfl

theorem exports_stub (e : StubEncoder) (thunk target : String) :
    (e.stub thunk target).exports = [(thunk, 0)] := by
  rw [stub]
  split <;> rfl

/-! ## A stub whose labels have addresses -/

/-- Bytes at an address that jump through a slot: by the address of the slot, or by a call of the helper
at `base`, which leaves `base` behind, and the distance of the slot from there. -/
inductive Jumps (base address slot : LinkValue) : (pic : Bool) → List UInt8 → Prop
  | absolute (fits : slot.toNat < 2 ^ 32) :
    Jumps base address slot false (jumpSlot ++ littleEndian 4 slot.toNat)
  | relative (back ahead : List UInt8) (length_back : back.length = 4)
    (length_ahead : ahead.length = 4)
    (called : address + 5 + FieldType.i32.decodeValue .little back = base)
    (jumped : base + FieldType.i32.decodeValue .little ahead = slot) :
    Jumps base address slot true (call ++ back ++ (jumpRelative ++ ahead))

theorem fixup_of_noFields {b : Buffer} {binding : Binding} (h : b.fields = .empty) :
    b.fixup binding = .ok b := by
  rw [fixup, h]
  rfl

section Placed

variable {binding : Binding} {base address slot : LinkValue} {thunk target : String} {code : Buffer}

/-- Bytes, and behind them a field whose labels have addresses. -/
theorem fixup_bytes_placeholder (hb : binding.Constant) {front : Buffer}
    (hfields : front.fields = .empty)
    (htail : front.tail = 0) {e : Expr} {t : FieldType}
    (h : (front ++ placeholder e t .little).fixup binding = .ok code)
    (hknown : ∀ l ∈ e.labelLeaves, (binding.get? l).isSome) :
    ∃ bytes, t.encodeValue (e.eval binding.env) .little = .ok bytes ∧ code = front ++ ofBytes bytes := by
  rw [fixup_append (fieldsInside_of_noFields hfields) htail, fixup_of_noFields hfields,
    FieldEncoder.fixup_placeholder (Expr.constantUnder_of_known hb hknown)] at h
  obtain ⟨_, _, hfront, hfield, rfl⟩ := h
  cases hfront
  obtain ⟨bytes, hbytes, rfl⟩ := map_eq_ok.1 hfield
  exact ⟨bytes, hbytes, rfl⟩

theorem jumps_absoluteStub (hb : binding.Constant) (htarget : binding.get? target = some (.const slot))
    (h : (absoluteStub .empty thunk target).fixup binding = .ok code) :
    Jumps base address slot false code.contents ∧ code.fields = .empty := by
  obtain ⟨bytes, hbytes, rfl⟩ :=
    fixup_bytes_placeholder hb rfl rfl h (by simp [Expr.labelLeaves, htarget])
  have hvalue : Expr.eval binding.env (.label target) = slot := Binding.env_of_get? htarget
  rw [hvalue, FieldType.encodeValue_eq_ok] at hbytes
  obtain ⟨hfits, rfl⟩ := hbytes
  exact ⟨.absolute (FieldType.toNat_lt_of_fits rfl hfits), rfl⟩

theorem jumps_relativeStub (hb : binding.Constant)
    (hhelper : binding.get? helperLabel = some (.const base))
    (hthunk : binding.get? thunk = some (.const address))
    (htarget : binding.get? target = some (.const slot))
    (h : (relativeStub .empty thunk target).fixup binding = .ok code) :
    Jumps base address slot true code.contents ∧ code.fields = .empty := by
  have hsolid : ((Buffer.empty.addExport thunk 0).extend call ++
      distance (.label helperLabel - (.label thunk + .const 5))).Solid :=
    (solid_of_noFields rfl rfl).append (solid_placeholder _ _ _)
  rw [relativeStub_empty, fixup_append hsolid.inside hsolid.tail] at h
  obtain ⟨_, _, hcall, hjump, rfl⟩ := h
  have hcalled : ∀ l ∈ [helperLabel, thunk], (binding.get? l).isSome := by simp [hhelper, hthunk]
  have hjumped : ∀ l ∈ [target, helperLabel], (binding.get? l).isSome := by simp [hhelper, htarget]
  obtain ⟨back, hback, rfl⟩ := fixup_bytes_placeholder hb rfl rfl hcall hcalled
  obtain ⟨ahead, hahead, rfl⟩ := fixup_bytes_placeholder hb rfl rfl hjump hjumped
  have hbackValue : (Expr.label helperLabel - (.label thunk + .const 5)).eval binding.env =
      base - (address + 5) := by
    show binding.env helperLabel - (binding.env thunk + 5) = _
    rw [Binding.env_of_get? hhelper, Binding.env_of_get? hthunk]
  have haheadValue : (Expr.label target - .label helperLabel).eval binding.env = slot - base := by
    show binding.env target - binding.env helperLabel = _
    rw [Binding.env_of_get? hhelper, Binding.env_of_get? htarget]
  rw [hbackValue] at hback
  rw [haheadValue] at hahead
  have hcontents : ((Buffer.empty.addExport thunk 0).extend call ++ ofBytes back ++
      (ofBytes jumpRelative ++ ofBytes ahead)).contents = call ++ back ++ (jumpRelative ++ ahead) := by
    simp only [contents_append, contents_extend, contents_eq_data (b := ofBytes _) rfl]
    rfl
  rw [hcontents]
  refine ⟨.relative back ahead (FieldType.length_encodeValue hback) (FieldType.length_encodeValue hahead)
    ?_ ?_, rfl⟩
  · rw [FieldType.decodeValue_encodeValue hback, add_sub_cancel]
  · rw [FieldType.decodeValue_encodeValue hahead, add_sub_cancel]

end Placed

end StubEncoder

/-! ## Stubs one behind the other -/

/-- The label of its stub and the label of its slot, for an import that is to have a stub. -/
def Import.call? (i : Import) : Option (String × String) :=
  match i.thunk, i.target with
  | some thunk, some target => some (thunk, target)
  | _, _ => none

/-- The labels of the stubs with those of the slots, in order. -/
def stubCalls (imports : List Import) : List (String × String) := imports.filterMap Import.call?

namespace StubEncoder

/-- The stubs of calls. -/
def stubs (e : StubEncoder) (calls : List (String × String)) : List Buffer :=
  calls.map fun c => e.stub c.1 c.2

/-- What comes before the first stub that is put behind a buffer: the helper, if it is needed and nothing
else is there. -/
def front (e : StubEncoder) (plt : Buffer) (calls : List (String × String)) : Buffer :=
  if e.pic ∧ plt.isEmpty ∧ calls ≠ [] then (plt.addExport helperLabel 0).extend helper else plt

theorem front_cons (e : StubEncoder) (plt : Buffer) (c : String × String)
    (rest : List (String × String)) : e.front plt (c :: rest) = e.front plt [c] := by
  simp [front]

theorem width_pos (e : StubEncoder) : 0 < e.width := by
  rw [width]
  split <;> decide

/-- Behind a stub there is no helper. -/
theorem front_append_stub (e : StubEncoder) (plt : Buffer) (thunk target : String)
    (calls : List (String × String)) :
    e.front (plt ++ e.stub thunk target) calls = plt ++ e.stub thunk target := by
  have hpos := e.width_pos
  have hsize : (plt ++ e.stub thunk target).isEmpty = false := by
    rw [isEmpty, virtSize_append, virtSize_stub]
    simpa using fun _ => Nat.ne_of_gt hpos
  rw [front, if_neg (by simp [hsize])]

section Encode

variable {e : StubEncoder} {pool pool' : LabelPool} {plt plt' : Buffer} {i : Import}
  {sections : List Section}

theorem withHelper_eq (hsections : ∀ s ∈ sections, s.content.exportOffset helperLabel = none) :
    (withHelper pool plt sections).2 =
      if plt.isEmpty then (plt.addExport helperLabel 0).extend helper else plt := by
  have hnone : (sections.any fun s => (s.content.exportOffset helperLabel).isSome) = false := by
    rw [List.any_eq_false]
    intro s hs
    rw [hsections s hs]
    exact Bool.false_ne_true
  rw [withHelper, hnone, Bool.not_false, Bool.and_true]
  split <;> rfl

/-- **One import more**: nothing, or a stub behind those that are there. -/
theorem encode_eq_ok (hsections : ∀ s ∈ sections, s.content.exportOffset helperLabel = none)
    (h : e.encode pool plt i sections = .ok (pool', plt')) :
    (i.call? = none ∧ plt' = plt) ∨
      ∃ c, i.call? = some c ∧ plt' = e.front plt [c] ++ e.stub c.1 c.2 := by
  rw [encode.eq_def] at h
  dsimp only at h
  rw [Import.call?]
  split at h
  · next hthunk =>
    cases h
    exact .inl ⟨by rw [hthunk], rfl⟩
  · cases h
  · next thunk target hthunk htarget =>
    refine .inr ⟨(thunk, target), by rw [hthunk, htarget], ?_⟩
    rw [stub, front]
    split at h
    · next hpic =>
      cases h
      rw [if_pos hpic, relativeStub_eq, withHelper_eq hsections]
      simp [hpic]
    · next hpic =>
      cases h
      rw [if_neg hpic, absoluteStub_eq]
      simp [hpic]

/-- An import has its stub, if it is to have one, where it has a label for its slot. -/
theorem exists_encode (e : StubEncoder) (pool : LabelPool) (plt : Buffer) (i : Import)
    (sections : List Section) :
    (∃ r, e.encode pool plt i sections = .ok r) ↔ (i.thunk.isSome → i.target.isSome) := by
  rw [encode.eq_def]
  dsimp only
  split
  · next hthunk => simp [hthunk]
  · next thunk hthunk htarget => simp [hthunk, htarget]
  · next thunk target hthunk htarget =>
    simp only [htarget, Option.isSome_some, implies_true, iff_true]
    split <;> exact ⟨_, rfl⟩

end Encode

end StubEncoder

namespace Assembly

variable {e : StubEncoder} {sections : List Section} {imports : List Import}
  {parts parts' : ImportParts}

/-- **All stubs, one behind the other.** -/
theorem stubs_addStubs (hsections : ∀ s ∈ sections, s.content.exportOffset helperLabel = none)
    (h : addStubs (some e) sections imports parts = .ok parts') :
    parts'.stubs =
      (e.front parts.stubs (stubCalls imports)).appendAll (e.stubs (stubCalls imports)) := by
  induction imports generalizing parts with
  | nil =>
    cases h
    rw [StubEncoder.front, if_neg (by simp [stubCalls])]
    rfl
  | cons i rest ih =>
    rw [addStubs.eq_def] at h
    simp only [bind_eq_ok, Prod.exists] at h
    obtain ⟨pool, plt, hencode, h⟩ := h
    have hrest := ih h
    obtain ⟨hcall, rfl⟩ | ⟨c, hcall, rfl⟩ := StubEncoder.encode_eq_ok hsections hencode
    · rw [hrest, stubCalls, stubCalls, List.filterMap_cons_none hcall]
    · rw [hrest, StubEncoder.front_append_stub, stubCalls, stubCalls, List.filterMap_cons_some hcall,
        e.front_cons parts.stubs c (rest.filterMap Import.call?)]
      rfl

/-- The stubs are written where every import that is to have one has a label for its slot. -/
theorem exists_addStubs :
    (∃ parts', addStubs (some e) sections imports parts = .ok parts') ↔
      ∀ i ∈ imports, i.thunk.isSome → i.target.isSome := by
  induction imports generalizing parts with
  | nil => simp [addStubs]
  | cons i rest ih =>
    rw [List.forall_mem_cons, ← e.exists_encode parts.pool parts.stubs i sections, addStubs.eq_def]
    simp only [bind_eq_ok]
    constructor
    · rintro ⟨parts', r, hr, h⟩
      exact ⟨⟨r, hr⟩, ih.1 ⟨parts', h⟩⟩
    · rintro ⟨⟨r, hr⟩, h⟩
      obtain ⟨parts', hparts⟩ := ih.2 h
      exact ⟨parts', r, hr, hparts⟩

end Assembly

/-! ## Where the labels are -/

namespace StubEncoder

theorem virtSize_appendAll_stubs (e : StubEncoder) (front : Buffer) (calls : List (String × String)) :
    (front.appendAll (e.stubs calls)).virtSize = front.virtSize + calls.length * e.width := by
  induction calls using List.reverseRecOn with
  | nil => rw [List.length_nil, Nat.zero_mul]; rfl
  | append_singleton calls c ih =>
    rw [stubs, List.map_append, List.map_singleton, appendAll_concat, ← stubs, virtSize_append, ih,
      virtSize_stub, List.length_append, List.length_singleton, Nat.succ_mul, Nat.add_assoc]

/-- Every label is at the start of its stub. -/
theorem exports_appendAll_stubs (e : StubEncoder) (front : Buffer) (calls : List (String × String)) :
    (front.appendAll (e.stubs calls)).exports =
      front.exports ++ calls.mapIdx fun n c => (c.1, front.virtSize + n * e.width) := by
  induction calls using List.reverseRecOn with
  | nil => exact (List.append_nil _).symm
  | append_singleton calls c ih =>
    rw [stubs, List.map_append, List.map_singleton, appendAll_concat, ← stubs, exports_append, ih,
      exports_stub, virtSize_appendAll_stubs, List.mapIdx_concat, List.append_assoc]
    simp

/-- Where the stub of a number is, in a buffer of stubs and nothing else. -/
def offset (e : StubEncoder) (calls : List (String × String)) (n : Nat) : Nat :=
  (if e.pic ∧ calls ≠ [] then helper.length else 0) + n * e.width

/-- The labels of such a buffer. -/
def labels (e : StubEncoder) (calls : List (String × String)) : List (String × Nat) :=
  (if e.pic ∧ calls ≠ [] then [(helperLabel, 0)] else []) ++
    calls.mapIdx fun n c => (c.1, e.offset calls n)

theorem front_empty (e : StubEncoder) (calls : List (String × String)) :
    e.front .empty calls = if e.pic ∧ calls ≠ [] then
      (Buffer.empty.addExport helperLabel 0).extend helper else .empty := by
  have hempty : Buffer.empty.isEmpty = true := rfl
  simp only [front, hempty, true_and]

theorem virtSize_front (e : StubEncoder) (calls : List (String × String)) :
    (e.front .empty calls).virtSize = if e.pic ∧ calls ≠ [] then helper.length else 0 := by
  rw [front_empty]
  split <;> rfl

theorem exports_stubs (e : StubEncoder) (calls : List (String × String)) :
    ((e.front .empty calls).appendAll (e.stubs calls)).exports = e.labels calls := by
  rw [exports_appendAll_stubs, virtSize_front, labels, front_empty]
  congr 1
  split <;> rfl

theorem noFields_front (e : StubEncoder) (calls : List (String × String)) :
    (e.front .empty calls).fields = .empty := by
  rw [front_empty]
  split <;> rfl

theorem solid_front (e : StubEncoder) (calls : List (String × String)) :
    (e.front .empty calls).Solid := by
  rw [front_empty]
  split <;> exact solid_of_noFields rfl rfl

theorem solid_stubs (e : StubEncoder) (calls : List (String × String)) :
    ∀ b ∈ e.stubs calls, b.Solid := by
  intro b hb
  obtain ⟨c, -, rfl⟩ := List.mem_map.1 hb
  exact e.solid_stub c.1 c.2

/-! ## Stubs that have their places -/

/-- A binding that gives the labels of the stubs their addresses, when the stubs are at `base`, and the
labels of the slots theirs. -/
structure Places (e : StubEncoder) (calls : List (String × String)) (base : LinkValue)
    (slot : String → LinkValue) (binding : Binding) : Prop where
  constant : binding.Constant
  label : ∀ l ∈ e.labels calls, binding.get? l.1 = some (.const (base + .ofSize l.2))
  slot : ∀ c ∈ calls, binding.get? c.2 = some (.const (slot c.2))

/-- Code of stubs and nothing else that jumps through the slots, when it is at `base`. -/
structure Links (e : StubEncoder) (calls : List (String × String)) (base : LinkValue)
    (slot : String → LinkValue) (code : Buffer) : Prop where
  settled : code.fields = .empty
  size : code.virtSize = e.offset calls calls.length
  exports : code.exports = e.labels calls
  /-- The helper is in front of all stubs. -/
  helper : e.pic → calls ≠ [] → bytesAt code.contents 0 helper.length = helper
  jumps : ∀ n c, calls[n]? = some c →
    Jumps base (base + .ofSize (e.offset calls n)) (slot c.2) e.pic
      (bytesAt code.contents (e.offset calls n) e.width)

end StubEncoder

/-- Bytes of equal length, found by their number. -/
theorem bytesAt_flatMap {α : Type} {f : α → List UInt8} {w : Nat} {l : List α}
    (hlength : ∀ a ∈ l, (f a).length = w) {n : Nat} {a : α} (h : l[n]? = some a) :
    bytesAt (l.flatMap f) (n * w) w = f a := by
  induction l generalizing n with
  | nil => exact nomatch h
  | cons b rest ih =>
    obtain ⟨hb, hrest⟩ := List.forall_mem_cons.1 hlength
    rw [List.flatMap_cons]
    cases n with
    | zero =>
      cases h
      rw [Nat.zero_mul, bytesAt, List.drop_zero, List.take_left' hb]
    | succ n =>
      rw [← ih hrest h, Nat.succ_mul, Nat.add_comm, ← hb, bytesAt_append_right]

namespace StubEncoder

variable {e : StubEncoder} {calls : List (String × String)} {base : LinkValue}
  {slot : String → LinkValue} {binding : Binding} {code : Buffer}

/-- A stub whose labels have addresses jumps. -/
theorem Places.jumps (h : e.Places calls base slot binding) {n : Nat} {c : String × String}
    (hc : calls[n]? = some c) (hfix : (e.stub c.1 c.2).fixup binding = .ok code) :
    Jumps base (base + .ofSize (e.offset calls n)) (slot c.2) e.pic code.contents ∧
      code.fields = .empty := by
  have hmem := List.mem_of_getElem? hc
  have htarget := h.slot c hmem
  have hthunk : binding.get? c.1 = some (.const (base + .ofSize (e.offset calls n))) := by
    refine h.label (c.1, e.offset calls n) (List.mem_append_right _ ?_)
    exact List.mem_of_getElem? (by rw [List.getElem?_mapIdx, hc, Option.map_some])
  rw [stub] at hfix
  cases hpic : e.pic with
  | false =>
    rw [hpic, if_neg Bool.false_ne_true] at hfix
    exact jumps_absoluteStub h.constant htarget hfix
  | true =>
    rw [hpic, if_pos rfl] at hfix
    have hhelper : binding.get? helperLabel = some (.const base) := by
      have hlabel := h.label (helperLabel, 0) (List.mem_append_left _ (by
        simp [hpic, List.ne_nil_of_mem hmem]))
      rwa [show base + LinkValue.ofSize 0 = base from add_zero base] at hlabel
    exact jumps_relativeStub h.constant hhelper hthunk htarget hfix

/-- **Stubs that have their places jump through the slots.** -/
theorem Places.links (h : e.Places calls base slot binding)
    (hfix : ((e.front .empty calls).appendAll (e.stubs calls)).fixup binding = .ok code) :
    e.Links calls base slot code := by
  have hfront := e.solid_front calls
  have hstubs := e.solid_stubs calls
  have hsize : code.virtSize = e.offset calls calls.length := by
    rw [virtSize_fixup (hfront.appendAll hstubs).inside hfix, virtSize_appendAll_stubs, virtSize_front]
    rfl
  have hexports : code.exports = e.labels calls := by
    rw [exports_fixup hfix, exports_stubs]
  obtain ⟨front, codes, hfixed, hcodes, rfl⟩ := fixup_appendAll hfront hstubs hfix
  rw [fixup_of_noFields (noFields_front e calls)] at hfixed
  cases hfixed
  have hlength : (e.front .empty calls).contents.length =
      if e.pic ∧ calls ≠ [] then helper.length else 0 := by
    rw [length_contents, virtSize_front]
  rw [stubs, List.forall₂_map_left_iff] at hcodes
  have hwidth : ∀ b ∈ codes, b.contents.length = e.width := by
    intro b hb
    obtain ⟨n, hn⟩ := List.mem_iff_getElem?.1 hb
    obtain ⟨c, -, hc⟩ := exists_left_of_forall₂ hcodes hn
    rw [length_contents, virtSize_fixup (e.solid_stub c.1 c.2).inside hc, virtSize_stub]
  refine ⟨?_, hsize, hexports, fun hpic hcalls => ?_, fun n c hc => ?_⟩
  · refine noFields_appendAll (noFields_front e calls) fun b hb => ?_
    obtain ⟨n, hn⟩ := List.mem_iff_getElem?.1 hb
    obtain ⟨c, hc, hfixed⟩ := exists_left_of_forall₂ hcodes hn
    exact (h.jumps hc hfixed).2
  · rw [if_pos ⟨hpic, hcalls⟩] at hlength
    rw [contents_appendAll, front_empty, if_pos ⟨hpic, hcalls⟩]
    exact List.take_left' rfl
  · obtain ⟨b, hb, hfixed⟩ := exists_right_of_forall₂ hcodes hc
    have hbytes : bytesAt ((e.front .empty calls).appendAll codes).contents (e.offset calls n) e.width =
        b.contents := by
      rw [contents_appendAll, offset, ← hlength, bytesAt_append_right, bytesAt_flatMap hwidth hb]
    rw [hbytes]
    exact (h.jumps hc hfixed).1

end StubEncoder

/-! ## Giving the labels their addresses -/

/-- The labels of the slots with their addresses. -/
def slotAddresses (imports : List Import) (slot : String → LinkValue) : List (String × Expr) :=
  (imports.filterMap (·.target)).map fun target => (target, .const (slot target))

theorem map_fst_slotAddresses (imports : List Import) (slot : String → LinkValue) :
    (slotAddresses imports slot).map (·.1) = imports.filterMap (·.target) := by
  rw [slotAddresses, List.map_map]
  exact List.map_id _

theorem map_fst_stubCalls_sublist (imports : List Import) :
    ((stubCalls imports).map (·.1)).Sublist (imports.filterMap (·.thunk)) := by
  induction imports with
  | nil => exact .slnil
  | cons i rest ih =>
    cases hthunk : i.thunk with
    | none =>
      have hcall : i.call? = none := by rw [Import.call?, hthunk]
      rw [stubCalls, List.filterMap_cons_none hcall, List.filterMap_cons_none hthunk]
      exact ih
    | some thunk =>
      rw [List.filterMap_cons_some hthunk]
      cases htarget : i.target with
      | none =>
        have hcall : i.call? = none := by rw [Import.call?, hthunk, htarget]
        rw [stubCalls, List.filterMap_cons_none hcall]
        exact ih.cons _
      | some target =>
        have hcall : i.call? = some (thunk, target) := by rw [Import.call?, hthunk, htarget]
        rw [stubCalls, List.filterMap_cons_some hcall]
        exact ih.cons_cons _

theorem mem_targets_of_mem_stubCalls {imports : List Import} {c : String × String}
    (hc : c ∈ stubCalls imports) : c.2 ∈ imports.filterMap (·.target) := by
  obtain ⟨i, hi, hcall⟩ := List.mem_filterMap.1 hc
  refine List.mem_filterMap.2 ⟨i, hi, ?_⟩
  rw [Import.call?] at hcall
  split at hcall
  · next htarget =>
    cases hcall
    exact htarget
  · exact nomatch hcall

/-- The labels of imports are those of their slots and those of their stubs. -/
theorem perm_importLabels (imports : List Import) : (imports.flatMap Import.labels).Perm
    (imports.filterMap (·.target) ++ imports.filterMap (·.thunk)) := by
  rw [List.filterMap_eq_flatMap_toList, List.filterMap_eq_flatMap_toList]
  exact (List.flatMap_append_perm imports _ _).symm

theorem Expr.reduce_const_add (a b : LinkValue) :
    (Expr.const a + Expr.const b).reduce = .const (a + b) := by
  show Linear.toExpr ⟨[], a + b * 1⟩ = _
  rw [mul_one]
  rfl

/-- The labels of a buffer at an address. -/
theorem addresses_const (b : Buffer) (base : LinkValue) :
    b.addresses (.const base) = b.exports.map fun l => (l.1, .const (base + .ofSize l.2)) :=
  List.map_congr_left fun l _ => by rw [Expr.ofSize, Expr.reduce_const_add]

namespace StubEncoder

theorem map_fst_labels (e : StubEncoder) (calls : List (String × String)) :
    (e.labels calls).map (·.1) =
      (if e.pic ∧ calls ≠ [] then [helperLabel] else []) ++ calls.map (·.1) := by
  have hcalls : (calls.mapIdx fun n c => (c.1, e.offset calls n)).map (·.1) = calls.map (·.1) := by
    refine List.ext_getElem? fun n => ?_
    rw [List.getElem?_map, List.getElem?_mapIdx, List.getElem?_map, Option.map_map]
    rfl
  rw [labels, List.map_append, hcalls]
  split <;> rfl

theorem nodup_labels {e : StubEncoder} {imports : List Import}
    (hnodup : (imports.flatMap Import.labels).Nodup)
    (hhelper : helperLabel ∉ imports.flatMap Import.labels) :
    ((e.labels (stubCalls imports)).map (·.1)).Nodup ∧
      ∀ l ∈ imports.filterMap (·.target), l ∉ (e.labels (stubCalls imports)).map (·.1) := by
  rw [(perm_importLabels imports).nodup_iff, List.nodup_append'] at hnodup
  rw [(perm_importLabels imports).mem_iff, List.mem_append, not_or] at hhelper
  obtain ⟨-, hthunks, hdisjoint⟩ := hnodup
  have hsublist := map_fst_stubCalls_sublist imports
  have hfront : ∀ l, l ∈ (if e.pic ∧ stubCalls imports ≠ [] then [helperLabel] else []) →
      l = helperLabel := by
    intro l hl
    split at hl
    · exact List.mem_singleton.1 hl
    · exact nomatch hl
  rw [map_fst_labels, List.nodup_append']
  refine ⟨⟨?_, hthunks.sublist hsublist, fun l hl hl' => ?_⟩, fun l hl hmem => ?_⟩
  · split
    · exact List.nodup_singleton _
    · exact List.nodup_nil
  · obtain rfl := hfront l hl
    exact hhelper.2 (hsublist.subset hl')
  · rcases List.mem_append.1 hmem with hmem | hmem
    · obtain rfl := hfront l hmem
      exact hhelper.1 hl
    · exact hdisjoint hl (hsublist.subset hmem)

/-- Labels that differ can be given their addresses. -/
theorem exists_places (e : StubEncoder) {imports : List Import} {plt : Buffer}
    (hexports : plt.exports = e.labels (stubCalls imports))
    (hnodup : (imports.flatMap Import.labels).Nodup)
    (hhelper : helperLabel ∉ imports.flatMap Import.labels) (base : LinkValue)
    (slot : String → LinkValue) :
    ∃ placed binding, plt.binding (.const base) = .ok placed ∧
      placed.bindAll (slotAddresses imports slot) = .ok binding ∧
      e.Places (stubCalls imports) base slot binding := by
  obtain ⟨hlabels, hnew⟩ := nodup_labels (e := e) hnodup hhelper
  have haddresses : plt.addresses (.const base) =
      (e.labels (stubCalls imports)).map fun l => (l.1, .const (base + .ofSize l.2)) := by
    rw [addresses_const, hexports]
  have hnames : (plt.addresses (.const base)).map (·.1) = (e.labels (stubCalls imports)).map (·.1) := by
    rw [haddresses, List.map_map]
    rfl
  obtain ⟨placed, hplaced⟩ : ∃ placed, plt.binding (.const base) = .ok placed :=
    Binding.exists_bindAll (fun _ _ => rfl) (hnames ▸ hlabels)
  have htargets : (imports.filterMap (·.target)).Nodup := by
    rw [(perm_importLabels imports).nodup_iff] at hnodup
    exact hnodup.of_append_left
  have hfree : ∀ p ∈ slotAddresses imports slot, placed.get? p.1 = none := fun p hp => by
    have hmem : p.1 ∈ imports.filterMap (·.target) := by
      rw [← map_fst_slotAddresses imports slot]
      exact List.mem_map_of_mem hp
    rw [Binding.get?_bindAll hplaced, ← Option.not_isSome_iff_eq_none]
    show ¬((none : Option Expr).or _).isSome
    rw [Option.none_or, Binding.isSome_lookup, hnames]
    exact hnew _ hmem
  obtain ⟨binding, hbinding⟩ := Binding.exists_bindAll hfree (by rwa [map_fst_slotAddresses])
  refine ⟨placed, binding, hplaced, hbinding, ?_, fun l hl => ?_, fun c hc => ?_⟩
  · have hconstant : placed.Constant := Binding.constant_empty.bindAll hplaced fun p hp => by
      rw [haddresses] at hp
      obtain ⟨l, -, rfl⟩ := List.mem_map.1 hp
      exact ⟨_, rfl⟩
    refine hconstant.bindAll hbinding fun p hp => ?_
    obtain ⟨target, -, rfl⟩ := List.mem_map.1 hp
    exact ⟨_, rfl⟩
  · refine Binding.extends_bindAll hbinding _ _ (Binding.get?_bindAll_of_mem hplaced ?_)
    rw [haddresses]
    exact List.mem_map_of_mem hl
  · exact Binding.get?_bindAll_of_mem hbinding
      (List.mem_map_of_mem (mem_targets_of_mem_stubCalls hc))

end StubEncoder

namespace Assembly

/-- **Call stubs jump through their slots.**  Stubs are written unless an import that is to have one has
no label for its slot.  Where the labels of the imports differ, none of them is that of the helper, and
no section has a helper, the labels of the stubs and of the slots can be given any addresses; and where
a fixup then succeeds, nothing is pending, every label is at the start of its stub, and the stub jumps
through its slot.  Without `pic` there is no helper; with it there is one, in front of all stubs, as
soon as there is a stub.  The byte order of the image plays no part. -/
theorem addStubs_jumps (e : StubEncoder) (sections : List Section) (imports : List Import)
    (parts : ImportParts) (hempty : parts.stubs = .empty)
    (hnodup : (imports.flatMap Import.labels).Nodup)
    (hhelper : helperLabel ∉ imports.flatMap Import.labels)
    (hsections : ∀ s ∈ sections, s.content.exportOffset helperLabel = none) :
    ((∃ parts', addStubs (some e) sections imports parts = .ok parts') ↔
      ∀ i ∈ imports, i.thunk.isSome → i.target.isSome) ∧
    ∀ parts', addStubs (some e) sections imports parts = .ok parts' → ∀ base slot,
      (∃ placed binding, parts'.stubs.binding (.const base) = .ok placed ∧
        placed.bindAll (slotAddresses imports slot) = .ok binding ∧
        e.Places (stubCalls imports) base slot binding) ∧
      ∀ binding, e.Places (stubCalls imports) base slot binding →
        ∀ code, parts'.stubs.fixup binding = .ok code →
          e.Links (stubCalls imports) base slot code := by
  refine ⟨exists_addStubs, fun parts' h base slot => ?_⟩
  have hstubs := stubs_addStubs hsections h
  rw [hempty] at hstubs
  have hexports : parts'.stubs.exports = e.labels (stubCalls imports) := by
    rw [hstubs, StubEncoder.exports_stubs]
  refine ⟨e.exists_places hexports hnodup hhelper base slot, fun binding hplaces code hcode => ?_⟩
  rw [hstubs] at hcode
  exact hplaces.links hcode

/-- Two imports with stubs, and between them one without. -/
def twoCalls : List Import :=
  [{ Import.byName "Sleep" with thunk := some "Sleep", target := some "iat_Sleep" },
    { Import.byOrdinal 7 with target := some "iat_7" },
    { Import.byName "Beep" with thunk := some "Beep", target := some "iat_Beep" }]

/-- Addresses of their slots. -/
def twoSlots (label : String) : LinkValue :=
  if label = "iat_Sleep" then 0x2000 else if label = "iat_7" then 0x2004 else 0x2008

theorem addStubs_jumps_oneHelper :
    ∃ parts' placed binding code,
      addStubs (some ⟨true⟩) [] twoCalls ⟨[], none, .empty, .empty⟩ = .ok parts' ∧
      parts'.stubs.binding (.const 0x1000) = .ok placed ∧
      placed.bindAll (slotAddresses twoCalls twoSlots) = .ok binding ∧
      parts'.stubs.fixup binding = .ok code ∧
      StubEncoder.Links ⟨true⟩ [("Sleep", "iat_Sleep"), ("Beep", "iat_Beep")] 0x1000 twoSlots code ∧
      code.contents = StubEncoder.helper ++
        [0xe8, 0xef, 0xff, 0xff, 0xff, 0xff, 0xa0, 0x00, 0x10, 0x00, 0x00] ++
        [0xe8, 0xe4, 0xff, 0xff, 0xff, 0xff, 0xa0, 0x08, 0x10, 0x00, 0x00] := by
  have hcode : (do
      let parts ← addStubs (some ⟨true⟩) [] twoCalls ⟨[], none, .empty, .empty⟩
      let placed ← parts.stubs.binding (.const 0x1000)
      let binding ← placed.bindAll (slotAddresses twoCalls twoSlots)
      let code ← parts.stubs.fixup binding
      return code.contents).toOption = some (StubEncoder.helper ++
        [0xe8, 0xef, 0xff, 0xff, 0xff, 0xff, 0xa0, 0x00, 0x10, 0x00, 0x00] ++
        [0xe8, 0xe4, 0xff, 0xff, 0xff, 0xff, 0xa0, 0x08, 0x10, 0x00, 0x00]) := by
    decide +kernel
  simp only [toOption_eq_some, bind_eq_ok, pure_eq_ok] at hcode
  obtain ⟨parts', hparts, placed, hplaced, binding, hbinding, code, hfix, hcontents⟩ := hcode
  obtain ⟨-, hjumps⟩ := addStubs_jumps ⟨true⟩ [] twoCalls ⟨[], none, .empty, .empty⟩ rfl
    (by decide +kernel) (by decide +kernel) (by simp)
  obtain ⟨⟨placed', binding', hplaced', hbinding', hplaces⟩, hlinks⟩ :=
    hjumps parts' hparts 0x1000 twoSlots
  rw [hplaced] at hplaced'
  cases hplaced'
  rw [hbinding] at hbinding'
  cases hbinding'
  exact ⟨parts', placed, binding, code, hparts, hplaced, hbinding, hfix,
    hlinks binding hplaces code hfix, hcontents⟩

/-- Without any import there is no helper. -/
theorem not_addStubs_helper :
    ¬∀ (imports : List Import) (parts parts' : ImportParts), parts.stubs = .empty →
      (imports.flatMap Import.labels).Nodup → helperLabel ∉ imports.flatMap Import.labels →
      addStubs (some ⟨true⟩) [] imports parts = .ok parts' →
      ∀ base slot placed binding code, parts'.stubs.binding (.const base) = .ok placed →
        placed.bindAll (slotAddresses imports slot) = .ok binding →
        parts'.stubs.fixup binding = .ok code →
        bytesAt code.contents 0 StubEncoder.helper.length = StubEncoder.helper := by
  intro h
  have hhelper := h [] ⟨[], none, .empty, .empty⟩ ⟨[], none, .empty, .empty⟩ rfl List.nodup_nil
    List.not_mem_nil rfl 0x1000 (fun _ => 0x2000) .empty .empty .empty rfl rfl rfl
  exact absurd hhelper (by decide +kernel)

end Assembly

end PortableImage
