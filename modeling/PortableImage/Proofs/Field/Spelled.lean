import PortableImage.Proofs.Buffer.Fixup
import PortableImage.Proofs.Expr.Constant
import PortableImage.Proofs.Field.Record

/-!
# Buffers that a record spells

What is written into a buffer piece by piece is, in the end, one record: its fields one behind the
other, text being a row of single bytes.  Once every label has its place, the record is a row of
numbers, and the bytes are those of the numbers.

* `FieldValues` — types and values of fields that follow each other; `FieldValues.bytes`.
* `Buffer.Spells` — the bytes and pending fields of a buffer are those of a record.
* `Record.Becomes` — a binding gives every field of the record its value.
* `HasAt` — bytes at a place of the data.
* `Buffer.Spells.settle`, `Buffer.Spells.hasAt` — the fixup of a buffer, and its bytes.
-/

set_option autoImplicit false

namespace PortableImage

/-! ## Values of fields that follow each other -/

/-- The bytes of a value that fits the field. -/
def FieldType.bytes (t : FieldType) (order : ByteOrder) (v : LinkValue) : List UInt8 :=
  order.arrange (littleEndian t.width v.toNat)

theorem FieldType.length_bytes (t : FieldType) (order : ByteOrder) (v : LinkValue) :
    (t.bytes order v).length = t.width := by
  rw [bytes, ByteOrder.length_arrange, length_littleEndian]

/-- A number that is small enough fits an unsigned field. -/
theorem FieldType.fits_ofSize {t : FieldType} (ht : t.signed = false) {n : Nat}
    (hn : n < 2 ^ t.bits) : t.Fits (.ofSize n) := by
  have hbits : 2 ^ t.bits ≤ 2 ^ 64 := Nat.pow_le_pow_right (by decide) t.bits_le
  have htoInt : (LinkValue.ofSize n).toInt = n := by
    have htoNat : (LinkValue.ofSize n).toNat = n := LinkValue.toNat_ofSize (by omega)
    rw [BitVec.toInt_eq_toNat_of_lt (by omega), htoNat]
  rw [Fits, htoInt, min, max, if_neg (by simp [ht]), if_neg (by simp [ht]), span_eq]
  omega

/-- The types and values of fields that follow each other. -/
abbrev FieldValues := List (FieldType × LinkValue)

namespace FieldValues

/-- The bytes of the fields. -/
def bytes (order : ByteOrder) (vs : FieldValues) : List UInt8 := vs.flatMap fun v => v.1.bytes order v.2

/-- The bytes that the fields take. -/
def size (vs : FieldValues) : Nat := (vs.map (·.1.width)).sum

/-- Every value fits its field. -/
def Fit (vs : FieldValues) : Prop := ∀ v ∈ vs, v.1.Fits v.2

/-- Bytes, each a field of its own. -/
def ofBytes (data : List UInt8) : FieldValues := data.map fun x => (.u8, .ofSize x.toNat)

/-- The fields as a record of constants. -/
def record (vs : FieldValues) : Record := vs.map fun v => (v.1, .const v.2)

theorem bytes_cons (order : ByteOrder) (v : FieldType × LinkValue) (vs : FieldValues) :
    bytes order (v :: vs) = v.1.bytes order v.2 ++ vs.bytes order :=
  List.flatMap_cons

theorem length_bytes (order : ByteOrder) (vs : FieldValues) : (vs.bytes order).length = vs.size := by
  rw [bytes, List.length_flatMap, size]
  exact congrArg _ (List.map_congr_left fun v _ => v.1.length_bytes order v.2)

theorem size_append (vs ws : FieldValues) : size (vs ++ ws) = vs.size + ws.size := by
  rw [size, List.map_append, List.sum_append, size, size]

theorem size_cons (v : FieldType × LinkValue) (vs : FieldValues) :
    size (v :: vs) = v.1.width + vs.size := by
  rw [size, List.map_cons, List.sum_cons, size]

theorem size_record (vs : FieldValues) : vs.record.size = vs.size := by
  rw [Record.size, record, List.map_map, size]
  rfl

theorem size_map (t : FieldType) (vs : List LinkValue) :
    size (vs.map fun v => (t, v)) = t.width * vs.length := by
  rw [size, List.map_map]
  show (vs.map fun _ => t.width).sum = _
  rw [List.map_const', List.sum_replicate_nat, Nat.mul_comm]

theorem ofBytes_append (x y : List UInt8) : ofBytes (x ++ y) = ofBytes x ++ ofBytes y :=
  List.map_append

theorem size_ofBytes (data : List UInt8) : (ofBytes data).size = data.length := by
  rw [size, ofBytes, List.map_map]
  show (data.map fun _ => 1).sum = _
  rw [List.map_const', List.sum_replicate_nat, mul_one]

theorem bytes_ofBytes (order : ByteOrder) (data : List UInt8) :
    (ofBytes data).bytes order = data := by
  have hbyte : ∀ x : UInt8, FieldType.u8.bytes order (.ofSize x.toNat) = [x] := fun x => by
    have hlt : x.toNat < 2 ^ 128 := Nat.lt_trans x.toNat_lt (by decide)
    have hbytes : littleEndian FieldType.u8.width (LinkValue.ofSize x.toNat).toNat = [x] := by
      rw [LinkValue.toNat_ofSize hlt]
      show [UInt8.ofNat x.toNat] = [x]
      rw [UInt8.ofNat_toNat]
    rw [FieldType.bytes, hbytes]
    cases order <;> rfl
  induction data with
  | nil => rfl
  | cons x data ih =>
    show bytes order ((.u8, .ofSize x.toNat) :: ofBytes data) = _
    rw [bytes_cons, ih, hbyte]
    rfl

end FieldValues

theorem Buffer.ofBytes_append (x y : List UInt8) :
    Buffer.ofBytes x ++ Buffer.ofBytes y = Buffer.ofBytes (x ++ y) := by
  rw [← extend_eq_append]
  show Buffer.mk ((x ++ []) ++ y) 0 .empty [] = _
  rw [List.append_nil]
  rfl

/-! ## Bytes at a place -/

/-- The data have the bytes at the offset. -/
def HasAt (data : List UInt8) (o : Nat) (bytes : List UInt8) : Prop := bytes <+: data.drop o

namespace HasAt

variable {data x y : List UInt8} {o : Nat}

theorem self (data : List UInt8) : HasAt data 0 data := List.prefix_rfl

theorem append : HasAt data o (x ++ y) ↔ HasAt data o x ∧ HasAt data (o + x.length) y := by
  constructor
  · rintro ⟨z, hz⟩
    refine ⟨⟨y ++ z, by rw [← List.append_assoc]; exact hz⟩, ⟨z, ?_⟩⟩
    rw [← List.drop_drop, ← hz, List.append_assoc, List.drop_left]
  · rintro ⟨⟨z, hz⟩, w, hw⟩
    rw [← List.drop_drop, ← hz, List.drop_left] at hw
    exact ⟨w, by rw [List.append_assoc, hw]; exact hz⟩

theorem bytesAt_eq (h : HasAt data o x) : bytesAt data o x.length = x := by
  obtain ⟨z, hz⟩ := h
  rw [bytesAt, ← hz, List.take_left]

theorem inside (h : HasAt data o x) (hx : x ≠ []) : o + x.length ≤ data.length := by
  have hle := h.length_le
  have hpos := List.length_pos_iff.2 hx
  rw [List.length_drop] at hle
  omega

/-- An unsigned field is read as its value. -/
theorem number {t : FieldType} {order : ByteOrder} {v : LinkValue} (ht : t.signed = false)
    (hfits : t.Fits v) (h : HasAt data o (t.bytes order v)) :
    order.toNat (bytesAt data o t.width) = v.toNat := by
  have hread := h.bytesAt_eq
  rw [t.length_bytes] at hread
  rw [hread]
  exact FieldType.toNat_encodeValue ht (FieldType.encodeValue_eq_ok.2 ⟨hfits, rfl⟩)

end HasAt

/-! ## Records after a fixup -/

/-- An expression as the constant that the binding makes of it, if it makes one. -/
def Expr.settle (binding : Binding) (e : Expr) : Expr :=
  ((e.constantUnder binding).map .const).getD e

/-- A record with the constants that the binding makes of its values. -/
def Record.settle (binding : Binding) (r : Record) : Record :=
  r.map fun x => (x.1, x.2.settle binding)

/-- The binding gives every field of the record its value. -/
def Record.Becomes (binding : Binding) (r : Record) (vs : FieldValues) : Prop :=
  List.Forall₂ (fun x v => x.1 = v.1 ∧ x.2.constantUnder binding = some v.2) r vs

namespace Record

variable {binding : Binding} {r s : Record} {vs ws : FieldValues}

theorem Becomes.append (hr : r.Becomes binding vs) (hs : s.Becomes binding ws) :
    Becomes binding (r ++ s) (vs ++ ws) :=
  List.rel_append hr hs

theorem becomes_cons {t : FieldType} {e : Expr} {v : LinkValue} :
    Becomes binding ((t, e) :: r) ((t, v) :: vs) ↔
      e.constantUnder binding = some v ∧ r.Becomes binding vs := by
  rw [Becomes, List.forall₂_cons]
  exact and_congr_left fun _ => and_iff_right rfl

/-- Constants stay what they are. -/
theorem becomes_record (vs : FieldValues) : vs.record.Becomes binding vs := by
  induction vs with
  | nil => exact .nil
  | cons v vs ih => exact .cons ⟨rfl, Expr.constantUnder_const v.2 binding⟩ ih

theorem Becomes.settle_eq (h : r.Becomes binding vs) : r.settle binding = vs.record := by
  induction h with
  | nil => rfl
  | cons hx _ ih =>
    obtain ⟨htype, hvalue⟩ := hx
    show (_, Expr.settle binding _) :: settle binding _ = (_, _) :: FieldValues.record _
    rw [ih, htype, Expr.settle, hvalue]
    rfl

theorem Becomes.size_eq (h : r.Becomes binding vs) : r.size = vs.size := by
  induction h with
  | nil => rfl
  | cons hx _ ih => rw [size_cons, FieldValues.size_cons, ih, hx.1]

end Record

theorem Record.size_settle (binding : Binding) (r : Record) : (r.settle binding).size = r.size := by
  rw [size, settle, List.map_map, size]
  rfl

namespace FieldEncoder

open Buffer

variable {f : FieldEncoder} {b b' : Buffer} {binding : Binding}

/-- The bytes of a value take the place of the zeros that were kept for them. -/
theorem writeField_placeholder (target : Expr) {t : FieldType} (order : ByteOrder)
    {bytes : List UInt8} (hlen : bytes.length = t.width) :
    (placeholder target t order).writeField 0 bytes = Buffer.ofBytes bytes := by
  refine Buffer.ext ?_ ?_ (fun k => ?_) rfl
  · show overwrite (padTo (0 + bytes.length) (List.replicate t.width 0)) 0 bytes = bytes
    rw [Nat.zero_add, hlen, padTo, List.length_replicate, Nat.sub_self, List.replicate_zero,
      List.append_nil, overwrite, List.take_zero, List.nil_append, Nat.zero_add, hlen,
      List.drop_of_length_le (by rw [List.length_replicate]), List.append_nil]
  · show max ((List.replicate t.width 0).length + 0) (0 + bytes.length) -
      (padTo (0 + bytes.length) (List.replicate t.width 0)).length = 0
    rw [length_padTo, List.length_replicate]
    omega
  · rw [get?_fields_writeField, placeholder, OffsetMap.get?_singleton]
    split <;> rfl

/-- A pending field that gets a value becomes the bytes of the value. -/
theorem fixup_placeholder {target : Expr} {t : FieldType} {order : ByteOrder} {v : LinkValue}
    (h : target.constantUnder binding = some v) :
    (placeholder target t order).fixup binding = Buffer.ofBytes <$> t.encodeValue v order := by
  have hresolved : resolvedFields binding [(0, ⟨target, t, order⟩)] =
      (do return [(0, ← t.encodeValue v order)]) := by
    rw [resolvedFields, h]
    rfl
  rw [fixup, show (placeholder target t order).fields.entries = [(0, ⟨target, t, order⟩)] from rfl,
    hresolved]
  cases hb : t.encodeValue v order with
  | error e => rfl
  | ok bytes =>
    exact congrArg Except.ok
      (writeField_placeholder target order (FieldType.length_encodeValue hb))

/-- A pending field that gets no value stays as it is. -/
theorem fixup_placeholder_of_none {target : Expr} {t : FieldType} {order : ByteOrder}
    (h : target.constantUnder binding = none) :
    (placeholder target t order).fixup binding = .ok (placeholder target t order) := by
  rw [fixup, show (placeholder target t order).fields.entries = [(0, ⟨target, t, order⟩)] from rfl,
    resolvedFields, h]
  rfl

/-- A field of a constant is its bytes. -/
theorem encode_const (f : FieldEncoder) (t : FieldType) (v : LinkValue) :
    f.encode t (.const v) = Buffer.ofBytes <$> t.encodeValue v f.order := by
  rw [encode]
  show (do return Buffer.ofBytes (← t.encodeValue v f.order)) = _
  cases t.encodeValue v f.order <;> rfl

/-- A field that is fixed up is the field of the settled value. -/
theorem encode_fixup {t : FieldType} {e : Expr} (h : f.encode t e = .ok b)
    (hfix : b.fixup binding = .ok b') : f.encode t (e.settle binding) = .ok b' := by
  obtain ⟨v, bytes, hv, hb, rfl⟩ | ⟨hnone, rfl⟩ := encode_eq_ok h
  · obtain rfl : Buffer.ofBytes bytes = b' := by
      obtain ⟨resolved, hres, rfl⟩ := fixup_eq_ok.1 hfix
      cases hres
      rfl
    have hsettle : e.settle binding = .const v := by
      rw [Expr.settle, ← Expr.constantUnder_reduce, hv]
      rfl
    rw [hsettle, encode_const, hb]
    rfl
  · cases hunder : e.constantUnder binding with
    | none =>
      rw [fixup_placeholder_of_none (by rw [Expr.constantUnder_reduce, hunder])] at hfix
      rw [Expr.settle, hunder, ← hfix]
      exact h
    | some w =>
      rw [fixup_placeholder (by rw [Expr.constantUnder_reduce, hunder])] at hfix
      rw [Expr.settle, hunder]
      exact (encode_const f t w).trans hfix

/-- **A record that is fixed up is the settled record.** -/
theorem record_fixup {r : Record} (h : f.record r = .ok b) (hfix : b.fixup binding = .ok b') :
    f.record (r.settle binding) = .ok b' := by
  induction r generalizing b b' with
  | nil =>
    cases h
    obtain ⟨resolved, hres, rfl⟩ := fixup_eq_ok.1 hfix
    cases hres
    rfl
  | cons x r ih =>
    obtain ⟨first, others, h1, h2, rfl⟩ := record_cons.1 h
    obtain ⟨first', others', hf1, hf2, rfl⟩ :=
      (fixup_append (fieldsInside_encode h1) (tail_encode h1)).1 hfix
    exact record_cons.2 ⟨first', others', encode_fixup h1 hf1, ih h2 hf2, rfl⟩

/-- A record of constants is their bytes. -/
theorem record_constants {vs : FieldValues} (h : f.record vs.record = .ok b) :
    vs.Fit ∧ b = ofBytes (vs.bytes f.order) := by
  induction vs generalizing b with
  | nil =>
    cases h
    exact ⟨fun _ hv => (nomatch hv), rfl⟩
  | cons v vs ih =>
    obtain ⟨first, others, h1, h2, rfl⟩ := record_cons.1 h
    obtain ⟨hfit, rfl⟩ := ih h2
    obtain ⟨w, bytes, hw, hb, rfl⟩ | ⟨hnone, -⟩ := encode_eq_ok h1
    · cases hw
      obtain ⟨hfits, rfl⟩ := FieldType.encodeValue_eq_ok.1 hb
      refine ⟨List.forall_mem_cons.2 ⟨hfits, hfit⟩, ?_⟩
      rw [FieldValues.bytes_cons, ← ofBytes_append]
      rfl
    · exact nomatch hnone

end FieldEncoder

/-! ## Buffers spelled by records -/

namespace Buffer

/-- The bytes and the pending fields of the buffer are those of the record. -/
def Spells (f : FieldEncoder) (b : Buffer) (r : Record) : Prop :=
  ∃ b₀, f.record r = .ok b₀ ∧ b.Alike b₀

end Buffer

/-- A record in two parts is one buffer behind the other. -/
theorem FieldEncoder.record_append {f : FieldEncoder} {r s : Record} {b : Buffer} :
    f.record (r ++ s) = .ok b ↔
      ∃ x y, f.record r = .ok x ∧ f.record s = .ok y ∧ b = x ++ y := by
  induction r generalizing b with
  | nil =>
    constructor
    · intro h
      exact ⟨.empty, b, rfl, h, (Buffer.empty_append b).symm⟩
    · rintro ⟨_, y, ⟨⟩, hs, rfl⟩
      rw [Buffer.empty_append]
      exact hs
  | cons e r ih =>
    obtain ⟨t, value⟩ := e
    rw [List.cons_append, record_cons]
    constructor
    · rintro ⟨first, others, h1, h2, rfl⟩
      obtain ⟨x, y, hx, hy, rfl⟩ := ih.1 h2
      exact ⟨first ++ x, y, record_cons.2 ⟨first, x, h1, hx, rfl⟩, hy, (Buffer.append_assoc _ _ _).symm⟩
    · rintro ⟨x, y, hx, hy, rfl⟩
      obtain ⟨first, others, h1, h2, rfl⟩ := record_cons.1 hx
      exact ⟨first, others ++ y, h1, ih.2 ⟨others, y, h2, hy, rfl⟩, Buffer.append_assoc _ _ _⟩

namespace Buffer

variable {f : FieldEncoder} {b c b' : Buffer} {r s : Record}

theorem spells_empty (f : FieldEncoder) : empty.Spells f [] := ⟨_, rfl, .refl _⟩

theorem spells_record (h : f.record r = .ok b) : b.Spells f r := ⟨b, h, .refl b⟩

theorem spells_encode {t : FieldType} {e : Expr} (h : f.encode t e = .ok b) :
    b.Spells f [(t, e)] := by
  have hrecord : f.record [(t, e)] = .ok (b ++ empty) :=
    FieldEncoder.record_cons.2 ⟨b, empty, h, rfl, rfl⟩
  refine ⟨_, hrecord, ?_, ?_⟩
  · rw [contents_append]
    exact (List.append_nil _).symm
  · exact OffsetMap.ext_get? fun k => by
      rw [get?_fields_append]
      split <;> rfl

/-- What differs only in labels and in zeros that are not written out is spelled alike. -/
theorem Spells.congr (h : b.Spells f r) (hb : b'.Alike b) : b'.Spells f r := by
  obtain ⟨b₀, hr, halike⟩ := h
  exact ⟨b₀, hr, hb.trans halike⟩

theorem Spells.append (hb : b.Spells f r) (hc : c.Spells f s) : (b ++ c).Spells f (r ++ s) := by
  obtain ⟨b₀, hr, hb⟩ := hb
  obtain ⟨c₀, hs, hc⟩ := hc
  exact ⟨b₀ ++ c₀, FieldEncoder.record_append.2 ⟨b₀, c₀, hr, hs, rfl⟩, hb.append hc⟩

theorem Spells.virtSize_eq (h : b.Spells f r) : b.virtSize = r.size := by
  obtain ⟨b₀, hr, halike⟩ := h
  rw [halike.virtSize_eq, FieldEncoder.virtSize_record hr]

/-- Known bytes are spelled byte by byte. -/
theorem spells_ofBytes (f : FieldEncoder) (data : List UInt8) :
    (ofBytes data).Spells f (FieldValues.ofBytes data).record := by
  refine spells_record ?_
  have hfits : ∀ x : UInt8, FieldType.u8.Fits (.ofSize x.toNat) := fun x =>
    FieldType.fits_ofSize rfl x.toNat_lt
  induction data with
  | nil => rfl
  | cons x data ih =>
    refine FieldEncoder.record_cons.2 ⟨ofBytes (FieldType.u8.bytes f.order (.ofSize x.toNat)),
      ofBytes data, ?_, ih, ?_⟩
    · show (do return ofBytes (← FieldType.u8.encodeValue (.ofSize x.toNat) f.order)) = _
      rw [FieldType.encodeValue_eq_ok.2 ⟨hfits x, rfl⟩]
      rfl
    · have hbyte := FieldValues.bytes_ofBytes f.order [x]
      change FieldType.u8.bytes f.order (.ofSize x.toNat) ++ [] = [x] at hbyte
      rw [List.append_nil] at hbyte
      rw [hbyte, ofBytes_append]
      rfl

theorem Spells.extend (h : b.Spells f r) (data : List UInt8) :
    (b.extend data).Spells f (r ++ (FieldValues.ofBytes data).record) := by
  rw [extend_eq_append]
  exact h.append (spells_ofBytes f data)

/-- Zeros behind a buffer are spelled, whether they are written out or not. -/
theorem Spells.align (h : b.Spells f r) (boundary : Nat) :
    (b.align boundary).Spells f
      (r ++ (FieldValues.ofBytes
        (List.replicate (alignSize b.virtSize boundary - b.virtSize) 0)).record) := by
  refine (h.extend _).congr ⟨?_, ?_⟩
  · rw [contents_extend, contents_align, padTo, length_contents]
  · rw [fields_align, extend_eq_append]
    refine OffsetMap.ext_get? fun k => ?_
    rw [get?_fields_append]
    split <;> rfl

/-- A fixup settles the record that spells a buffer. -/
theorem Spells.settle {binding : Binding} (h : b.Spells f r) (hfix : b.fixup binding = .ok b') :
    b'.Spells f (r.settle binding) := by
  obtain ⟨b₀, hr, halike⟩ := h
  obtain ⟨b₀', hfix₀, halike'⟩ := halike.fixup hfix
  exact ⟨b₀', FieldEncoder.record_fixup hr hfix₀, halike'⟩

/-- What a record of constants spells is their bytes. -/
theorem Spells.contents_eq {vs : FieldValues} (h : b.Spells f vs.record) :
    b.contents = vs.bytes f.order := by
  obtain ⟨b₀, hrecord, halike⟩ := h
  rw [halike.contents, (FieldEncoder.record_constants hrecord).2]
  exact contents_eq_data rfl

/-- Constants in a record are bytes of the buffer. -/
theorem Spells.hasAt {vs : FieldValues} (h : b.Spells f (r ++ vs.record ++ s)) :
    vs.Fit ∧ HasAt b.contents r.size (vs.bytes f.order) := by
  obtain ⟨b₀, hrecord, halike⟩ := h
  obtain ⟨xy, z, hxy, -, rfl⟩ := FieldEncoder.record_append.1 hrecord
  obtain ⟨x, y, hx, hy, rfl⟩ := FieldEncoder.record_append.1 hxy
  obtain ⟨hfit, rfl⟩ := FieldEncoder.record_constants hy
  refine ⟨hfit, ?_⟩
  rw [halike.contents, contents_append, contents_append, ← FieldEncoder.virtSize_record hx,
    ← length_contents, HasAt, List.append_assoc, List.drop_left,
    contents_eq_data (b := ofBytes _) rfl]
  exact List.prefix_append _ _

end Buffer

end PortableImage
