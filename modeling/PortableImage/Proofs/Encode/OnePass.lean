import PortableImage.Proofs.Buffer.Fixup
import PortableImage.Proofs.Encode.Stages

/-!
# Writing the fields of the output in one pass

The last stage writes the fields of the output one after the other, each into all the bytes that the
one before it has left.  The fields are listed from the front to the back, so one pass over the bytes
gives the same.  The output of an image can be evaluated that way.

* `sweep` — the bytes with all fields written, in one pass.
* `Buffer.fixup_eq_fixupOnce` — a fixup that writes the fields in one pass.
* `encodeImage_eq_encodeOnce` — an encoding whose last stage does so.
* `exists_encodeImage` — what is evaluated in one pass holds of the encoding.
-/

set_option autoImplicit false

namespace PortableImage

/-- The data, which lie at `o`, with the fields written in one pass.  The fields are listed by their
offsets; what is in front of a field is left behind when it is written. -/
def sweep : Nat → List UInt8 → List (Nat × List UInt8) → List UInt8
  | _, data, [] => data
  | o, data, (k, bytes) :: rest =>
    padTo (k - o) (data.take (k - o)) ++ sweep k (bytes ++ data.drop (k - o + bytes.length)) rest

/-- Writing behind what is left behind. -/
theorem overwrite_padTo_append {front : List UInt8} (data bytes : List UInt8) {k : Nat}
    (h : front.length ≤ k) :
    overwrite (padTo (k + bytes.length) (front ++ data)) k bytes =
      front ++ padTo (k - front.length) (data.take (k - front.length)) ++
        (bytes ++ data.drop (k - front.length + bytes.length)) := by
  obtain ⟨d, rfl⟩ := Nat.le.dest h
  have hpad : padTo (front.length + d + bytes.length) (front ++ data) =
      front ++ padTo (d + bytes.length) data := by
    rw [padTo, padTo, List.length_append, List.append_assoc, Nat.add_assoc, Nat.add_sub_add_left]
  have htake : (padTo (d + bytes.length) data).take d = padTo d (data.take d) := by
    rw [padTo, padTo, List.take_append, List.take_replicate, List.length_take]
    congr 2
    omega
  have hdrop : (padTo (d + bytes.length) data).drop (d + bytes.length) =
      data.drop (d + bytes.length) := by
    rw [padTo, List.drop_append, List.drop_replicate,
      show d + bytes.length - data.length - (d + bytes.length - data.length) = 0 by omega,
      List.replicate_zero, List.append_nil]
  rw [overwrite, hpad, Nat.add_sub_cancel_left, List.take_length_add_append, htake, Nat.add_assoc,
    List.drop_length_add_append, hdrop, List.append_assoc, List.append_assoc]

namespace Buffer

/-- **Fields that are listed by their offsets are written in one pass.** -/
theorem data_writeFields {b : Buffer} {front data : List UInt8} {resolved : List (Nat × List UInt8)}
    (hdata : b.data = front ++ data) (hfront : ∀ e ∈ resolved, front.length ≤ e.1)
    (hascending : resolved.Pairwise fun e f => e.1 < f.1) :
    (b.writeFields resolved).data = front ++ sweep front.length data resolved := by
  induction resolved generalizing b front data with
  | nil => exact hdata
  | cons e rest ih =>
    obtain ⟨k, bytes⟩ := e
    obtain ⟨hlt, hrest⟩ := List.pairwise_cons.1 hascending
    have hle : front.length ≤ k := hfront _ List.mem_cons_self
    have hwritten := overwrite_padTo_append data bytes hle
    rw [← hdata, ← data_writeField] at hwritten
    -- what is in front of the next fields ends where this one starts
    have hlength : (front ++ padTo (k - front.length) (data.take (k - front.length))).length = k := by
      rw [List.length_append, length_padTo, List.length_take]
      omega
    rw [writeFields_cons, ih hwritten (fun f hf => ?_) hrest, hlength, sweep, List.append_assoc]
    rw [hlength]
    exact Nat.le_of_lt (hlt f hf)

theorem virtSize_writeFields (b : Buffer) (resolved : List (Nat × List UInt8)) :
    (b.writeFields resolved).virtSize =
      resolved.foldl (fun n e => max n (e.1 + e.2.length)) b.virtSize := by
  induction resolved generalizing b with
  | nil => rfl
  | cons e rest ih => rw [writeFields_cons, ih, virtSize_writeField, List.foldl_cons]

/-- A fixup that writes the fields in one pass. -/
def fixupOnce (b : Buffer) (binding : Binding) : Except EncodeError Buffer := do
  let resolved ← resolvedFields binding b.fields.entries
  let data := sweep 0 b.data resolved
  let size := resolved.foldl (fun n e => max n (e.1 + e.2.length)) b.virtSize
  return { b with
    data
    tail := size - data.length
    fields := b.fields.filter fun _ f => (f.target.constantUnder binding).isNone }

/-- **A fixup may write the fields in one pass.** -/
theorem fixup_eq_fixupOnce (b : Buffer) (binding : Binding) :
    b.fixup binding = b.fixupOnce binding := by
  cases hresolved : resolvedFields binding b.fields.entries with
  | error e => rw [fixup, fixupOnce, hresolved]; rfl
  | ok resolved =>
    have hfix : b.fixup binding = .ok (b.writeFields resolved) :=
      fixup_eq_ok.2 ⟨resolved, hresolved, rfl⟩
    have hascending : resolved.Pairwise fun e f => e.1 < f.1 :=
      List.pairwise_map.1 ((List.pairwise_map.2 b.fields.ascending).sublist
        (sublist_resolvedFields hresolved))
    have hdata := @data_writeFields b [] b.data resolved rfl (fun _ _ => Nat.zero_le _) hascending
    have hsize := b.virtSize_writeFields resolved
    rw [hfix, fixupOnce, hresolved]
    refine congrArg Except.ok (Buffer.ext hdata ?_ (fun k => ?_) (b.exports_writeFields resolved))
    · rw [virtSize, hdata] at hsize
      exact Nat.eq_sub_of_add_eq' hsize
    · rw [get?_fields_fixup hfix, OffsetMap.get?_filter]

end Buffer

/-- The last stage, with the fields of the output written in one pass. -/
def finishOnce (h : HeadedImage) (p : Placement) : Except EncodeError EncodedImage := do
  let output ← p.output.fill.fixupOnce p.binding
  let sections ← fixupSections p.binding h.image.sections
  let (output, checksum) ← writeChecksum h.context.encoder.order h.pending.checksum output
  if output.fields.isEmpty then return ⟨{ h.image with sections }, output, checksum⟩
  else .error (.unresolvedSymbol (unresolvedLabels h.pending.checksum output))

theorem finish_eq_finishOnce (h : HeadedImage) (p : Placement) : finish h p = finishOnce h p := by
  rw [finish, Buffer.fixup_eq_fixupOnce]
  rfl

/-- The last stage is what comes after placing. -/
theorem result_encodeImage (image : Image) (options : EncodeOptions) (clock : UInt32) :
    (encodeImage image options clock).result =
      placedImage image options clock >>= fun x => finish x.1 x.2 := by
  simp [encodeImage, placedImage, bind_assoc]

/-- What an encoding gives, with the fields of the output written in one pass. -/
def encodeOnce (image : Image) (options : EncodeOptions) (clock : UInt32) :
    Except EncodeError EncodedImage := do
  let (h, p) ← placedImage image options clock
  finishOnce h p

/-- **An encoding may write the fields of the output in one pass.** -/
theorem encodeImage_eq_encodeOnce (image : Image) (options : EncodeOptions) (clock : UInt32) :
    (encodeImage image options clock).result = encodeOnce image options clock := by
  simp only [result_encodeImage, finish_eq_finishOnce]
  rfl

/-- An encoding that succeeds, and what can be evaluated of it. -/
theorem exists_encodeImage {image : Image} {options : EncodeOptions} {clock : UInt32}
    {P : EncodedImage → Prop} [DecidablePred P]
    (h : ((encodeOnce image options clock).toOption.any fun e => P e) = true) :
    ∃ e, (encodeImage image options clock).result = .ok e ∧ P e := by
  rw [encodeImage_eq_encodeOnce]
  exact exists_eq_ok h

end PortableImage
