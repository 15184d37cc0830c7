import PortableImage.AutoImport
import PortableImage.Directory.BaseReloc
import PortableImage.Proofs.Binding
import PortableImage.Proofs.Expr.Constant
import PortableImage.Proofs.Expr.Net

/-!
# Which fields are addresses in the image

Before the layout is known, base relocations are looked for as if the sections lay one behind the
other.  Every label of a section is then the start of the image and a constant.

* `Binding.Places` — every bound label is a place at a fixed distance from one label.
* `provisionalBinding_spec` — the labels of the sections, and no others, are bound to such places.
* `exists_provisionalBinding` — it can always be bound, where the labels differ.
* `isImageAddress_eq` — a sum is an address in the image exactly when its net count is one.
* `eq_zero_of_isImageAddress` — an address in the image moves with the image.
-/

set_option autoImplicit false

namespace PortableImage

/-- Every value is the label `s` and a constant. -/
def Binding.Places (b : Binding) (s : String) : Prop :=
  ∀ l e, b.get? l = some e → ∃ c, e = Expr.place s c

/-! ## The provisional layout -/

/-- The labels of a buffer at a place are places. -/
theorem Buffer.addresses_place (b : Buffer) (s : String) (c : LinkValue) :
    b.addresses (.place s c) = b.exports.map fun e => (e.1, .place s (c + LinkValue.ofSize e.2)) :=
  List.map_congr_left fun e _ => by rw [Expr.ofSize, Expr.reduce_place_add]

theorem Binding.Places.bindAll {b b' : Binding} {s : String} {pairs : List (String × Expr)}
    (h : b.bindAll pairs = .ok b') (hb : b.Places s)
    (hp : ∀ p ∈ pairs, ∃ c, p.2 = Expr.place s c) : b'.Places s := by
  intro l e he
  rw [get?_bindAll h, Option.or_eq_some_iff] at he
  rcases he with he | ⟨-, he⟩
  · exact hb l e he
  · obtain ⟨l₁, l₂, heq, -⟩ := List.lookup_eq_some_iff.1 he
    exact hp (l, e) (by simp [heq])

/-- **Provisionally, the labels of the sections are places, and no other label is bound.** -/
theorem provisionalBinding_spec {sections : List Section} {s : String} {c : LinkValue}
    {b b' : Binding} (h : provisionalBinding (.place s c) b sections = .ok b') (hb : b.Places s) :
    b'.Places s ∧ ∀ l, (b'.get? l).isSome ↔
      (b.get? l).isSome ∨ ∃ t ∈ sections, l ∈ t.content.exports.map (·.1) := by
  induction sections generalizing c b with
  | nil =>
    cases h
    exact ⟨hb, fun l => by simp⟩
  | cons t rest ih =>
    simp only [provisionalBinding, bind_eq_ok] at h
    obtain ⟨exported, hexported, b₁, hmerge, hrest⟩ := h
    have hentries := Buffer.binding_eq_ok hexported
    rw [Buffer.addresses_place] at hentries
    have hb₁ : b₁.Places s := hb.bindAll hmerge fun p hp => by
      rw [hentries] at hp
      obtain ⟨x, -, rfl⟩ := List.mem_map.1 hp
      exact ⟨_, rfl⟩
    rw [Expr.ofSize, Expr.reduce_place_add] at hrest
    obtain ⟨hplaces, hbound⟩ := ih hrest hb₁
    refine ⟨hplaces, fun l => ?_⟩
    have hfirst : (b₁.get? l).isSome ↔
        (b.get? l).isSome ∨ l ∈ t.content.exports.map (·.1) := by
      rw [Binding.get?_bindAll hmerge, Option.isSome_or, Bool.or_eq_true, hentries]
      rw [Binding.isSome_lookup, List.map_map]
      rfl
    rw [hbound, hfirst, or_assoc]
    simp

/-- **Sections with labels that differ have a provisional binding.** -/
theorem exists_provisionalBinding {sections : List Section} {address : Expr} {b : Binding}
    (hnew : ∀ l ∈ definedLabels sections, b.get? l = none)
    (hnodup : (definedLabels sections).Nodup) :
    ∃ b', provisionalBinding address b sections = .ok b' := by
  induction sections generalizing address b with
  | nil => exact ⟨b, rfl⟩
  | cons s rest ih =>
    rw [definedLabels, List.flatMap_cons, List.nodup_append'] at hnodup
    obtain ⟨hfirst, hrest, hdisjoint⟩ := hnodup
    have hlabels : (s.content.addresses address).map (·.1) = s.content.exports.map (·.1) := by
      rw [Buffer.addresses, List.map_map]
      rfl
    have hmem : ∀ p ∈ s.content.addresses address, p.1 ∈ s.content.exports.map (·.1) :=
      fun p hp => hlabels ▸ List.mem_map_of_mem hp
    obtain ⟨exported, hexported⟩ : ∃ exported, s.content.binding address = .ok exported :=
      Binding.exists_bindAll (fun _ _ => rfl) (hlabels ▸ hfirst)
    have hentries := Buffer.binding_eq_ok hexported
    obtain ⟨c, hc⟩ : ∃ c, b.bindAll exported.entries = .ok c := Binding.exists_bindAll
      (by rw [hentries]; exact fun p hp => hnew p.1 (List.mem_append_left _ (hmem p hp)))
      (by rw [hentries, hlabels]; exact hfirst)
    obtain ⟨b', hb'⟩ : ∃ b', provisionalBinding (address + .ofSize s.content.virtSize).reduce c rest =
        .ok b' := ih
      (fun l hl => by
        rw [Binding.get?_bindAll hc, hnew l (List.mem_append_right _ hl), Option.none_or, hentries,
          ← Option.not_isSome_iff_eq_none, Binding.isSome_lookup, hlabels]
        exact fun hin => hdisjoint hin hl) hrest
    refine ⟨b', bind_eq_ok.2 ⟨exported, hexported, ?_⟩⟩
    exact bind_eq_ok.2 ⟨c, hc, hb'⟩

/-! ## Addresses in the image -/

section Address

variable {start : String} {b : Binding} (hb : b.Places start)

include hb

/-- What a label becomes, if it is bound or the start of the image. -/
theorem Binding.Places.linear_getD {l : String} (hl : (b.get? l).isSome ∨ l = start) :
    ∃ c, ((b.get? l).getD (.label l)).linear = Linear.multiple start 1 c := by
  cases he : b.get? l with
  | some e =>
    obtain ⟨c, rfl⟩ := hb l e he
    exact ⟨c, Expr.linear_place start c⟩
  | none =>
    rw [he] at hl
    obtain hl | rfl := hl
    · exact nomatch hl
    · exact ⟨0, Expr.linear_label l⟩

/-- **A sum of bound labels is an address in the image exactly when its net count is one.**  The count
is a number of the linker. -/
theorem isImageAddress_eq {e : Expr} {n : Int} (hnet : e.net? = some n)
    (hlabels : ∀ l ∈ e.labels, (b.get? l).isSome ∨ l = start) :
    isImageAddress (.label start) b e = decide ((n : LinkValue) = 1) := by
  obtain ⟨c, hc⟩ := Expr.linear_of_places b.get? hnet fun l hl =>
    hb.linear_getD (hlabels l hl)
  obtain ⟨d, hd⟩ := hb.linear_getD (l := start) (.inr rfl)
  have htarget : e.constantUnder b = (Linear.multiple start n c).constant? := by
    rw [Expr.constantUnder_eq, Expr.bind, hc]
  have hdistance : (e - .label start).constantUnder b =
      (Linear.multiple start (n + 1 * -1) (c + d * -1)).constant? := by
    rw [Expr.constantUnder_eq, Expr.bind]
    show (e.subst b.get? - (Expr.label start).subst b.get?).linear.constant? = _
    rw [Expr.linear_sub, hc, Expr.subst, hd, Linear.combine_multiple _ _ _ _ _ (by decide)]
  rw [isImageAddress, htarget, hdistance, Linear.isNone_constant?_multiple,
    Linear.isSome_constant?_multiple, one_mul, ← sub_eq_add_neg, ← Bool.decide_and]
  refine decide_eq_decide.2 ⟨fun h => sub_eq_zero.1 h.2, fun h => ⟨?_, sub_eq_zero.2 h⟩⟩
  rw [h]
  decide

/-- A sum of bound labels with a net count of one is an address in the image. -/
theorem isImageAddress_of_net {e : Expr} (hnet : e.net? = some 1)
    (hlabels : ∀ l ∈ e.labels, (b.get? l).isSome ∨ l = start) :
    isImageAddress (.label start) b e = true := by
  rw [isImageAddress_eq hb hnet hlabels, Int.cast_one]
  exact decide_eq_true rfl

/-- The values of the labels, once those that are not bound have one. -/
def Binding.assign (b : Binding) (env : String → LinkValue) (l : String) : LinkValue :=
  ((b.get? l).getD (.label l)).eval env

omit hb in
/-- **An address in the image is the start of the image and a constant, wherever the image lies.** -/
theorem eval_of_isImageAddress {e : Expr} (h : isImageAddress (.label start) b e = true) :
    ∃ c, ∀ env, e.eval (b.assign env) - b.assign env start = c := by
  rw [isImageAddress, Bool.and_eq_true] at h
  obtain ⟨c, hc⟩ := Option.isSome_iff_exists.1 h.2
  refine ⟨c, fun env => ?_⟩
  have heval : ((e - .label start).bind b).reduce.eval env = c := by
    rw [Expr.constant?_eq_some.1 hc]
    rfl
  rw [Expr.eval_reduce, Expr.bind, Expr.eval_subst] at heval
  exact heval

/-- A label is an address in the image when it is bound or the start of the image. -/
theorem isImageAddress_label {l : String} :
    isImageAddress (.label start) b (.label l) = true ↔ (b.get? l).isSome ∨ l = start := by
  refine ⟨fun h => ?_, fun h => isImageAddress_of_net hb rfl fun x hx => ?_⟩
  · by_contra hne
    rw [not_or, Option.not_isSome_iff_eq_none] at hne
    obtain ⟨c, hc⟩ := eval_of_isImageAddress h
    -- the label can be given another value than the start
    have hzero := hc fun _ => 0
    have hone := hc fun x => if x = l then 1 else 0
    have hstart : b.assign (fun x => if x = l then 1 else 0) start =
        b.assign (fun _ => 0) start := by
      unfold Binding.assign
      cases he : b.get? start with
      | none => simp [Expr.eval, Ne.symm hne.2]
      | some e =>
        obtain ⟨d, rfl⟩ := hb start e he
        simp [Expr.eval_place, Ne.symm hne.2]
    rw [← hzero, hstart, sub_left_inj] at hone
    simp [Binding.assign, Expr.eval, hne.1] at hone
  · rw [List.mem_singleton.1 (Expr.mem_labels.1 hx)]
    exact h

/-- What does not change when the image moves is no address in it. -/
theorem eq_zero_of_isImageAddress {e : Expr} {d : LinkValue} {moved : String → Prop}
    (h : isImageAddress (.label start) b e = true) (hbound : ∀ l, (b.get? l).isSome → moved l)
    (hstart : moved start) (hfree : ∀ env env' : String → LinkValue,
      (∀ l, moved l → env' l = env l + d) → (∀ l, ¬ moved l → env' l = env l) →
        e.eval env' = e.eval env) : d = 0 := by
  classical
  obtain ⟨c, hc⟩ := eval_of_isImageAddress h
  have hmoved : ∀ l, moved l →
      b.assign (fun x => if moved x then d else 0) l = b.assign (fun _ => 0) l + d := by
    intro l hl
    unfold Binding.assign
    cases he : b.get? l with
    | none => simp [Expr.eval, hl]
    | some e =>
      obtain ⟨v, rfl⟩ := hb l e he
      simp [Expr.eval_place, hstart, add_comm]
  have hkept : ∀ l, ¬ moved l →
      b.assign (fun x => if moved x then d else 0) l = b.assign (fun _ => 0) l := by
    intro l hl
    have hnone : b.get? l = none := Option.not_isSome_iff_eq_none.1 fun hs => hl (hbound l hs)
    simp [Binding.assign, hnone, Expr.eval, hl]
  have hthere := hc fun x => if moved x then d else 0
  rw [hfree _ _ hmoved hkept, hmoved start hstart, ← hc fun _ => 0, ← sub_sub, sub_eq_self]
    at hthere
  exact hthere

end Address

end PortableImage
