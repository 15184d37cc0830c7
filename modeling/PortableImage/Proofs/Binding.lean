import PortableImage.Proofs.Expr.Value
import PortableImage.Proofs.Outcome
import PortableImage.Buffer

/-!
# What bindings hold

Binding never changes a value: a label keeps what it was bound to, and binding it again fails.  All
values that the layout binds are constants, so a binding gives every one of its labels a word.

* `Binding.Extends` — everything bound is still bound to the same value.
* `Binding.bindAll_eq_ok` — binding pairs puts them behind the others.
* `Binding.Constant`, `Binding.env` — bindings of constants, as assignments of words to labels.
* `Buffer.binding_eq_ok` — the labels of a buffer at an address.
-/

set_option autoImplicit false

namespace PortableImage

namespace Binding

/-- The second binding has every value of the first. -/
def Extends (b b' : Binding) : Prop := ∀ name e, b.get? name = some e → b'.get? name = some e

theorem Extends.refl (b : Binding) : b.Extends b := fun _ _ h => h

theorem Extends.trans {b c d : Binding} (hbc : b.Extends c) (hcd : c.Extends d) : b.Extends d :=
  fun name e h => hcd name e (hbc name e h)

/-- Every value is a constant. -/
def Constant (b : Binding) : Prop := ∀ name e, b.get? name = some e → ∃ v, e = .const v

theorem constant_empty : empty.Constant := fun _ _ h => nomatch h

/-- The words that a binding of constants gives to labels. -/
def env (b : Binding) (name : String) : LinkValue :=
  match b.get? name with
  | some (.const v) => v
  | _ => 0

theorem env_of_get? {b : Binding} {name : String} {v : LinkValue}
    (h : b.get? name = some (.const v)) : b.env name = v := by
  rw [env, h]

theorem Constant.agrees_env {b : Binding} (h : b.Constant) : b.Agrees b.env := by
  intro name e he
  obtain ⟨v, rfl⟩ := h name e he
  rw [env_of_get? he]
  rfl

/-! ## Binding one label -/

section Bind

variable {b b' : Binding} {name : String} {value : Expr} (h : b.bind name value = .ok b')

include h

theorem bind_eq_ok : b.get? name = none ∧ b'.entries = b.entries ++ [(name, value)] := by
  rw [bind] at h
  split at h
  · exact nomatch h
  · next hnone =>
    rw [Option.not_isSome_iff_eq_none] at hnone
    cases h
    exact ⟨hnone, rfl⟩

theorem get?_bind (l : String) : b'.get? l = if l = name then some value else b.get? l := by
  obtain ⟨hnone, hentries⟩ := bind_eq_ok h
  rw [get?, hentries, List.lookup_append]
  by_cases hl : l = name
  · rw [if_pos hl, hl]
    rw [get?] at hnone
    simp [hnone]
  · have hb : (l == name) = false := by simpa using hl
    simp [List.lookup_cons, hb, hl, get?]

theorem get?_bind_self : b'.get? name = some value := by
  rw [get?_bind h, if_pos rfl]

theorem extends_bind : b.Extends b' := by
  intro l e he
  have hne : l ≠ name := fun heq => by
    rw [heq, (bind_eq_ok h).1] at he
    exact nomatch he
  rw [get?_bind h, if_neg hne, he]

theorem Constant.bind (hb : b.Constant) (hv : ∃ v, value = .const v) : b'.Constant := by
  intro l e he
  rw [get?_bind h] at he
  split at he
  · cases he
    exact hv
  · exact hb l e he

end Bind

/-! ## Binding many labels -/

theorem bindAll_cons (b : Binding) (name : String) (value : Expr)
    (rest : List (String × Expr)) :
    b.bindAll ((name, value) :: rest) = (b.bind name value >>= fun c => c.bindAll rest) := by
  rw [bindAll, bindUntil]
  cases b.bind name value with
  | error e => rfl
  | ok c => rfl

/-- Binding pairs succeeds only if their labels are new and differ; the pairs are then bound behind
the others. -/
theorem bindAll_eq_ok {b b' : Binding} {pairs : List (String × Expr)}
    (h : b.bindAll pairs = .ok b') :
    b'.entries = b.entries ++ pairs ∧ (∀ p ∈ pairs, b.get? p.1 = none) ∧
      (pairs.map (·.1)).Nodup := by
  induction pairs generalizing b with
  | nil =>
    cases h
    simp
  | cons p rest ih =>
    obtain ⟨name, value⟩ := p
    rw [bindAll_cons, PortableImage.bind_eq_ok] at h
    obtain ⟨c, hc, hrest⟩ := h
    obtain ⟨hentries, hnew, hnodup⟩ := ih hrest
    have hget : ∀ q ∈ rest, q.1 ≠ name ∧ b.get? q.1 = none := fun q hq => by
      have := hnew q hq
      rw [get?_bind hc] at this
      split at this
      · exact nomatch this
      · next hne => exact ⟨hne, this⟩
    refine ⟨?_, ?_, ?_⟩
    · rw [hentries, (bind_eq_ok hc).2, List.append_assoc, List.singleton_append]
    · rintro q hq
      rcases List.mem_cons.1 hq with rfl | hq
      · exact (bind_eq_ok hc).1
      · exact (hget q hq).2
    · rw [List.map_cons, List.nodup_cons]
      refine ⟨fun hm => ?_, hnodup⟩
      obtain ⟨q, hq, heq⟩ := List.mem_map.1 hm
      exact (hget q hq).1 heq

/-- Pairs with new labels that differ can be bound. -/
theorem exists_bindAll {b : Binding} {pairs : List (String × Expr)}
    (hnew : ∀ p ∈ pairs, b.get? p.1 = none) (hnodup : (pairs.map (·.1)).Nodup) :
    ∃ b', b.bindAll pairs = .ok b' := by
  induction pairs generalizing b with
  | nil => exact ⟨b, rfl⟩
  | cons p rest ih =>
    obtain ⟨name, value⟩ := p
    rw [List.map_cons, List.nodup_cons] at hnodup
    obtain ⟨hname, hrest⟩ := List.forall_mem_cons.1 hnew
    obtain ⟨c, hc⟩ : ∃ c, b.bind name value = .ok c := ⟨_, if_neg (by rw [hname]; exact nofun)⟩
    obtain ⟨b', hb'⟩ := ih (b := c) (fun q hq => by
      have hne : q.1 ≠ name := fun heq => hnodup.1 (List.mem_map.2 ⟨q, hq, heq⟩)
      rw [get?_bind hc, if_neg hne]
      exact hrest q hq) hnodup.2
    exact ⟨b', by rw [bindAll_cons, hc]; exact hb'⟩

theorem isSome_lookup {pairs : List (String × Expr)} {l : String} :
    (pairs.lookup l).isSome ↔ l ∈ pairs.map (·.1) := by
  rw [List.lookup_isSome_iff, List.mem_map]
  simp only [beq_iff_eq]
  exact exists_congr fun p => and_congr_right fun _ => eq_comm

section BindAll

variable {b b' : Binding} {pairs : List (String × Expr)} (h : b.bindAll pairs = .ok b')

include h

theorem get?_bindAll (l : String) : b'.get? l = (b.get? l).or (pairs.lookup l) := by
  rw [get?, (bindAll_eq_ok h).1, List.lookup_append]
  rfl

theorem extends_bindAll : b.Extends b' := by
  intro l e he
  rw [get?_bindAll h, he]
  rfl

/-- Every pair is bound. -/
theorem get?_bindAll_of_mem {l : String} {e : Expr} (hm : (l, e) ∈ pairs) :
    b'.get? l = some e := by
  obtain ⟨-, hnew, hnodup⟩ := bindAll_eq_ok h
  rw [get?_bindAll h, hnew _ hm, Option.none_or]
  clear hnew h
  induction pairs with
  | nil => exact nomatch hm
  | cons p rest ih =>
    rw [List.map_cons, List.nodup_cons] at hnodup
    rcases List.mem_cons.1 hm with rfl | hm
    · rw [List.lookup_cons_self]
    · have hne : l ≠ p.1 := fun heq => hnodup.1 (heq ▸ List.mem_map_of_mem hm)
      have hb : (l == p.1) = false := by simpa using hne
      rw [List.lookup_cons, hb]
      exact ih hm hnodup.2

theorem Constant.bindAll (hb : b.Constant) (hp : ∀ p ∈ pairs, ∃ v, p.2 = .const v) :
    b'.Constant := by
  intro l e he
  rw [get?_bindAll h, Option.or_eq_some_iff] at he
  rcases he with he | ⟨-, he⟩
  · exact hb l e he
  · obtain ⟨p, hp', rfl⟩ : ∃ p ∈ pairs, p.2 = e := by
      obtain ⟨l₁, l₂, heq, -⟩ := List.lookup_eq_some_iff.1 he
      exact ⟨(l, e), by simp [heq], rfl⟩
    exact hp p hp'

end BindAll

end Binding

/-! ## The labels of a buffer -/

theorem Expr.reduce_ofSize_add (a b : Nat) :
    (Expr.ofSize a + Expr.ofSize b).reduce = .ofSize (a + b) := by
  have h : LinkValue.ofSize a + LinkValue.ofSize b = LinkValue.ofSize (a + b) :=
    (BitVec.ofNat_add a b).symm
  show Linear.toExpr ⟨[], LinkValue.ofSize a + LinkValue.ofSize b * 1⟩ = _
  rw [mul_one, h]
  rfl

namespace Buffer

variable {b : Buffer} {address : Nat} {binding : Binding}

/-- The labels of a buffer at a known address. -/
theorem addresses_ofSize (b : Buffer) (address : Nat) :
    b.addresses (.ofSize address) = b.exports.map fun e => (e.1, .ofSize (address + e.2)) := by
  rw [addresses]
  exact List.map_congr_left fun e _ => by rw [Expr.reduce_ofSize_add]

theorem binding_eq_ok {base : Expr} (h : b.binding base = .ok binding) :
    binding.entries = b.addresses base :=
  (Binding.bindAll_eq_ok h).1

end Buffer

end PortableImage
