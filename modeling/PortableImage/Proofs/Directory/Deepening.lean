import PortableImage.Proofs.Directory.View

/-!
# Tables of a tree

The levels of a resource tree stand one behind the other in one table.  An entry that leads to a level
is written before the level, with a fresh label for its place; when the level is started, the label
gets its value, and the entry is settled at once.  So while the tables grow, some labels are awaited
that no table will ever have.

* `Tables.UsesLabel` — a table has the label.
* `Tables.Deepens` — the tables grow, and the awaited labels of a list are settled.
* `Tables.Awaits` — an entry leads to the place that an awaited label will get.
-/

set_option autoImplicit false

namespace PortableImage

open Buffer

/-! ## A binding of one label -/

namespace Binding

/-- One label has a value. -/
def only (l : String) (v : LinkValue) : Binding := ⟨[(l, .const v)]⟩

theorem get?_only (l : String) (v : LinkValue) : (only l v).get? l = some (.const v) := by
  rw [get?, only, List.lookup_cons, beq_self_eq_true]

theorem get?_only_of_ne {l name : String} {v : LinkValue} (h : name ≠ l) :
    (only l v).get? name = none := by
  rw [get?, only, List.lookup_cons, beq_false_of_ne h]
  rfl

theorem constant_only (l : String) (v : LinkValue) : (only l v).Constant := by
  intro name e he
  by_cases h : name = l
  · rw [h, get?_only] at he
    exact ⟨v, (Option.some.inj he).symm⟩
  · rw [get?_only_of_ne h] at he
    exact nomatch he

/-- A binding that does not know a label agrees with one that knows it alone. -/
theorem exists_agrees_only {b : Binding} (hb : b.Constant) {l : String} (hl : b.get? l = none)
    (v : LinkValue) : ∃ env, b.Agrees env ∧ (only l v).Agrees env := by
  refine ⟨fun name => if name = l then v else b.env name, fun name e he => ?_, fun name e he => ?_⟩
  · obtain ⟨w, rfl⟩ := hb name e he
    have hne : name ≠ l := fun heq => nomatch (heq ▸ hl).symm.trans he
    show w = if name = l then v else b.env name
    rw [if_neg hne, env_of_get? he]
  · by_cases h : name = l
    · rw [h, get?_only] at he
      cases he
      show v = if name = l then v else b.env name
      rw [if_pos h]
    · rw [get?_only_of_ne h] at he
      exact nomatch he

end Binding

/-- The bit that marks the place of a name or of another level. -/
def subdirectoryBit : LinkValue := 0x80000000

namespace Tables

/-- One of the tables has the label. -/
def UsesLabel (t : Tables) (l : String) : Prop := ∃ name o, (l, o) ∈ (t.table name).exports

/-- The label is in use, but no table has it. -/
structure Awaitable (t : Tables) (l : String) : Prop where
  known : l ∈ t.context.pool.known
  unused : ¬t.UsesLabel l

/-- The second tables have what the first have, as far as the binding of the first table knows none
of the labels that get their values in between: those of the list, and those that are new. -/
structure Deepens (settled : List (Option String)) (t t' : Tables) : Prop where
  known : ∀ l ∈ t.context.pool.known, l ∈ t'.context.pool.known
  labels : ∀ l, t'.UsesLabel l →
    t.UsesLabel l ∨ l ∉ t.context.pool.known ∧ l ∈ t'.context.pool.known
  grows : ∀ names : String → Binding, (names "table").Constant →
    (∀ l, t'.Awaitable l → some l ∈ settled ∨ l ∉ t.context.pool.known →
      (names "table").get? l = none) → Grows names t t'

variable {t u v : Tables} {S S' : List (Option String)}

/-- The tables only get longer. -/
theorem Deepens.size (h : Deepens S t u) (name : String) :
    (t.table name).virtSize ≤ (u.table name).virtSize :=
  (h.grows (fun _ => .empty) Binding.constant_empty fun _ _ _ => rfl).size name

/-- What can be awaited stays so. -/
theorem Awaitable.deepens {l : String} (h : t.Awaitable l) (hd : Deepens S t u) : u.Awaitable l where
  known := hd.known l h.known
  unused huses := (hd.labels l huses).elim h.unused fun hnew => hnew.1 h.known

theorem Deepens.trans (htu : Deepens S t u) (huv : Deepens S' u v) : Deepens (S ++ S') t v where
  known l hl := huv.known l (htu.known l hl)
  labels l hl := by
    rcases huv.labels l hl with hl | ⟨hnew, hknown⟩
    · exact (htu.labels l hl).imp_right fun hnew => ⟨hnew.1, huv.known l hnew.2⟩
    · exact .inr ⟨fun hold => hnew (htu.known l hold), hknown⟩
  grows names hconstant hnone := by
    refine (htu.grows names hconstant fun l hl hsettled => ?_).trans
      (huv.grows names hconstant fun l hl hsettled => ?_)
    · exact hnone l (hl.deepens huv) (hsettled.imp_left (List.mem_append_left _))
    · exact hnone l hl (hsettled.imp (List.mem_append_right _) fun hnew hold =>
        hnew (htu.known l hold))

/-- Labels that are new need not be listed. -/
theorem Deepens.weaken (h : Deepens S t u)
    (hS : ∀ l, some l ∈ S → some l ∈ S' ∨ l ∉ t.context.pool.known) : Deepens S' t u where
  known := h.known
  labels := h.labels
  grows names hconstant hnone := h.grows names hconstant fun l hl hsettled =>
    hnone l hl (hsettled.elim (hS l) .inr)

theorem Deepens.any (h : Deepens S t u) : Grows (fun _ => .empty) t u :=
  h.grows _ Binding.constant_empty fun _ _ _ => rfl

theorem Deepens.names_eq (h : Deepens S t u) : u.names = t.names := h.any.names

theorem Deepens.mem (h : Deepens S t u) {name : String} (hname : name ∈ t.names) : name ∈ u.names :=
  h.any.mem hname

theorem Deepens.spelled (h : Deepens S t u) (ht : t.Spelled) : u.Spelled := ht.grows h.any

theorem Deepens.context (h : Deepens S t u) : t.context.Keeps u.context := h.any.context

/-! ## Single steps -/

theorem Deepens.refl (t : Tables) : Deepens [] t t where
  known _ hl := hl
  labels _ hl := .inl hl
  grows _ _ _ := .refl _ _

/-- Changing a table without giving it a label. -/
theorem deepens_modify {name : String} {change : Buffer → Buffer}
    (hexports : (change (t.table name)).exports = (t.table name).exports)
    (hgrows : ∀ names, Grows names t (t.modify name change)) : Deepens [] t (t.modify name change) where
  known _ hl := hl
  labels l := by
    rintro ⟨other, o, hmem⟩
    refine .inl ⟨other, o, ?_⟩
    rw [table_modify] at hmem
    split at hmem
    · next heq =>
      rw [heq, ← hexports]
      exact hmem
    · exact hmem
  grows names _ _ := hgrows names

theorem deepens_append {name : String} (hname : name ∈ t.names) {b : Buffer} {r : Record}
    (hb : b.Spells t.context.encoder r) (hplain : b.Plain) : Deepens [] t (t.append name b) := by
  refine deepens_modify ?_ fun _ => grows_append hname hb
  rw [exports_append, hplain.exports, List.map_nil, List.append_nil]

theorem deepens_extend {name : String} (hname : name ∈ t.names) (data : List UInt8) :
    Deepens [] t (t.extend name data) :=
  deepens_modify rfl fun _ => grows_extend hname data

theorem deepens_align {name : String} (hname : name ∈ t.names) (boundary : Nat) :
    Deepens [] t (t.modify name (·.align boundary)) :=
  deepens_modify rfl fun _ => grows_align hname boundary

theorem deepens_fresh (t : Tables) (hint : String) :
    Deepens [] t { t with context := (t.context.fresh hint).2 } where
  known l hl := by
    show l ∈ (t.context.pool.fresh hint).2.known
    rw [LabelPool.known_fresh]
    exact List.mem_cons_of_mem _ hl
  labels l hl := .inl hl
  grows names _ _ := grows_context t (t.context.keeps_fresh hint)

theorem deepens_label {name : String} (hname : name ∈ t.names) : Deepens [] t (t.label name).2 where
  known l hl := by
    show l ∈ (t.context.pool.labelAt (t.table name) 0 name).2.1.known
    rw [LabelPool.labelAt]
    split
    · exact hl
    · show l ∈ (t.context.pool.fresh name).2.known
      rw [LabelPool.known_fresh]
      exact List.mem_cons_of_mem _ hl
  labels l := by
    rintro ⟨other, o, hmem⟩
    by_cases heq : other = name
    · rw [heq, table_label_self] at hmem
      change (l, o) ∈ (t.context.pool.labelAt (t.table name) 0 name).2.2.exports at hmem
      rw [LabelPool.labelAt] at hmem
      split at hmem
      · exact .inl ⟨name, o, hmem⟩
      · next hat =>
        rcases List.mem_append.1 hmem with hmem | hmem
        · exact .inl ⟨name, o, hmem⟩
        · obtain ⟨rfl, -⟩ := Prod.mk.inj (List.mem_singleton.1 hmem)
          refine .inr ⟨t.context.pool.fresh_notMem name, ?_⟩
          show _ ∈ (t.context.pool.labelAt (t.table name) 0 name).2.1.known
          rw [LabelPool.labelAt, hat]
          show _ ∈ (t.context.pool.fresh name).2.known
          rw [LabelPool.known_fresh]
          exact List.mem_cons_self
    · rw [table_label_of_ne t heq] at hmem
      exact .inl ⟨other, o, hmem⟩
  grows names _ _ := grows_label hname

theorem deepens_offsetEnd {name base : String} (hname : name ∈ t.names) (hbase : base ∈ t.names) :
    Deepens [] t (t.offsetEnd name base).2 :=
  (deepens_label hname).trans (deepens_label ((names_label hname).symm ▸ hbase))

/-! ## Awaited places -/

/-- The entry at the offset is the place that the label will get, with the flag. -/
def Awaits (t : Tables) (o : Nat) (l : String) : Prop :=
  ∀ w, t.HasUnder (.only l w) "table" o [(.u32, w ||| subdirectoryBit)]

/-- An entry stays awaited until its label gets its value. -/
theorem Awaits.deepens {o : Nat} {l : String} (h : t.Awaits o l) (hl : l ∈ t.context.pool.known)
    (hd : Deepens S t u) (hS : some l ∉ S) : u.Awaits o l := by
  intro w
  refine (h w).grows (hd.grows _ (Binding.constant_only l w) fun l' _ hsettled => ?_)
  refine Binding.get?_only_of_ne fun heq => ?_
  rw [heq] at hsettled
  exact hsettled.elim hS fun hnew => hnew hl

/-- **A level that starts gets its place, and the entry that awaits it has its value from then on.** -/
theorem deepens_startLevel {l : String} (h : startLevel l t = .ok u) (ht : t.Spelled)
    (hname : "table" ∈ t.names) (hl : t.Awaitable l) :
    Deepens [some l] t u ∧ (∀ name, (u.table name).virtSize = (t.table name).virtSize) ∧
      ∀ o, t.Awaits o l → ∀ names, u.Has names "table" o
        [(.u32, .ofSize (t.table "table").virtSize ||| subdirectoryBit)] := by
  simp only [startLevel, bind_eq_ok, pure_eq_ok] at h
  obtain ⟨here, hhere, table, hfix, rfl⟩ := h
  cases hhere
  change (t.table "table").fixup (.only l (.ofSize (t.table "table").virtSize)) = .ok table at hfix
  have hexports : table.exports = (t.table "table").exports := exports_fixup hfix
  have hspelled : ∀ {f : FieldEncoder}, (t.table "table").Spelled f → table.Spelled f :=
    fun ⟨_, hr⟩ => ⟨_, hr.settle hfix⟩
  have hsize : table.virtSize = (t.table "table").virtSize := by
    obtain ⟨r, hr⟩ := ht "table"
    rw [(hr.settle hfix).virtSize_eq, Record.size_settle, hr.virtSize_eq]
  have hlabels : ∀ l', (t.modify "table" fun _ => table).UsesLabel l' → t.UsesLabel l' := by
    rintro l' ⟨name, o, hmem⟩
    refine ⟨name, o, ?_⟩
    by_cases heq : name = "table"
    · rw [heq, table_modify_self, hexports] at hmem
      exact heq ▸ hmem
    · rw [table_modify_of_ne t heq] at hmem
      exact hmem
  refine ⟨⟨fun _ h => h, fun l' h => .inl (hlabels l' h), fun names hconstant hnone => ?_⟩,
    fun name => ?_, fun o hawaits names => ?_⟩
  · have hunbound : (names "table").get? l = none :=
      hnone l ⟨hl.known, fun h => hl.unused (hlabels l h)⟩ (.inl (List.mem_singleton.2 rfl))
    exact grows_modify hname hsize.ge (fun e he => hexports ▸ he) hspelled fun o vs hhas =>
      hhas.settle hfix (Binding.exists_agrees_only hconstant hunbound _)
  · by_cases heq : name = "table"
    · rw [heq, table_modify_self, hsize]
    · rw [table_modify_of_ne t heq]
  · rw [Has, table_modify_self]
    exact HasFields.settled (hawaits _) hfix _

end Tables

end PortableImage
