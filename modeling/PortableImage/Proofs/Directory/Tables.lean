import PortableImage.Directory.Tables
import PortableImage.Proofs.Directory.Context
import PortableImage.Proofs.Field.Spelled

/-!
# What tables have

While the tables of a directory grow, what is in one of them stays at its offset: a field whose
value a binding knows, the text that an address leads to, the label of the start of a table.  So a
directory is described by facts, each of which is noted where it is written and read at the end.

* `Buffer.HasFields` — a buffer has fields with given values, pending or not, at an offset.
* `Tables.Grows` — the second tables have what the first have; it is transitive.
* `Tables.Located` — the labels of the tables stand for places behind the starts of the tables.
* `Tables.hasAt_concat` — what a table has is read out of the bytes of the directory.
-/

set_option autoImplicit false

namespace PortableImage

open Buffer

/-! ## What a buffer has -/

namespace Buffer

/-- Some record spells the buffer. -/
def Spelled (f : FieldEncoder) (b : Buffer) : Prop := ∃ r, b.Spells f r

/-- The buffer has fields at the offset that the binding gives the values. -/
def HasFields (f : FieldEncoder) (binding : Binding) (b : Buffer) (o : Nat) (vs : FieldValues) :
    Prop :=
  ∃ before r behind, b.Spells f (before ++ r ++ behind) ∧ before.size = o ∧ r.Becomes binding vs

variable {f : FieldEncoder} {binding : Binding} {b c b' : Buffer} {r : Record} {o : Nat}
  {vs ws : FieldValues}

theorem Spelled.append (hb : b.Spelled f) (hc : c.Spelled f) : (b ++ c).Spelled f := by
  obtain ⟨r, hr⟩ := hb
  obtain ⟨s, hs⟩ := hc
  exact ⟨_, hr.append hs⟩

theorem Spelled.congr (h : b.Spelled f) (hb : b'.Alike b) : b'.Spelled f := by
  obtain ⟨r, hr⟩ := h
  exact ⟨r, hr.congr hb⟩

namespace HasFields

theorem of_spells (h : b.Spells f r) (hr : r.Becomes binding vs) : HasFields f binding b 0 vs :=
  ⟨[], r, [], by rwa [List.nil_append, List.append_nil], rfl, hr⟩

theorem congr (h : HasFields f binding b o vs) (hb : b'.Alike b) : HasFields f binding b' o vs := by
  obtain ⟨before, r, behind, hspells, hsize, hr⟩ := h
  exact ⟨before, r, behind, hspells.congr hb, hsize, hr⟩

theorem append_left (h : HasFields f binding b o vs) (hc : c.Spelled f) :
    HasFields f binding (b ++ c) o vs := by
  obtain ⟨before, r, behind, hspells, hsize, hr⟩ := h
  obtain ⟨s, hs⟩ := hc
  exact ⟨before, r, behind ++ s, by rw [← List.append_assoc]; exact hspells.append hs, hsize, hr⟩

theorem append_right (hb : b.Spelled f) (h : HasFields f binding c o vs) :
    HasFields f binding (b ++ c) (b.virtSize + o) vs := by
  obtain ⟨before, r, behind, hspells, hsize, hr⟩ := h
  obtain ⟨s, hs⟩ := hb
  refine ⟨s ++ before, r, behind, ?_, ?_, hr⟩
  · have happend := hs.append hspells
    rwa [← List.append_assoc, ← List.append_assoc] at happend
  · rw [Record.size_append, hsize, hs.virtSize_eq]

theorem align (h : HasFields f binding b o vs) (boundary : Nat) :
    HasFields f binding (b.align boundary) o vs := by
  obtain ⟨before, r, behind, hspells, hsize, hr⟩ := h
  have halign := hspells.align boundary
  rw [List.append_assoc _ behind] at halign
  exact ⟨before, r, _, halign, hsize, hr⟩

/-- Fields that follow each other are there one by one. -/
theorem split (h : HasFields f binding b o (vs ++ ws)) :
    HasFields f binding b o vs ∧ HasFields f binding b (o + vs.size) ws := by
  obtain ⟨before, r, behind, hspells, hsize, hr⟩ := h
  have hfirst := List.forall₂_take_append r vs ws hr
  have hsecond := List.forall₂_drop_append r vs ws hr
  rw [← List.take_append_drop vs.length r] at hspells
  refine ⟨⟨before, r.take vs.length, r.drop vs.length ++ behind, ?_, hsize, hfirst⟩,
    ⟨before ++ r.take vs.length, r.drop vs.length, behind, ?_, ?_, hsecond⟩⟩
  · rw [List.append_assoc, List.append_assoc] at hspells
    rw [List.append_assoc]
    exact hspells
  · rw [List.append_assoc before]
    exact hspells
  · rw [Record.size_append, hsize, Record.Becomes.size_eq hfirst]

/-- A fixup with what agrees with the binding keeps the values. -/
theorem settle {here : Binding} (h : HasFields f binding b o vs) (hfix : b.fixup here = .ok b')
    (hagree : ∃ env, binding.Agrees env ∧ here.Agrees env) : HasFields f binding b' o vs := by
  obtain ⟨before, r, behind, hspells, hsize, hr⟩ := h
  obtain ⟨env, hbinding, hhere⟩ := hagree
  have hsettle := hspells.settle hfix
  refine ⟨before.settle here, r.settle here, behind.settle here, ?_, ?_, ?_⟩
  · rw [Record.settle, List.map_append, List.map_append] at hsettle
    exact hsettle
  · rw [Record.size_settle, hsize]
  · refine List.forall₂_map_left_iff.2 (hr.imp fun x v hbecomes => ⟨hbecomes.1, ?_⟩)
    have hvalue := hbecomes.2
    show (Expr.settle here x.2).constantUnder binding = some v.2
    rw [Expr.settle]
    cases hw : x.2.constantUnder here with
    | none => exact hvalue
    | some w =>
      have hv := Expr.eval_of_constantUnder hbinding hvalue
      rw [Expr.eval_of_constantUnder hhere hw] at hv
      rw [hv]
      rfl

/-- What a fixup settles has its values from then on, whatever the binding. -/
theorem settled {here : Binding} (h : HasFields f here b o vs) (hfix : b.fixup here = .ok b')
    (binding : Binding) : HasFields f binding b' o vs := by
  obtain ⟨before, r, behind, hspells, hsize, hr⟩ := h
  have hsettle := hspells.settle hfix
  rw [Record.settle, List.map_append, List.map_append] at hsettle
  change b'.Spells f (before.settle here ++ r.settle here ++ behind.settle here) at hsettle
  rw [hr.settle_eq] at hsettle
  exact ⟨_, _, _, hsettle, by rw [Record.size_settle, hsize], Record.becomes_record vs⟩

/-- Once all labels have their places, what a buffer has is in its bytes. -/
theorem read {all : Binding} (h : HasFields f binding b o vs) (hfix : b.fixup all = .ok b')
    (hconstant : binding.Constant) (hextends : binding.Extends all) :
    vs.Fit ∧ HasAt b'.contents o (vs.bytes f.order) := by
  obtain ⟨before, r, behind, hspells, rfl, hr⟩ := h
  have hall : r.Becomes all vs := hr.imp fun x v hbecomes =>
    ⟨hbecomes.1, Expr.constantUnder_extends hconstant hextends hbecomes.2⟩
  have hsettle := hspells.settle hfix
  rw [Record.settle, List.map_append, List.map_append] at hsettle
  change b'.Spells f (before.settle all ++ r.settle all ++ behind.settle all) at hsettle
  rw [hall.settle_eq] at hsettle
  rw [← before.size_settle all]
  exact hsettle.hasAt

end HasFields

theorem Labelled.alike (h : b.Labelled b') : b'.Alike b := by
  obtain ⟨added, rfl⟩ := h
  exact ⟨rfl, rfl⟩

end Buffer

/-! ## Tables by name -/

namespace Tables

theorem lookup_updateFirst (l : List (String × Buffer)) (name other : String)
    (change : Buffer → Buffer) :
    ((updateFirst (fun (e : String × Buffer) => e.1 == name) (name, .empty)
      (fun e => ((e.1, change e.2), ())) l).1.lookup other).getD .empty =
      if other = name then change ((l.lookup name).getD .empty) else (l.lookup other).getD .empty := by
  induction l with
  | nil =>
    rw [updateFirst, List.lookup_cons]
    by_cases h : other = name
    · rw [if_pos h, h, beq_self_eq_true]
      rfl
    · rw [if_neg h, beq_false_of_ne h]
  | cons e rest ih =>
    rw [updateFirst]
    by_cases hname : e.1 = name
    · rw [← hname, if_pos (beq_self_eq_true e.1), List.lookup_cons, List.lookup_cons,
        List.lookup_cons, beq_self_eq_true]
      by_cases h : other = e.1
      · rw [if_pos h, h, beq_self_eq_true]
        rfl
      · rw [if_neg h, beq_false_of_ne h]
    · rw [if_neg (by simpa using hname), List.lookup_cons, List.lookup_cons, List.lookup_cons,
        beq_false_of_ne (Ne.symm hname)]
      by_cases h : other = e.1
      · rw [h, beq_self_eq_true, if_neg hname]
      · rw [beq_false_of_ne h]
        exact ih

/-- Changing a table changes no other one. -/
theorem table_modify (t : Tables) (name other : String) (change : Buffer → Buffer) :
    (t.modify name change).table other =
      if other = name then change (t.table name) else t.table other :=
  lookup_updateFirst t.entries name other change

@[simp]
theorem table_modify_self (t : Tables) (name : String) (change : Buffer → Buffer) :
    (t.modify name change).table name = change (t.table name) := by
  rw [table_modify, if_pos rfl]

theorem table_modify_of_ne (t : Tables) {name other : String} (h : other ≠ name)
    (change : Buffer → Buffer) : (t.modify name change).table other = t.table other := by
  rw [table_modify, if_neg h]

/-- The names of the tables, in the order the tables will stand in. -/
def names (t : Tables) : List String := t.entries.map (·.1)

theorem names_new (c : Context) (names : List String) : (Tables.new c names).names = names := by
  rw [Tables.names, new, List.map_map]
  exact List.map_id names

theorem table_new (c : Context) (names : List String) (name : String) :
    (Tables.new c names).table name = .empty := by
  rw [table_eq]
  cases h : (Tables.new c names).entries.find? fun e => e.1 == name with
  | none => rfl
  | some e =>
    obtain ⟨other, -, rfl⟩ := List.mem_map.1 (List.mem_of_find?_eq_some h)
    rfl

theorem names_modify {t : Tables} {name : String} (h : name ∈ t.names) (change : Buffer → Buffer) :
    (t.modify name change).names = t.names := by
  have hlist : ∀ l : List (String × Buffer), name ∈ l.map (·.1) →
      (updateFirst (fun (e : String × Buffer) => e.1 == name) (name, .empty)
        (fun e => ((e.1, change e.2), ())) l).1.map (·.1) = l.map (·.1) := by
    intro l
    induction l with
    | nil => exact fun h => nomatch h
    | cons e rest ih =>
      intro h
      rw [updateFirst]
      by_cases hname : e.1 = name
      · rw [if_pos (by simpa using hname)]
        rfl
      · rw [if_neg (by simpa using hname), List.map_cons, List.map_cons, ih ?_]
        exact (List.mem_cons.1 h).resolve_left fun heq => hname heq.symm
  exact hlist t.entries h

/-! ## Tables that grow -/

/-- The second tables have what the first have: the fields that the bindings, one for each table,
know the values of, and the labels. -/
structure Grows (binding : String → Binding) (t t' : Tables) : Prop where
  context : t.context.Keeps t'.context
  names : t'.names = t.names
  size : ∀ name, (t.table name).virtSize ≤ (t'.table name).virtSize
  exports : ∀ name, ∀ e ∈ (t.table name).exports, e ∈ (t'.table name).exports
  spelled : ∀ name, (t.table name).Spelled t.context.encoder →
    (t'.table name).Spelled t.context.encoder
  fields : ∀ name o vs, HasFields t.context.encoder (binding name) (t.table name) o vs →
    HasFields t.context.encoder (binding name) (t'.table name) o vs

/-- Records spell all tables. -/
def Spelled (t : Tables) : Prop := ∀ name, (t.table name).Spelled t.context.encoder

/-- A table has fields at the offset that the binding for the table gives the values. -/
def Has (binding : String → Binding) (t : Tables) (name : String) (o : Nat) (vs : FieldValues) :
    Prop :=
  HasFields t.context.encoder (binding name) (t.table name) o vs

/-- A table has the fields, the same binding giving the values of all tables. -/
abbrev HasUnder (t : Tables) (binding : Binding) (name : String) (o : Nat) (vs : FieldValues) :
    Prop :=
  t.Has (fun _ => binding) name o vs

/-- A table has values of one type, one behind the other. -/
def HasEntries (t : Tables) (binding : Binding) (name : String) (type : FieldType) :
    (o : Nat) → List LinkValue → Prop
  | _, [] => True
  | o, v :: vs =>
    t.HasUnder binding name o [(type, v)] ∧ t.HasEntries binding name type (o + type.width) vs

section Grows

variable {binding : String → Binding} {t u v : Tables}

theorem Grows.refl (binding : String → Binding) (t : Tables) : Grows binding t t :=
  ⟨.refl _, rfl, fun _ => Nat.le_refl _, fun _ _ h => h, fun _ h => h, fun _ _ _ h => h⟩

theorem Grows.trans (htu : Grows binding t u) (huv : Grows binding u v) : Grows binding t v where
  context := htu.context.trans huv.context
  names := huv.names.trans htu.names
  size name := Nat.le_trans (htu.size name) (huv.size name)
  exports name e he := huv.exports name e (htu.exports name e he)
  spelled name h := by
    have hu := htu.spelled name h
    rw [← htu.context.1] at hu ⊢
    exact huv.spelled name hu
  fields name o vs h := by
    have hu := htu.fields name o vs h
    rw [← htu.context.1] at hu ⊢
    exact huv.fields name o vs hu

theorem Grows.mem (h : Grows binding t u) {name : String} (hname : name ∈ t.names) :
    name ∈ u.names :=
  h.names ▸ hname

theorem Spelled.grows (h : t.Spelled) (hg : Grows binding t u) : u.Spelled := by
  intro name
  rw [hg.context.1]
  exact hg.spelled name (h name)

theorem Has.grows {name : String} {o : Nat} {vs : FieldValues} (h : t.Has binding name o vs)
    (hg : Grows binding t u) : u.Has binding name o vs := by
  have hu := hg.fields name o vs h
  rw [← hg.context.1] at hu
  exact hu

theorem HasEntries.grows {binding : Binding} {name : String} {type : FieldType} {o : Nat}
    {vs : List LinkValue} (h : t.HasEntries binding name type o vs)
    (hg : Grows (fun _ => binding) t u) : u.HasEntries binding name type o vs := by
  induction vs generalizing o with
  | nil => trivial
  | cons v vs ih => exact ⟨h.1.grows hg, ih h.2⟩

theorem Has.split {name : String} {o : Nat} {vs ws : FieldValues}
    (h : t.Has binding name o (vs ++ ws)) :
    t.Has binding name o vs ∧ t.Has binding name (o + vs.size) ws :=
  HasFields.split h

/-- What a table has is in it. -/
theorem Has.inside {name : String} {o : Nat} {vs : FieldValues} (h : t.Has binding name o vs) :
    o + vs.size ≤ (t.table name).virtSize := by
  obtain ⟨before, r, behind, hspells, rfl, hr⟩ := h
  rw [hspells.virtSize_eq, Record.size_append, Record.size_append, hr.size_eq]
  exact Nat.le_add_right _ _

theorem spelled_new (c : Context) (names : List String) : (Tables.new c names).Spelled := by
  intro name
  rw [table_new]
  exact ⟨[], spells_empty _⟩

/-- Changing one table to one that has what it had. -/
theorem grows_modify {name : String} {change : Buffer → Buffer} (hname : name ∈ t.names)
    (hsize : (t.table name).virtSize ≤ (change (t.table name)).virtSize)
    (hexports : ∀ e ∈ (t.table name).exports, e ∈ (change (t.table name)).exports)
    (hspelled : (t.table name).Spelled t.context.encoder →
      (change (t.table name)).Spelled t.context.encoder)
    (hfields : ∀ o vs, HasFields t.context.encoder (binding name) (t.table name) o vs →
      HasFields t.context.encoder (binding name) (change (t.table name)) o vs) :
    Grows binding t (t.modify name change) := by
  refine ⟨.refl _, names_modify hname change, fun other => ?_, fun other => ?_, fun other => ?_,
    fun other => ?_⟩ <;> by_cases h : other = name
  · rw [h, table_modify_self]
    exact hsize
  · rw [table_modify_of_ne t h]
  · rw [h, table_modify_self]
    exact hexports
  · rw [table_modify_of_ne t h]
    exact fun _ he => he
  · rw [h, table_modify_self]
    exact hspelled
  · rw [table_modify_of_ne t h]
    exact id
  · rw [h, table_modify_self]
    exact hfields
  · rw [table_modify_of_ne t h]
    exact fun _ _ => id

theorem grows_context (t : Tables) {c : Context} (h : t.context.Keeps c) :
    Grows binding t { t with context := c } :=
  ⟨h, rfl, fun _ => Nat.le_refl _, fun _ _ he => he, fun _ hs => hs, fun _ _ _ hf => hf⟩

/-- A buffer behind a table: what it has is there, behind what the table had. -/
theorem grows_append {name : String} (hname : name ∈ t.names) {b : Buffer} {r : Record}
    (hb : b.Spells t.context.encoder r) : Grows binding t (t.append name b) :=
  grows_modify hname (by rw [virtSize_append]; exact Nat.le_add_right _ _)
    (fun e he => by rw [exports_append]; exact List.mem_append_left _ he)
    (fun h => h.append ⟨r, hb⟩) fun _ _ h => h.append_left ⟨r, hb⟩

theorem has_append {name : String} (ht : t.Spelled) {b : Buffer} {r : Record}
    (hb : b.Spells t.context.encoder r) {vs : FieldValues} (hr : r.Becomes (binding name) vs) :
    (t.append name b).Has binding name (t.table name).virtSize vs := by
  have happend := (HasFields.of_spells hb hr).append_right (ht name)
  rw [Has, append, table_modify_self]
  exact happend

theorem table_append_self (t : Tables) (name : String) (b : Buffer) :
    (t.append name b).table name = t.table name ++ b := table_modify_self t name _

theorem table_append_of_ne (t : Tables) {name other : String} (h : other ≠ name) (b : Buffer) :
    (t.append name b).table other = t.table other := table_modify_of_ne t h _

theorem grows_extend {name : String} (hname : name ∈ t.names) (data : List UInt8) :
    Grows binding t (t.extend name data) := by
  have happend : t.extend name data = t.append name (ofBytes data) := by
    rw [extend, append]
    congr 1
    funext b
    exact b.extend_eq_append data
  rw [happend]
  exact grows_append hname (spells_ofBytes _ data)

theorem has_extend {name : String} (ht : t.Spelled) (data : List UInt8) :
    (t.extend name data).Has binding name (t.table name).virtSize (.ofBytes data) := by
  rw [Has, extend, table_modify_self, extend_eq_append]
  exact (HasFields.of_spells (spells_ofBytes _ data) (Record.becomes_record _)).append_right (ht name)

/-- Zeros behind a table, up to a multiple of the boundary. -/
theorem grows_align {name : String} (hname : name ∈ t.names) (boundary : Nat) :
    Grows binding t (t.modify name (·.align boundary)) :=
  grows_modify hname (by rw [align, virtSize_growTo]; exact Nat.le_max_left _ _)
    (fun _ he => he) (fun ⟨_, hr⟩ => ⟨_, hr.align boundary⟩) fun _ _ h => h.align boundary

theorem grows_text {name : String} (hname : name ∈ t.names) (s : List UInt8) :
    Grows binding t (t.text name s) := by
  have hname' : name ∈ (t.extend name s).names := by
    rw [extend, names_modify hname]
    exact hname
  exact (grows_extend hname s).trans (grows_extend hname' [0])

theorem tail_text_self (t : Tables) (name : String) (s : List UInt8) :
    ((t.text name s).table name).tail = 0 := by
  rw [text, extend, table_modify_self]
  rfl

theorem virtSize_text_of_ne (t : Tables) {name other : String} (h : other ≠ name)
    (s : List UInt8) : ((t.text name s).table other).virtSize = (t.table other).virtSize := by
  rw [Tables.text, Tables.extend, Tables.extend, table_modify_of_ne _ h, table_modify_of_ne _ h]

/-- A text behind a table, with its zero byte. -/
theorem has_text {name : String} (ht : t.Spelled) (s : List UInt8) :
    (t.text name s).Has binding name (t.table name).virtSize (.ofBytes (s ++ [0])) := by
  have hextend : (t.text name s).table name = (t.table name).extend (s ++ [0]) := by
    rw [text, extend, extend, table_modify_self, table_modify_self, extend_eq_append,
      extend_eq_append, extend_eq_append, append_assoc, ofBytes_append]
  rw [Has, hextend, extend_eq_append]
  exact (HasFields.of_spells (spells_ofBytes _ _) (Record.becomes_record _)).append_right (ht name)

/-! ## Labels of the starts -/

theorem table_label_self (t : Tables) (name : String) :
    (t.label name).2.table name = (t.context.labelAt (t.table name) 0 name).2.2 :=
  table_modify_self { t with context := (t.context.labelAt (t.table name) 0 name).2.1 } name _

theorem table_label_of_ne (t : Tables) {name other : String} (h : other ≠ name) :
    (t.label name).2.table other = t.table other :=
  table_modify_of_ne { t with context := (t.context.labelAt (t.table name) 0 name).2.1 } h _

/-- The start of a table gets a label, and nothing else changes. -/
theorem table_label (t : Tables) (name : String) :
    (t.table name).Labelled ((t.label name).2.table name) ∧
      ((t.label name).1, 0) ∈ ((t.label name).2.table name).exports := by
  rw [table_label_self]
  exact ⟨labelled_labelAt _ _ _ _, mem_exports_labelAt _ _ _ _⟩

theorem names_label {name : String} (hname : name ∈ t.names) : (t.label name).2.names = t.names :=
  names_modify (t := { t with context := (t.context.labelAt (t.table name) 0 name).2.1 }) hname _

theorem grows_label {name : String} (hname : name ∈ t.names) :
    Grows binding t (t.label name).2 := by
  have hlabelled := labelled_labelAt t.context (t.table name) 0 name
  refine .trans (grows_context t (t.context.keeps_labelAt (t.table name) 0 name)) ?_
  let u : Tables := { t with context := (t.context.labelAt (t.table name) 0 name).2.1 }
  show Grows binding u (u.modify name fun _ => (t.context.labelAt (t.table name) 0 name).2.2)
  refine grows_modify hname ?_ ?_ ?_ ?_
  · exact hlabelled.grows.virtSize_le
  · exact fun e he => hlabelled.grows.exports.subset he
  · exact fun h => h.congr hlabelled.alike
  · exact fun _ _ h => h.congr hlabelled.alike

theorem Grows.label (h : Grows binding t u) {name : String} (hname : name ∈ t.names) :
    Grows binding t (u.label name).2 :=
  h.trans (grows_label (h.mem hname))

theorem virtSize_label (t : Tables) (name other : String) :
    ((t.label name).2.table other).virtSize = (t.table other).virtSize := by
  by_cases h : other = name
  · rw [h]
    exact (t.table_label name).1.virtSize_eq
  · rw [table_label_of_ne t h]

theorem grows_rvaEnd {name : String} (hname : name ∈ t.names) :
    Grows binding t (t.rvaEnd name).2 :=
  grows_label hname

/-- The labels of a table stand for places behind the start of the table, which is as far behind the
base as `place` says. -/
def Located (b : Binding) (base : LinkValue) (place : String → Nat) (t : Tables) : Prop :=
  ∀ name, ∀ e ∈ (t.table name).exports,
    b.get? e.1 = some (.const (base + LinkValue.ofSize (place name + e.2)))

variable {b : Binding} {base : LinkValue} {place : String → Nat}

theorem Located.of_grows (h : u.Located b base place) (hg : Grows binding t u) :
    t.Located b base place :=
  fun name e he => h name e (hg.exports name e he)

/-- The binding knows where the tables and the image are. -/
structure Placed (b : Binding) (base : LinkValue) (place : String → Nat) (t : Tables) : Prop where
  constant : b.Constant
  start : b.get? t.context.start = some (.const base)
  located : t.Located b base place

theorem Placed.of_grows (h : u.Placed b base place) (hg : Grows (fun _ => b) t u) :
    t.Placed b base place :=
  ⟨h.constant, hg.context.2 ▸ h.start, h.located.of_grows hg⟩

theorem Located.label {name : String} (h : (t.label name).2.Located b base place) :
    b.get? (t.label name).1 = some (.const (base + LinkValue.ofSize (place name))) :=
  h name _ (t.table_label name).2

/-- The start of a table, relative to the start of the image. -/
theorem constantUnder_rva (hb : b.Constant) {c : Context}
    (hstart : b.get? c.start = some (.const base)) {l : String} {n : Nat}
    (hl : b.get? l = some (.const (base + LinkValue.ofSize n))) :
    (c.rva (.label l)).constantUnder b = some (.ofSize n) := by
  rw [Expr.constantUnder_of_known hb (e := c.rva (.label l)) ?_]
  · show some (b.env l - b.env c.start) = _
    rw [Binding.env_of_get? hl, Binding.env_of_get? hstart, add_sub_cancel_left]
  · intro l' hl'
    rcases List.mem_cons.1 hl' with rfl | hl'
    · rw [hl]
      rfl
    · rw [List.mem_singleton.1 hl', hstart]
      rfl

/-- **The next byte of a table, relative to the start of the image.** -/
theorem constantUnder_rvaEnd {name : String} (h : (t.rvaEnd name).2.Placed b base place) :
    (t.rvaEnd name).1.constantUnder b = some (.ofSize (place name + (t.table name).virtSize)) := by
  have hlabel : b.get? (t.label name).1 = _ := Located.label h.located
  have hstart : b.get? t.context.start = _ := h.start
  have hknown : ∀ l ∈ (t.rvaEnd name).1.labelLeaves, (b.get? l).isSome := by
    intro l hl
    change l ∈ [(t.label name).1, t.context.start] at hl
    rcases List.mem_cons.1 hl with rfl | hl
    · rw [hlabel]
      rfl
    · rw [List.mem_singleton.1 hl, hstart]
      rfl
  rw [Expr.constantUnder_of_known h.constant hknown]
  show some (b.env (t.label name).1 - b.env t.context.start +
    LinkValue.ofSize ((t.label name).2.table name).virtSize) = _
  rw [Binding.env_of_get? hlabel, Binding.env_of_get? hstart, virtSize_label, add_sub_cancel_left,
    LinkValue.ofSize, LinkValue.ofSize, LinkValue.ofSize, ← BitVec.ofNat_add]

/-- **The next byte of a table, relative to the start of the first one.** -/
theorem constantUnder_offsetEnd (hb : b.Constant) {name first : String} (hname : name ∈ t.names)
    (hmem : first ∈ t.names) (hfirst : place first = 0)
    (h : (t.offsetEnd name first).2.Located b base place) :
    (t.offsetEnd name first).1.constantUnder b =
      some (.ofSize (place name + (t.table name).virtSize)) := by
  let u := (t.label name).2
  have hsecond : Grows (fun _ => b) u (u.label first).2 :=
    grows_label ((names_label hname).symm ▸ hmem)
  have hlabel : b.get? (t.label name).1 = _ := Located.label (h.of_grows hsecond)
  have hfirstLabel : b.get? (u.label first).1 = _ := Located.label h
  have hknown : ∀ l ∈ (t.offsetEnd name first).1.labelLeaves, (b.get? l).isSome := by
    intro l hl
    change l ∈ [(t.label name).1, (u.label first).1] at hl
    rcases List.mem_cons.1 hl with rfl | hl
    · rw [hlabel]
      rfl
    · rw [List.mem_singleton.1 hl, hfirstLabel]
      rfl
  rw [Expr.constantUnder_of_known hb hknown]
  show some (b.env (t.label name).1 - b.env (u.label first).1 +
    LinkValue.ofSize ((u.label first).2.table name).virtSize) = _
  have hzero : LinkValue.ofSize 0 = 0 := rfl
  rw [Binding.env_of_get? hlabel, Binding.env_of_get? hfirstLabel, virtSize_label, virtSize_label,
    hfirst, hzero, add_zero, add_sub_cancel_left, LinkValue.ofSize, LinkValue.ofSize,
    LinkValue.ofSize, ← BitVec.ofNat_add]

end Grows

/-! ## The tables one behind the other -/

/-- Where a table starts in the directory. -/
def start (t : Tables) (name : String) : Nat :=
  ((t.entries.takeWhile (·.1 != name)).map (·.2.virtSize)).sum

/-- The first table stands at the start. -/
theorem start_first {t : Tables} {name : String} {rest : List String}
    (h : t.names = name :: rest) : t.start name = 0 := by
  obtain ⟨e, others, hentries, rfl, -⟩ := List.map_eq_cons_iff.1 h
  rw [start, hentries, List.takeWhile_cons_of_neg (by simp)]
  rfl

theorem table_of_mem {t : Tables} (hnodup : t.names.Nodup) {e : String × Buffer}
    (h : e ∈ t.entries) : t.table e.1 = e.2 := by
  rw [names] at hnodup
  rw [table]
  generalize t.entries = l at hnodup h
  induction l with
  | nil => cases h
  | cons x rest ih =>
    rw [List.map_cons, List.nodup_cons] at hnodup
    rw [List.lookup_cons]
    rcases List.mem_cons.1 h with rfl | h
    · rw [beq_self_eq_true]
      rfl
    · have hne : e.1 ≠ x.1 := fun heq => hnodup.1 (heq ▸ List.mem_map_of_mem h)
      rw [beq_false_of_ne hne]
      exact ih hnodup.2 h

/-- The tables by name, in the order they stand in. -/
theorem entries_eq {t : Tables} (hnodup : t.names.Nodup) :
    t.entries = t.names.map fun name => (name, t.table name) := by
  rw [names, List.map_map]
  refine (List.map_id _).symm.trans (List.map_congr_left fun e he => ?_)
  exact Prod.ext rfl (table_of_mem hnodup he).symm

/-- A table starts where those before it end. -/
theorem start_eq {t : Tables} {name : String} {front back : List String} (hnodup : t.names.Nodup)
    (h : t.names = front ++ name :: back) :
    t.start name = (front.map fun n => (t.table n).virtSize).sum := by
  have hentries := entries_eq hnodup
  have hfront : ∀ n ∈ front, n ≠ name := by
    rintro n hn rfl
    rw [h, List.nodup_append] at hnodup
    exact hnodup.2.2 n hn n List.mem_cons_self rfl
  rw [start, hentries, h, List.map_append, List.map_cons, List.takeWhile_append_of_pos,
    List.takeWhile_cons_of_neg (by simp), List.append_nil, List.map_map]
  · rfl
  · intro e he
    obtain ⟨n, hn, rfl⟩ := List.mem_map.1 he
    exact bne_iff_ne.2 (hfront n hn)

/-- A table stands behind those before it. -/
theorem exists_entries {t : Tables} {name : String} (h : name ∈ t.names) :
    ∃ front back, t.entries = front ++ (name, t.table name) :: back ∧
      (front.map (·.2.virtSize)).sum = t.start name := by
  rw [names] at h
  rw [start, table]
  generalize t.entries = l at h
  induction l with
  | nil => cases h
  | cons e rest ih =>
    rw [List.lookup_cons, List.takeWhile_cons]
    by_cases heq : e.1 = name
    · refine ⟨[], rest, ?_, ?_⟩
      · rw [← heq, beq_self_eq_true]
        rfl
      · rw [heq, bne_self_eq_false]
        rfl
    · have hrest : name ∈ rest.map (·.1) :=
        (List.mem_cons.1 h).resolve_left fun hname => heq hname.symm
      obtain ⟨front, back, hentries, hsum⟩ := ih hrest
      refine ⟨e :: front, back, ?_, ?_⟩
      · rw [beq_false_of_ne (Ne.symm heq), List.cons_append, ← hentries]
      · rw [if_pos (bne_iff_ne.2 heq), List.map_cons, List.map_cons, List.sum_cons, List.sum_cons,
          hsum]

/-- The tables of a list one behind the other. -/
def joined (acc : Buffer) (l : List (String × Buffer)) : Buffer :=
  l.foldl (fun acc e => acc ++ e.2) acc

theorem virtSize_joined (acc : Buffer) (l : List (String × Buffer)) :
    (joined acc l).virtSize = acc.virtSize + (l.map (·.2.virtSize)).sum := by
  induction l generalizing acc with
  | nil => rfl
  | cons e rest ih =>
    rw [joined, List.foldl_cons, ← joined, ih, virtSize_append, List.map_cons, List.sum_cons,
      Nat.add_assoc]

theorem exports_joined {acc : Buffer} {e : String × Nat} (h : e ∈ acc.exports)
    (l : List (String × Buffer)) : e ∈ (joined acc l).exports := by
  induction l generalizing acc with
  | nil => exact h
  | cons x rest ih => exact ih (by rw [exports_append]; exact List.mem_append_left _ h)

section Joined

variable {f : FieldEncoder} {acc : Buffer} {l : List (String × Buffer)}
  (hl : ∀ e ∈ l, e.2.Spelled f)

include hl

theorem spelled_joined (h : acc.Spelled f) : (joined acc l).Spelled f := by
  induction l generalizing acc with
  | nil => exact h
  | cons e rest ih =>
    obtain ⟨he, hrest⟩ := List.forall_mem_cons.1 hl
    exact ih hrest (h.append he)

theorem hasFields_joined {b : Binding} {o : Nat} {vs : FieldValues} (h : HasFields f b acc o vs) :
    HasFields f b (joined acc l) o vs := by
  induction l generalizing acc with
  | nil => exact h
  | cons e rest ih =>
    obtain ⟨he, hrest⟩ := List.forall_mem_cons.1 hl
    exact ih hrest (h.append_left he)

end Joined

section Concat

variable {t : Tables} {name : String} (h : name ∈ t.names)

include h

theorem concat_eq : ∃ front back, t.entries = front ++ (name, t.table name) :: back ∧
    (joined .empty front).virtSize = t.start name ∧
    t.concat = joined (joined .empty front ++ t.table name) back := by
  obtain ⟨front, back, hentries, hsum⟩ := exists_entries h
  refine ⟨front, back, hentries, ?_, ?_⟩
  · rw [virtSize_joined, hsum]
    exact Nat.zero_add _
  · rw [concat, hentries, List.foldl_append]
    rfl

/-- A table lies in the directory. -/
theorem start_add_virtSize_le : t.start name + (t.table name).virtSize ≤ t.concat.virtSize := by
  obtain ⟨front, back, -, hsize, hconcat⟩ := concat_eq h
  rw [hconcat, virtSize_joined, virtSize_append, hsize]
  exact Nat.le_add_right _ _

/-- The labels of a table are labels of the directory. -/
theorem mem_exports_concat {e : String × Nat} (he : e ∈ (t.table name).exports) :
    (e.1, t.start name + e.2) ∈ t.concat.exports := by
  obtain ⟨front, back, -, hsize, hconcat⟩ := concat_eq h
  rw [hconcat]
  refine exports_joined ?_ back
  rw [exports_append, hsize]
  refine List.mem_append_right _ (List.mem_map.2 ⟨e, he, ?_⟩)
  rw [Nat.add_comm]

/-- **Once all labels have their places, what a table has is in the bytes of the directory.** -/
theorem Has.read {binding : String → Binding} {all : Binding} {b' : Buffer} {o : Nat}
    {vs : FieldValues} (hhas : t.Has binding name o vs) (hnodup : t.names.Nodup) (ht : t.Spelled)
    (hfix : t.concat.fixup all = .ok b') (hconstant : (binding name).Constant)
    (hextends : (binding name).Extends all) :
    vs.Fit ∧ HasAt b'.contents (t.start name + o) (vs.bytes t.context.encoder.order) := by
  obtain ⟨front, back, hentries, hsize, hconcat⟩ := concat_eq h
  have hspelled : ∀ e ∈ t.entries, e.2.Spelled t.context.encoder := fun e he => by
    rw [← table_of_mem hnodup he]
    exact ht e.1
  rw [hentries] at hspelled
  have hfront := spelled_joined (fun e he => hspelled e (List.mem_append_left _ he))
    ⟨[], spells_empty _⟩
  have hjoined := hasFields_joined (fun e he => hspelled e (List.mem_append_right _
    (List.mem_cons_of_mem _ he))) (HasFields.append_right hfront hhas)
  rw [hsize, ← hconcat] at hjoined
  exact hjoined.read hfix hconstant hextends

end Concat

/-- Behind the bytes of the directory there is what is behind those of the last table. -/
theorem tail_concat {t : Tables} {front : List String} {name : String} (hnodup : t.names.Nodup)
    (hnames : t.names = front ++ [name]) : t.concat.tail = (t.table name).tail := by
  have hmem : name ∈ t.names := hnames ▸ List.mem_append_right _ (List.mem_singleton.2 rfl)
  obtain ⟨before, back, hentries, -, hconcat⟩ := concat_eq hmem
  rcases List.eq_nil_or_concat back with rfl | ⟨rest, e, rfl⟩
  · rw [hconcat]
    rfl
  · -- else the name would occur twice
    rw [List.concat_eq_append] at hentries
    rw [Tables.names, hentries] at hnames hnodup
    simp only [List.map_append, List.map_cons, List.map_nil] at hnames hnodup
    rw [← List.cons_append, ← List.append_assoc] at hnames
    obtain ⟨-, hlast⟩ := List.append_inj' hnames rfl
    rw [List.nodup_append, List.nodup_cons] at hnodup
    exact absurd (List.mem_append_right _ (List.mem_singleton.2 (List.singleton_inj.1 hlast).symm))
      hnodup.2.1.1

end Tables

end PortableImage
