import PortableImage.Proofs.Directory.Tables
import PortableImage.Proofs.Field.Early

/-!
# Places in tables that still grow

While the tables of a directory grow, places in them are named by expressions: the label of the start of
a table and the size that the table has at this moment.  Nothing that happens later makes such an
expression wrong, whatever is done with which table in which order.

## What is here

* `Tables.Step`, `Tables.performAll` — what is done with tables, one step after the other.
* `Tables.content` — what is in a table after such steps, without tables; `Tables.place` adds up where it
  starts.
* `Tables.Addressed` — the labels of the tables differ, and differ from that of the image; a step keeps
  that up.
* `Tables.NextAt` — where the bytes are that a table gets next.
* `Tables.performAll_addresses` — **what the expressions stand for in the finished directory**.
-/

set_option autoImplicit false

namespace PortableImage.Tables

open Buffer

/-! ## Steps -/

/-- What is done with tables while they grow. -/
inductive Step
  | append (name : String) (b : Buffer)
  | extend (name : String) (bytes : List UInt8)
  | align (name : String) (boundary : Nat)
  | rvaEnd (name : String)
  | offsetEnd (name base : String)

/-- The step is about tables of the given names, and brings no labels. -/
def Step.Within (names : List String) : Step → Prop
  | append name b => name ∈ names ∧ b.exports = []
  | extend name _ | align name _ | rvaEnd name => name ∈ names
  | offsetEnd name base => name ∈ names ∧ base ∈ names

/-- The tables after a step.  A place that is named may get a label by that. -/
def perform (t : Tables) : Step → Tables
  | .append name b => t.append name b
  | .extend name bytes => t.extend name bytes
  | .align name boundary => t.modify name (·.align boundary)
  | .rvaEnd name => (t.rvaEnd name).2
  | .offsetEnd name base => (t.offsetEnd name base).2

/-- The tables after steps one after the other. -/
def performAll (t : Tables) (steps : List Step) : Tables := steps.foldl perform t

/-! ## What is in a table -/

/-- The bytes that a step puts behind a table. -/
def Step.appended (name : String) : Step → Option (List UInt8)
  | append other b => if other = name then some b.contents else none
  | extend other bytes => if other = name then some bytes else none
  | align .. | rvaEnd _ | offsetEnd .. => none

/-- The step puts zeros behind a table. -/
def Step.Aligns (name : String) : Step → Prop
  | align other _ => other = name
  | append .. | extend .. | rvaEnd _ | offsetEnd .. => False

/-- What a step makes of the bytes of a table. -/
def Step.grow (name : String) (bytes : List UInt8) : Step → List UInt8
  | append other b => if other = name then bytes ++ b.contents else bytes
  | extend other more => if other = name then bytes ++ more else bytes
  | align other boundary =>
    if other = name then padTo (alignSize bytes.length boundary) bytes else bytes
  | rvaEnd _ | offsetEnd .. => bytes

/-- What is in a table after steps: all that was put behind it, with zeros in between. -/
def content (steps : List Step) (name : String) : List UInt8 := steps.foldl (Step.grow name) []

/-- Where a table starts: behind all that is in the tables before it. -/
def place (names : List String) (steps : List Step) (name : String) : Nat :=
  ((names.takeWhile (· != name)).flatMap (content steps)).length

theorem Step.prefix_grow (name : String) (bytes : List UInt8) (s : Step) :
    bytes <+: s.grow name bytes := by
  cases s with
  | append other b | extend other more | align other boundary =>
    rw [grow]
    split
    · exact List.prefix_append _ _
    · exact List.prefix_rfl
  | rvaEnd | offsetEnd => exact List.prefix_rfl

theorem prefix_foldl_grow (name : String) (steps : List Step) (bytes : List UInt8) :
    bytes <+: steps.foldl (Step.grow name) bytes := by
  induction steps generalizing bytes with
  | nil => exact List.prefix_rfl
  | cons s rest ih => exact (s.prefix_grow name bytes).trans (ih _)

theorem Step.grow_of_appended {name : String} {s : Step} {data : List UInt8}
    (h : s.appended name = some data) (bytes : List UInt8) : s.grow name bytes = bytes ++ data := by
  cases s with
  | append other b | extend other more =>
    rw [appended] at h
    split at h
    · next heq =>
      cases h
      exact if_pos heq
    · exact nomatch h
  | align | rvaEnd | offsetEnd => exact nomatch h

/-- A step that puts nothing behind a table leaves it. -/
theorem Step.grow_of_none {name : String} {s : Step} (h : s.appended name = none)
    (halign : ¬ s.Aligns name) (bytes : List UInt8) : s.grow name bytes = bytes := by
  cases s with
  | append other b | extend other more =>
    rw [appended] at h
    split at h
    · exact nomatch h
    · next hne => exact if_neg hne
  | align other boundary => exact if_neg halign
  | rvaEnd | offsetEnd => rfl

/-- Naming a place changes no bytes. -/
theorem contents_label (t : Tables) (name other : String) :
    ((t.label name).2.table other).contents = (t.table other).contents := by
  by_cases h : other = name
  · obtain ⟨added, hlabel⟩ := (t.table_label name).1
    rw [h, hlabel]
    rfl
  · rw [table_label_of_ne t h]

/-- A step does to a table what it does to the bytes in it. -/
theorem contents_perform (t : Tables) (s : Step) (name : String) :
    ((t.perform s).table name).contents = s.grow name (t.table name).contents := by
  have hmodify : ∀ (other : String) (change : Buffer → Buffer),
      ((t.modify other change).table name).contents =
        if other = name then (change (t.table name)).contents else (t.table name).contents := by
    intro other change
    rw [table_modify]
    by_cases h : name = other
    · rw [if_pos h, if_pos h.symm, h]
    · rw [if_neg h, if_neg (Ne.symm h)]
  cases s with
  | append other b => exact (hmodify other _).trans (by rw [contents_append]; rfl)
  | extend other bytes => exact (hmodify other _).trans (by rw [contents_extend]; rfl)
  | align other boundary =>
    exact (hmodify other _).trans (by rw [contents_align, ← length_contents]; rfl)
  | rvaEnd other => exact contents_label t other name
  | offsetEnd other base => exact (contents_label _ base name).trans (contents_label t other name)

theorem contents_performAll (c : Context) (names : List String) (steps : List Step)
    (name : String) :
    (((Tables.new c names).performAll steps).table name).contents = content steps name := by
  have hrun : ∀ t : Tables, ((t.performAll steps).table name).contents =
      steps.foldl (Step.grow name) (t.table name).contents := by
    induction steps with
    | nil => exact fun t => rfl
    | cons s rest ih =>
      intro t
      show (((t.perform s).performAll rest).table name).contents = _
      rw [ih, contents_perform, List.foldl_cons]
  rw [hrun, table_new]
  rfl

theorem virtSize_performAll (c : Context) (names : List String) (steps : List Step)
    (name : String) :
    (((Tables.new c names).performAll steps).table name).virtSize = (content steps name).length := by
  rw [← length_contents, contents_performAll]

/-! ## Labels -/

theorem exports_label_subset (t : Tables) (name other : String) :
    (t.table other).exports ⊆ ((t.label name).2.table other).exports := by
  by_cases h : other = name
  · rw [h]
    exact (t.table_label name).1.grows.exports.subset
  · rw [table_label_of_ne t h]
    exact List.Subset.refl _

/-- Labels stay. -/
theorem exports_perform_subset (t : Tables) (s : Step) (name : String) :
    (t.table name).exports ⊆ ((t.perform s).table name).exports := by
  have hmodify : ∀ (other : String) (change : Buffer → Buffer),
      (∀ b : Buffer, b.exports ⊆ (change b).exports) →
      (t.table name).exports ⊆ ((t.modify other change).table name).exports := by
    intro other change hchange
    rw [table_modify]
    split
    · next h =>
      rw [h]
      exact hchange _
    · exact List.Subset.refl _
  cases s with
  | append other b =>
    refine hmodify other _ fun c => ?_
    rw [exports_append]
    exact List.subset_append_left _ _
  | extend other bytes => exact hmodify other _ fun c => List.Subset.refl _
  | align other boundary => exact hmodify other _ fun c => List.Subset.refl _
  | rvaEnd other => exact t.exports_label_subset other name
  | offsetEnd other base =>
    exact List.Subset.trans (t.exports_label_subset other name)
      ((t.label other).2.exports_label_subset base name)

theorem exports_performAll_subset (t : Tables) (steps : List Step) (name : String) :
    (t.table name).exports ⊆ ((t.performAll steps).table name).exports := by
  induction steps generalizing t with
  | nil => exact List.Subset.refl _
  | cons s rest ih => exact List.Subset.trans (t.exports_perform_subset s name) (ih _)

/-- The labels of the tables are noted, and differ from each other and from the label of the image. -/
structure Addressed (start : String) (names : List String) (t : Tables) : Prop where
  names_eq : t.names = names
  start_eq : t.context.start = start
  start_noted : start ∈ t.context.pool.known
  nodup : t.labels.Nodup
  noted : ∀ l ∈ t.labels, l ∈ t.context.pool.known ∧ l ≠ start

variable {start : String} {names : List String} {t : Tables}

theorem addressed_new {c : Context} (h : c.start ∈ c.pool.known) (names : List String) :
    Addressed c.start names (Tables.new c names) where
  names_eq := names_new c names
  start_eq := rfl
  start_noted := h
  nodup := by
    rw [labels_new]
    exact List.nodup_nil
  noted l hl := by
    rw [labels_new] at hl
    exact nomatch hl

/-- Changing what is in a table, but not its labels. -/
theorem Addressed.modify (h : Addressed start names t) {name : String} (hname : name ∈ names)
    {change : Buffer → Buffer} (hchange : ∀ b : Buffer, (change b).labels = b.labels) :
    Addressed start names (t.modify name change) := by
  have hcount : ∀ l, (t.modify name change).labels.count l = t.labels.count l := by
    intro l
    have hmodify := t.count_labels_modify name change l
    rw [hchange] at hmodify
    omega
  have hperm : (t.modify name change).labels.Perm t.labels := List.perm_iff_count.2 hcount
  refine ⟨?_, h.start_eq, h.start_noted, hperm.nodup_iff.2 h.nodup, fun l hl => ?_⟩
  · rw [names_modify (h.names_eq ▸ hname)]
    exact h.names_eq
  · exact h.noted l (hperm.subset hl)

/-- The start of a table gets a label that was not in use. -/
theorem Addressed.label (h : Addressed start names t) {name : String} (hname : name ∈ names) :
    Addressed start names (t.label name).2 := by
  have hcount := fun l => t.count_labels_modify name
    (fun _ => (t.context.labelAt (t.table name) 0 name).2.2) l
  have hlabels : (t.label name).2.labels = (t.modify name fun _ =>
    (t.context.labelAt (t.table name) 0 name).2.2).labels := rfl
  have hnames : (t.label name).2.names = names :=
    (names_label (h.names_eq ▸ hname)).trans h.names_eq
  have hpool : (t.label name).2.context.pool =
    (t.context.labelAt (t.table name) 0 name).2.1.pool := rfl
  rw [← hlabels] at hcount
  unfold Context.labelAt LabelPool.labelAt at hcount hpool
  cases hat : (t.table name).exportAt 0 with
  | some l =>
    -- the label is there already
    simp only [hat] at hcount hpool
    have hperm : (t.label name).2.labels.Perm t.labels :=
      List.perm_iff_count.2 fun l => Nat.add_right_cancel (hcount l)
    refine ⟨hnames, h.start_eq, hpool ▸ h.start_noted, hperm.nodup_iff.2 h.nodup, fun l hl => ?_⟩
    rw [hpool]
    exact h.noted l (hperm.subset hl)
  | none =>
    simp only [hat, labels_addExport, List.count_append] at hcount hpool
    have hnew := t.context.pool.fresh_notMem name
    have hknown := t.context.pool.known_fresh name
    have hperm : (t.label name).2.labels.Perm (t.labels ++ [(t.context.pool.fresh name).1]) :=
      List.perm_iff_count.2 fun l => by
        have := hcount l
        rw [List.count_append]
        omega
    refine ⟨hnames, h.start_eq, ?_, ?_, fun l hl => ?_⟩
    · rw [hpool, hknown]
      exact List.mem_cons_of_mem _ h.start_noted
    · rw [hperm.nodup_iff, List.nodup_append_comm]
      exact List.nodup_cons.2 ⟨fun hmem => hnew (h.noted _ hmem).1, h.nodup⟩
    · rw [hpool, hknown]
      rcases List.mem_append.1 (hperm.subset hl) with hl | hl
      · exact (h.noted l hl).imp_left (List.mem_cons_of_mem _)
      · rw [List.mem_singleton.1 hl]
        exact ⟨List.mem_cons_self, fun heq => hnew (heq ▸ h.start_noted)⟩

/-- **A step keeps the labels apart.** -/
theorem Addressed.perform (h : Addressed start names t) {s : Step} (hs : s.Within names) :
    Addressed start names (t.perform s) := by
  cases s with
  | append name b =>
    show Addressed start names (t.modify name (· ++ b))
    have hnone : b.labels = [] := by
      rw [Buffer.labels, hs.2]
      rfl
    refine h.modify hs.1 fun c => ?_
    rw [labels_append, hnone, List.append_nil]
  | extend name bytes => exact h.modify hs fun c => c.labels_extend bytes
  | align name boundary => exact h.modify hs fun c => c.labels_align boundary
  | rvaEnd name => exact h.label hs
  | offsetEnd name base => exact (h.label hs.1).label hs.2

theorem Addressed.performAll (h : Addressed start names t) {steps : List Step}
    (hsteps : ∀ s ∈ steps, s.Within names) : Addressed start names (t.performAll steps) := by
  induction steps generalizing t with
  | nil => exact h
  | cons s rest ih =>
    obtain ⟨hs, hrest⟩ := List.forall_mem_cons.1 hsteps
    exact ih (h.perform hs) hrest

/-! ## The directory -/

theorem contents_joined (acc : Buffer) (l : List (String × Buffer)) :
    (joined acc l).contents = acc.contents ++ l.flatMap (·.2.contents) := by
  induction l generalizing acc with
  | nil => exact (List.append_nil _).symm
  | cons e rest ih =>
    rw [joined, List.foldl_cons, ← joined, ih, contents_append, List.flatMap_cons, List.append_assoc]

/-- **The tables stand one behind the other**, with their zeros. -/
theorem contents_concat (hnodup : t.names.Nodup) :
    t.concat.contents = t.names.flatMap fun name => (t.table name).contents := by
  have hjoined := contents_joined .empty t.entries
  rw [entries_eq hnodup, List.flatMap_map] at hjoined
  rw [concat, entries_eq hnodup]
  exact hjoined

/-- A table starts at its place. -/
theorem start_eq_place {steps : List Step} {name : String} (hnodup : t.names.Nodup)
    (hcontents : ∀ name, (t.table name).contents = content steps name) :
    t.start name = place t.names steps name := by
  rw [Tables.start, entries_eq hnodup, List.takeWhile_map, List.map_map, place, List.length_flatMap]
  congr 1
  refine List.map_congr_left fun other _ => ?_
  rw [← hcontents, length_contents]
  rfl

/-- What is in a table is in the directory, behind the place of the table. -/
theorem hasAt_place {steps : List Step} {name : String} (hname : name ∈ names) {o : Nat}
    {data : List UInt8} (h : HasAt (content steps name) o data) :
    HasAt (names.flatMap (content steps)) (place names steps name + o) data := by
  obtain ⟨back, hback⟩ : ∃ back, names.dropWhile (· != name) = name :: back := by
    induction names with
    | nil => exact nomatch hname
    | cons other rest ih =>
      by_cases heq : other = name
      · exact ⟨rest, by simp [heq]⟩
      · rw [List.dropWhile_cons_of_pos (by simpa using heq)]
        exact ih ((List.mem_cons.1 hname).resolve_left fun h => heq h.symm)
  have hsplit : names.flatMap (content steps) =
      (names.takeWhile (· != name)).flatMap (content steps) ++
        (content steps name ++ back.flatMap (content steps)) := by
    rw [← List.flatMap_cons, ← hback, ← List.flatMap_append, List.takeWhile_append_dropWhile]
  rw [HasAt, hsplit, place, ← List.drop_drop, List.drop_left, List.drop_append]
  exact h.trans (List.prefix_append _ _)

/-- The bytes are where a table gets the next ones: if nothing is put behind it and it is not aligned
before that. -/
def NextAt (data : List UInt8) (o : Nat) (name : String) (rest : List Step) : Prop :=
  ∀ middle s behind appended, rest = middle ++ s :: behind → s.appended name = some appended →
    (∀ m ∈ middle, m.appended name = none ∧ ¬ m.Aligns name) → HasAt data o appended

theorem nextAt_content {before rest : List Step} {name : String} {step : Step}
    (hnone : step.appended name = none) (halign : ¬ step.Aligns name) (hname : name ∈ names) :
    NextAt (names.flatMap (content (before ++ step :: rest)))
      (place names (before ++ step :: rest) name + (content before name).length) name rest := by
  rintro middle s behind appended rfl happended hmiddle
  refine hasAt_place hname ?_
  have hkeep : ∀ bytes, middle.foldl (Step.grow name) bytes = bytes := by
    induction middle with
    | nil => exact fun _ => rfl
    | cons m others ih =>
      obtain ⟨⟨hm, ha⟩, hothers⟩ := List.forall_mem_cons.1 hmiddle
      intro bytes
      rw [List.foldl_cons, Step.grow_of_none hm ha, ih hothers]
  have hcontent : content (before ++ step :: (middle ++ s :: behind)) name =
      behind.foldl (Step.grow name) (content before name ++ appended) := by
    rw [content, List.foldl_append, List.foldl_cons, Step.grow_of_none hnone halign,
      List.foldl_append, hkeep, List.foldl_cons, Step.grow_of_appended happended, ← content]
  obtain ⟨more, hmore⟩ := prefix_foldl_grow name behind (content before name ++ appended)
  rw [HasAt, hcontent, ← hmore, List.append_assoc, List.drop_left]
  exact List.prefix_append _ _

/-! ## What the expressions stand for -/

/-- The distance of two labels, and so many bytes more. -/
theorem resolve_distance {b : Binding} (hb : b.Constant) {l m : String} {v w : LinkValue}
    (hl : b.get? l = some (.const v)) (hm : b.get? m = some (.const w)) (n : Nat) :
    (Expr.label l - .label m + .ofSize n).resolve b = .ok (v - w + .ofSize n) := by
  rw [Expr.resolve_eq_ok, Expr.constantUnder_of_known hb]
  · show some (b.env l - b.env m + LinkValue.ofSize n) = _
    rw [Binding.env_of_get? hl, Binding.env_of_get? hm]
  · intro x hx
    change x ∈ [l, m] at hx
    rcases List.mem_pair.1 hx with rfl | rfl
    · simp [hl]
    · simp [hm]

/-- The directory at an address and the image at another give all labels of the tables values. -/
theorem Addressed.exists_binding (h : Addressed start names t) (a b : LinkValue) :
    ∃ here binding, t.concat.binding (.const a) = .ok here ∧
      here.bind start (.const b) = .ok binding ∧ binding.Constant ∧
      ∀ name ∈ names, ∀ e ∈ (t.table name).exports,
        binding.get? e.1 = some (.const (a + .ofSize (t.start name + e.2))) := by
  have haddresses : t.concat.addresses (.const a) =
      t.concat.exports.map fun e => (e.1, .const (a + .ofSize e.2)) := by
    refine List.map_congr_left fun e _ => ?_
    show (e.1, Linear.toExpr ⟨[], a + LinkValue.ofSize e.2 * 1⟩) = _
    rw [mul_one]
    rfl
  have hlabels : (t.concat.addresses (.const a)).map (·.1) = t.labels := by
    rw [haddresses, List.map_map, ← labels_concat]
    rfl
  obtain ⟨here, hhere⟩ := Binding.exists_bindAll (b := .empty) (fun _ _ => rfl)
    (hlabels ▸ h.nodup)
  have hnone : here.get? start = none := by
    rw [Binding.get?_bindAll hhere, ← Option.not_isSome_iff_eq_none]
    intro hsome
    have hmem : start ∈ t.labels := hlabels ▸ Binding.isSome_lookup.1 hsome
    exact (h.noted start hmem).2 rfl
  obtain ⟨binding, hbinding⟩ : ∃ binding, here.bind start (.const b) = .ok binding :=
    ⟨_, if_neg (by rw [hnone]; exact nofun)⟩
  have hconstant : here.Constant := Binding.constant_empty.bindAll hhere fun p hp => by
    rw [haddresses] at hp
    obtain ⟨e, -, rfl⟩ := List.mem_map.1 hp
    exact ⟨_, rfl⟩
  refine ⟨here, binding, hhere, hbinding, hconstant.bind hbinding ⟨b, rfl⟩, fun name hname e he => ?_⟩
  have hmem := mem_exports_concat (h.names_eq ▸ hname) he
  refine Binding.extends_bind hbinding _ _ (Binding.get?_bindAll_of_mem hhere ?_)
  rw [haddresses]
  exact List.mem_map.2 ⟨_, hmem, rfl⟩

/-- The end of a table, relative to the start of the image. -/
theorem resolve_rvaEnd {u : Tables} {b : Binding} (hb : b.Constant) {name : String}
    {v w : LinkValue} (hname : b.get? (u.label name).1 = some (.const v))
    (hstart : b.get? u.context.start = some (.const w)) :
    (u.rvaEnd name).1.resolve b = .ok (v - w + .ofSize (u.table name).virtSize) := by
  show (Expr.label (u.label name).1 - .label u.context.start +
    .ofSize ((u.label name).2.table name).virtSize).resolve b = _
  rw [resolve_distance hb hname hstart, virtSize_label]

/-- The end of a table, relative to the start of another one. -/
theorem resolve_offsetEnd {u : Tables} {b : Binding} (hb : b.Constant) {name base : String}
    {v w : LinkValue} (hname : b.get? (u.label name).1 = some (.const v))
    (hbase : b.get? ((u.label name).2.label base).1 = some (.const w)) :
    (u.offsetEnd name base).1.resolve b = .ok (v - w + .ofSize (u.table name).virtSize) := by
  show (Expr.label (u.label name).1 - .label ((u.label name).2.label base).1 +
    .ofSize (((u.label name).2.label base).2.table name).virtSize).resolve b = _
  rw [resolve_distance hb hname hbase, virtSize_label, virtSize_label]

/-- The label of the start of a table, once given, has the address of the place of the table in the
finished directory. -/
theorem get?_label {u : Tables} {b : Binding} {a : LinkValue} {steps rest : List Step}
    {name : String} (hfinal : t = (u.label name).2.performAll rest)
    (hplace : t.start name = place names steps name)
    (hexports : ∀ e ∈ (t.table name).exports,
      b.get? e.1 = some (.const (a + .ofSize (t.start name + e.2)))) :
    b.get? (u.label name).1 = some (.const (a + .ofSize (place names steps name))) := by
  have hmem : ((u.label name).1, 0) ∈ (t.table name).exports :=
    hfinal ▸ (u.label name).2.exports_performAll_subset rest name (u.table_label name).2
  rw [hexports _ hmem, hplace, Nat.add_zero]

theorem performAll_append (t : Tables) (before rest : List Step) :
    t.performAll (before ++ rest) = (t.performAll before).performAll rest :=
  List.foldl_append

/-- **Places named while tables grow are the right ones in the finished directory.**  After steps in
any order on any of the tables, the tables stand one behind the other, each with all that was put in it.
With that directory at an address `a` and the image at `b`, the end of a table as it was named at some
moment stands for `a - b`, the place of the table and the size it had at that moment; the end relative
to another table stands for that place less the place of the other one; and there the table gets the
bytes that are put behind it next.  That the label of the image is in use is so for every context. -/
theorem performAll_addresses (c : Context) (hstart : c.start ∈ c.pool.known) {names : List String}
    (hnames : names.Nodup) {steps : List Step} (hsteps : ∀ s ∈ steps, s.Within names)
    (a b : LinkValue) :
    let start := Tables.new c names
    let whole := (start.performAll steps).concat
    ∃ here binding, whole.binding (.const a) = .ok here ∧
      here.bind c.start (.const b) = .ok binding ∧
      whole.contents = names.flatMap (content steps) ∧
      ∀ before rest, let now := start.performAll before
        (∀ name, steps = before ++ .rvaEnd name :: rest →
          let ending := place names steps name + (now.table name).virtSize
          (now.rvaEnd name).1.resolve binding = .ok (a - b + .ofSize ending) ∧
            NextAt whole.contents ending name rest) ∧
        ∀ name base, steps = before ++ .offsetEnd name base :: rest →
          let ending := place names steps name + (now.table name).virtSize
          (now.offsetEnd name base).1.resolve binding =
              .ok (.ofSize ending - .ofSize (place names steps base)) ∧
            NextAt whole.contents ending name rest := by
  intro start whole
  have haddressed : Addressed c.start names (start.performAll steps) :=
    (addressed_new hstart names).performAll hsteps
  have hnodup : (start.performAll steps).names.Nodup := haddressed.names_eq.symm ▸ hnames
  have hcontents : whole.contents = names.flatMap (content steps) := by
    rw [contents_concat hnodup, haddressed.names_eq]
    exact List.flatMap_congr fun name _ => contents_performAll c names steps name
  obtain ⟨here, binding, hhere, hbinding, hconstant, hexports⟩ := haddressed.exists_binding a b
  have himage : binding.get? c.start = some (.const b) := Binding.get?_bind_self hbinding
  have hplace : ∀ name, (start.performAll steps).start name = place names steps name := by
    intro name
    rw [start_eq_place hnodup (contents_performAll c names steps), haddressed.names_eq]
  refine ⟨here, binding, hhere, hbinding, hcontents, fun before rest => ⟨?_, ?_⟩⟩
  · rintro name rfl
    have hname : name ∈ names := hsteps (.rvaEnd name) (by simp)
    have hnow := (addressed_new hstart names).performAll
      fun s hs => hsteps s (List.mem_append_left _ hs)
    have hlabel := get?_label (performAll_append _ _ _) (hplace name) (hexports name hname)
    refine ⟨?_, ?_⟩
    · rw [resolve_rvaEnd hconstant hlabel (hnow.start_eq ▸ himage)]
      simp only [LinkValue.ofSize, BitVec.ofNat_add]
      congr 1
      ring
    · rw [hcontents, virtSize_performAll]
      exact nextAt_content rfl id hname
  · rintro name base rfl
    obtain ⟨hname, hbase⟩ : name ∈ names ∧ base ∈ names :=
      hsteps (.offsetEnd name base) (by simp)
    -- the label of the other table is given after the first one, which stays
    have hfinal : start.performAll (before ++ .offsetEnd name base :: rest) =
        ((start.performAll before).label name).2.performAll (.rvaEnd base :: rest) :=
      performAll_append _ _ _
    have hlabel := get?_label hfinal (hplace name) (hexports name hname)
    have hbaseLabel := get?_label (u := ((start.performAll before).label name).2)
      (performAll_append _ _ _) (hplace base) (hexports base hbase)
    refine ⟨?_, ?_⟩
    · rw [resolve_offsetEnd hconstant hlabel hbaseLabel]
      simp only [LinkValue.ofSize, BitVec.ofNat_add]
      congr 1
      ring
    · rw [hcontents, virtSize_performAll]
      exact nextAt_content rfl id hname

/-- Two tables that grow by turns, one of them with zeros in between. -/
theorem performAll_addresses_byTurns :
    let c := Context.new .empty ⟨.little, false⟩
    let names := ["names", "slots"]
    let start := Tables.new c names
    let early : List Step := [.extend "names" [1], .align "names" 4]
    let middle : List Step := early ++ [.rvaEnd "names", .append "slots" (.ofBytes [2, 3])]
    let late : List Step := middle ++ [.rvaEnd "slots", .extend "names" [7], .extend "slots" [9]]
    let steps : List Step := late ++ [.offsetEnd "slots" "names"]
    (c.start ∈ c.pool.known ∧ names.Nodup ∧ ∀ s ∈ steps, s.Within names) ∧
      (start.performAll steps).concat.contents = [1, 0, 0, 0, 7, 2, 3, 9] ∧
      ∃ binding : Binding,
        ((start.performAll early).rvaEnd "names").1.resolve binding = .ok 0x1004 ∧
        ((start.performAll middle).rvaEnd "slots").1.resolve binding = .ok 0x1007 ∧
        ((start.performAll late).offsetEnd "slots" "names").1.resolve binding = .ok 8 := by
  intro c names start early middle late steps
  have hstart : c.start ∈ c.pool.known := by decide +kernel
  have hsteps : ∀ s ∈ steps, s.Within names := by
    simp [steps, late, middle, early, names, Step.Within, Buffer.ofBytes]
  obtain ⟨-, binding, -, -, hcontents, hplaces⟩ :=
    performAll_addresses c hstart (by decide : names.Nodup) hsteps 0x5000 0x4000
  refine ⟨⟨hstart, by decide, hsteps⟩, hcontents.trans (by decide +kernel), binding, ?_, ?_, ?_⟩
  · rw [((hplaces early _).1 "names" rfl).1, virtSize_performAll]
    decide +kernel
  · rw [((hplaces middle _).1 "slots" rfl).1, virtSize_performAll]
    decide +kernel
  · rw [((hplaces late _).2 "slots" "names" rfl).1, virtSize_performAll]
    decide +kernel

end PortableImage.Tables
