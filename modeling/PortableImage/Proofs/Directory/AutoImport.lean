import Mathlib.Data.List.Induction
import PortableImage.AutoImport
import PortableImage.Proofs.Labels.Pool

/-!
# What automatic imports make of the references

Every reference to a symbol of the catalogue that no section defines is a request.  Starting without
imports, the requests are served one after the other: each symbol is imported once, from the library
of the catalogue, and its slot has a fresh label that is made from the first reference to it.

* `requests` — the requests of the sections, in order.
* `AutoImport.request_cases` — what one request does.
* `autoImport_serve` — the run is one request after the other.
* `AutoImport.Serves` — the imports are those of the requests so far; `Serves.request` is one request
  more.
* `serves_autoImport` — the imports of all requests.
-/

set_option autoImplicit false

namespace PortableImage

open LabelPool

/-! ## Requests -/

/-- What a field with the target asks for: a reference to a symbol that is not defined, and the library
of the symbol. -/
def Catalog.asks (catalog : Catalog) (defined : List String) (target : Expr) :
    Option (Reference × String) :=
  (classify target).bind fun r =>
    if r.symbol ∈ defined then none else (catalog.lookup r.symbol).map fun library => (r, library)

/-- What the pending fields of the sections ask for, in order. -/
def requests (sections : List Section) (catalog : Catalog) : List (Reference × String) :=
  sections.flatMap fun s => s.content.fields.entries.flatMap fun e =>
    (catalog.asks (definedLabels sections) e.2.target).toList

theorem Catalog.asks_eq_some {catalog : Catalog} {defined : List String} {target : Expr}
    {q : Reference × String} : catalog.asks defined target = some q ↔
      classify target = some q.1 ∧ q.1.symbol ∉ defined ∧ catalog.lookup q.1.symbol = some q.2 := by
  obtain ⟨r, library⟩ := q
  rw [asks, Option.bind_eq_some_iff]
  constructor
  · rintro ⟨r', hr, hq⟩
    split at hq
    · exact nomatch hq
    · next hdefined =>
      obtain ⟨library', hlookup, heq⟩ := Option.map_eq_some_iff.1 hq
      cases heq
      exact ⟨hr, hdefined, hlookup⟩
  · rintro ⟨hr, hdefined, hlookup⟩
    exact ⟨r, hr, by rw [if_neg hdefined, hlookup]; rfl⟩

theorem mem_requests {sections : List Section} {catalog : Catalog} {q : Reference × String} :
    q ∈ requests sections catalog ↔ ∃ s ∈ sections, ∃ e ∈ s.content.fields.entries,
      classify e.2.target = some q.1 ∧ q.1.symbol ∉ definedLabels sections ∧
        catalog.lookup q.1.symbol = some q.2 := by
  simp only [requests, List.mem_flatMap, Option.mem_toList, Catalog.asks_eq_some]

/-! ## One request -/

/-- The first match is changed where it stands; where there is none, what is new comes last. -/
theorem exists_split_updateFirst {α β : Type} (p : α → Bool) (new : α) (change : α → α × β)
    (l : List α) : ∃ before a behind,
      updateFirst p new change l = (before ++ (change a).1 :: behind, (change a).2) ∧
      (∀ x ∈ before, p x = false) ∧
      ((l = before ++ a :: behind ∧ p a = true) ∨ (l = before ∧ behind = [] ∧ a = new)) := by
  induction l with
  | nil => exact ⟨[], new, [], rfl, fun _ hx => (nomatch hx), .inr ⟨rfl, rfl, rfl⟩⟩
  | cons x rest ih =>
    rw [updateFirst]
    cases hx : p x with
    | true => exact ⟨[], x, rest, rfl, fun _ hx => (nomatch hx), .inl ⟨rfl, hx⟩⟩
    | false =>
      obtain ⟨before, a, behind, heq, hbefore, hl⟩ := ih
      refine ⟨x :: before, a, behind, ?_, List.forall_mem_cons.2 ⟨hx, hbefore⟩, ?_⟩
      · rw [heq]
        rfl
      · obtain ⟨rfl, ha⟩ | ⟨rfl, rfl, rfl⟩ := hl
        · exact .inl ⟨rfl, ha⟩
        · exact .inr ⟨rfl, rfl, rfl⟩

/-- Where the first match is changed to itself, nothing is. -/
theorem updateFirst_of_find? {α β : Type} {p : α → Bool} (new : α) {change : α → α × β} {l : List α}
    {a : α} (ha : l.find? p = some a) (hchange : (change a).1 = a) :
    (updateFirst p new change l).1 = l := by
  induction l with
  | nil => cases ha
  | cons x rest ih =>
    rw [List.find?_cons] at ha
    rw [updateFirst]
    cases hx : p x with
    | true =>
      rw [hx] at ha
      cases ha
      rw [if_pos rfl]
      exact congrArg (· :: rest) hchange
    | false =>
      rw [hx] at ha
      rw [if_neg Bool.false_ne_true]
      exact congrArg (x :: ·) (ih ha)

namespace Import

/-- An import that has a label for its slot keeps it. -/
theorem connect_of_target {i : Import} {target : String} (h : i.target = some target)
    (pool : LabelPool) (r : Reference) : (i.connect pool r).1.name = i.name ∧
      (i.connect pool r).1.target = i.target ∧ (i.connect pool r).2.1 = pool := by
  obtain ⟨name, ordinal, hint, thunk, target'⟩ := i
  obtain rfl : target' = some target := h
  unfold connect
  split <;> exact ⟨rfl, rfl, rfl⟩

/-- A new import gets a fresh label for its slot. -/
theorem connect_byName (pool : LabelPool) (r : Reference) (symbol : String) :
    ((byName symbol).connect pool r).1.name = some symbol ∧
      ((byName symbol).connect pool r).1.target = some (pool.fresh (slotHint r)).1 ∧
      ((byName symbol).connect pool r).2.1 = (pool.fresh (slotHint r)).2 := by
  have hfree : (byName symbol).conflicts r = false := by
    cases r <;> rfl
  unfold connect
  rw [hfree]
  exact ⟨rfl, rfl, rfl⟩

end Import

namespace AutoImport

/-- The libraries so far. -/
def dirs (st : AutoImport) : List ImportDirectory := st.imports.getD []

/-- The imports of all libraries. -/
def imported (dirs : List ImportDirectory) : List Import := dirs.flatMap (·.imports)

theorem mem_imported {dirs : List ImportDirectory} {i : Import} :
    i ∈ imported dirs ↔ ∃ d ∈ dirs, i ∈ d.imports :=
  List.mem_flatMap

/-- The first library that has the name. -/
def find (name : String) (dirs : List ImportDirectory) : Option ImportDirectory :=
  dirs.find? fun d => libraryMatches d.library name

/-- The library is there, as the first one that has the name; or it is a new one behind the others. -/
def Chosen (name : String) (dirs before : List ImportDirectory) (d : ImportDirectory)
    (behind : List ImportDirectory) : Prop :=
  (∀ x ∈ before, libraryMatches x.library name = false) ∧ libraryMatches d.library name = true ∧
    (dirs = before ++ d :: behind ∨ (dirs = before ∧ behind = [] ∧ d = .new name))

section Chosen

variable {name other : String} {dirs before behind : List ImportDirectory} {d e : ImportDirectory}

theorem find_append (name : String) (before behind : List ImportDirectory) :
    find name (before ++ behind) = (find name before).or (find name behind) :=
  List.find?_append

theorem find_cons (name : String) (d : ImportDirectory) (behind : List ImportDirectory) :
    find name (d :: behind) = if libraryMatches d.library name then some d else find name behind := by
  rw [find, List.find?_cons]
  cases libraryMatches d.library name <;> rfl

theorem Chosen.imported_eq (h : Chosen name dirs before d behind) :
    imported dirs = imported before ++ (d.imports ++ imported behind) := by
  obtain ⟨-, -, rfl | ⟨rfl, rfl, rfl⟩⟩ := h
  · rw [imported, List.flatMap_append, List.flatMap_cons]
    rfl
  · exact (List.append_nil _).symm

theorem Chosen.mem (h : Chosen name dirs before d behind) {i : Import} (hi : i ∈ d.imports) :
    d ∈ dirs := by
  obtain ⟨-, -, rfl | ⟨-, -, rfl⟩⟩ := h
  · exact List.mem_append_right _ List.mem_cons_self
  · exact nomatch hi

theorem Chosen.mem_others (h : Chosen name dirs before d behind) (he : e ∈ before ++ behind) :
    e ∈ dirs := by
  obtain ⟨-, -, rfl | ⟨rfl, rfl, -⟩⟩ := h
  · rw [List.mem_append] at he ⊢
    exact he.imp_right (List.mem_cons_of_mem _)
  · rwa [List.append_nil] at he

theorem Chosen.find_before (h : Chosen name dirs before d behind) : find name before = none :=
  List.find?_eq_none.2 fun x hx => by simp [h.1 x hx]

/-- It is the one that is found. -/
theorem Chosen.eq_of_find (h : Chosen name dirs before d behind) (he : find name dirs = some e) :
    e = d := by
  have hnone := h.find_before
  obtain ⟨-, hd, rfl | ⟨rfl, -, -⟩⟩ := h
  · rw [find_append, hnone, Option.none_or, find_cons, if_pos hd] at he
    exact (Option.some.inj he).symm
  · exact nomatch hnone.symm.trans he

/-- With other imports it is still found. -/
theorem Chosen.find_imports (h : Chosen name dirs before d behind) (imports : List Import) :
    find name (before ++ { d with imports } :: behind) = some { d with imports } := by
  rw [find_append, h.find_before, Option.none_or, find_cons]
  exact if_pos h.2.1

/-- What was found by some name still is, with other imports if it is the chosen one. -/
theorem Chosen.find_of_find (h : Chosen name dirs before d behind) (imports : List Import)
    (he : find other dirs = some e) :
    find other (before ++ { d with imports } :: behind) = some e ∨
      (e = d ∧ find other (before ++ { d with imports } :: behind) = some { d with imports }) := by
  obtain ⟨-, -, rfl | ⟨rfl, -, -⟩⟩ := h
  · rw [find_append, find_cons] at he ⊢
    cases hfront : find other before with
    | some x =>
      rw [hfront] at he
      exact .inl he
    | none =>
      rw [hfront, Option.none_or] at he
      dsimp only
      rw [Option.none_or]
      split at he
      · next hd => exact .inr ⟨(Option.some.inj he).symm, if_pos hd⟩
      · next hd => exact .inl ((if_neg hd).trans he)
  · exact .inl (by rw [find_append, he, Option.some_or])

end Chosen

/-- **A request goes to one import of one library**: to the first of that name, or to a new one. -/
theorem request_cases {st : AutoImport} {r : Reference} {library : String}
    (h : ∀ d ∈ st.dirs, d.imports? r.symbol = true → libraryMatches d.library library = true) :
    ∃ before d behind front i rest,
      (st.request r library).imports = some (before ++
        { d with imports := front ++ (i.connect st.pool r).1 :: rest } :: behind) ∧
      (st.request r library).pool = (i.connect st.pool r).2.1 ∧
      Chosen library st.dirs before d behind ∧ (∀ x ∈ front, x.name ≠ some r.symbol) ∧
      ((d.imports = front ++ i :: rest ∧ i.name = some r.symbol) ∨
        (d.imports = front ∧ rest = [] ∧ i = .byName r.symbol)) := by
  have hhere : st.dirs.find? (fun d => !libraryMatches d.library library && d.imports? r.symbol) =
      none := by
    refine List.find?_eq_none.2 fun d hd hother => ?_
    rw [Bool.and_eq_true, Bool.not_eq_true'] at hother
    rw [h d hd hother.2] at hother
    exact nomatch hother.1
  obtain ⟨before, d, behind, hdirs, hbefore, hd⟩ :=
    exists_split_updateFirst (fun (d : ImportDirectory) => libraryMatches d.library library)
      (.new library) (ImportDirectory.request st.pool r library) st.dirs
  obtain ⟨front, i, rest, himports, hfront, hi⟩ :=
    exists_split_updateFirst (fun (i : Import) => i.name == some r.symbol) (.byName r.symbol)
      (Import.connect st.pool r) d.imports
  rw [dirs] at hhere hdirs
  have hrequest : d.request st.pool r library = ({ d with
      imports := front ++ (i.connect st.pool r).1 :: rest }, (i.connect st.pool r).2.1,
      (if d.imports? r.symbol then [] else [.symbolImported r.symbol library]) ++
        (i.connect st.pool r).2.2) := by
    rw [ImportDirectory.request, himports]
  refine ⟨before, d, behind, front, i, rest, ?_, ?_, ⟨hbefore, ?_, ?_⟩, ?_, ?_⟩
  · rw [request, hhere]
    dsimp only
    rw [hdirs, hrequest]
  · rw [request, hhere]
    dsimp only
    rw [hdirs, hrequest]
  · obtain ⟨-, hd⟩ | ⟨-, -, rfl⟩ := hd
    · exact hd
    · simp [libraryMatches, ImportDirectory.new]
  · exact hd.imp_left And.left
  · exact fun x hx heq => by simpa [heq] using hfront x hx
  · exact hi.imp_left fun ⟨heq, hname⟩ => ⟨heq, eq_of_beq hname⟩

/-! ## The run -/

/-- Serves requests one after the other. -/
def serve (st : AutoImport) (asked : List (Reference × String)) : AutoImport :=
  asked.foldl (fun st q => st.request q.1 q.2) st

theorem serve_append (st : AutoImport) (asked more : List (Reference × String)) :
    st.serve (asked ++ more) = (st.serve asked).serve more :=
  List.foldl_append

theorem serve_concat (st : AutoImport) (asked : List (Reference × String))
    (q : Reference × String) : st.serve (asked ++ [q]) = (st.serve asked).request q.1 q.2 :=
  st.serve_append asked [q]

/-- The two differ in what was noted at most. -/
structure Alike (st st' : AutoImport) : Prop where
  pool : st.pool = st'.pool
  imports : st.imports = st'.imports

theorem Alike.request {st st' : AutoImport} (h : st.Alike st') (r : Reference) (library : String) :
    (st.request r library).Alike (st'.request r library) := by
  obtain ⟨pool, imports, log⟩ := st
  obtain ⟨pool', imports', log'⟩ := st'
  obtain ⟨rfl, rfl⟩ := h
  unfold AutoImport.request
  dsimp only
  split <;> exact ⟨rfl, rfl⟩

theorem Alike.field {st st' : AutoImport} (h : st.Alike st') (catalog : Catalog)
    (defined : List String) (name : String) (target : Expr) :
    (st.field catalog defined name target).Alike
      (st'.serve (catalog.asks defined target).toList) := by
  unfold AutoImport.field Catalog.asks
  cases classify target with
  | none => exact ⟨h.pool, h.imports⟩
  | some r =>
    dsimp only [Option.bind_some]
    split
    · exact h
    · cases catalog.lookup r.symbol with
      | none => exact h
      | some library => exact h.request r library

theorem Alike.foldl {α : Type} {step : AutoImport → α → AutoImport}
    {asks : α → List (Reference × String)}
    (hstep : ∀ a st st', Alike st st' → (step st a).Alike (st'.serve (asks a))) (l : List α)
    {st st' : AutoImport} (h : st.Alike st') :
    (l.foldl step st).Alike (st'.serve (l.flatMap asks)) := by
  induction l generalizing st st' with
  | nil => exact h
  | cons a rest ih =>
    rw [List.flatMap_cons, serve_append]
    exact ih (hstep a st st' h)

end AutoImport

/-- **Automatic imports serve the requests one after the other.** -/
theorem autoImport_serve (pool : LabelPool) (sections : List Section)
    (imports : Option (List ImportDirectory)) (catalog : Catalog) :
    (autoImport pool sections imports catalog).Alike
      (AutoImport.serve ⟨pool, imports, []⟩ (requests sections catalog)) := by
  have hfield : ∀ (s : Section) (e : Nat × PendingField) (st st' : AutoImport), st.Alike st' →
      (st.field catalog (definedLabels sections) s.name e.2.target).Alike
        (st'.serve (catalog.asks (definedLabels sections) e.2.target).toList) :=
    fun s e _ _ h => h.field catalog _ s.name e.2.target
  unfold autoImport requests
  exact AutoImport.Alike.foldl
    (fun s _ _ h => AutoImport.Alike.foldl (hfield s) s.content.fields.entries h) sections ⟨rfl, rfl⟩

namespace AutoImport

/-! ## All requests -/

/-- The labels of the slots. -/
def slots (dirs : List ImportDirectory) : List (Option String) := (imported dirs).map (·.target)

/-- The import serves one of the requests: its slot has a label that is made from the reference. -/
def ServesOne (asked : List (Reference × String)) (pool : LabelPool) (library : String)
    (i : Import) : Prop :=
  ∃ q ∈ asked, ∃ target, i.name = some q.1.symbol ∧ libraryMatches library q.2 = true ∧
    i.target = some target ∧ NamedAfter (Import.slotHint q.1) target ∧
    sanitize (Import.slotHint q.1) ∈ pool.known

/-- The imports are those of the requests, the labels of their slots have been added to the pool. -/
structure Serves (p : LabelPool) (asked : List (Reference × String)) (pool : LabelPool)
    (dirs : List ImportDirectory) : Prop where
  /-- Every symbol is imported from the first library that has the name in the catalogue. -/
  served : ∀ q ∈ asked, ∃ d, find q.2 dirs = some d ∧ ∃ i ∈ d.imports, i.name = some q.1.symbol
  /-- There are no other imports. -/
  serves : ∀ d ∈ dirs, ∀ i ∈ d.imports, ServesOne asked pool d.library i
  names : ((imported dirs).map (·.name)).Nodup
  targets : (slots dirs).Nodup
  known : ∀ l, l ∈ pool.known ↔ l ∈ p.known ∨ some l ∈ slots dirs
  fresh : ∀ l, some l ∈ slots dirs → l ∉ p.known

variable {p pool pool' : LabelPool} {asked asked' : List (Reference × String)} {catalog : Catalog}

theorem serves_nil (p : LabelPool) : Serves p [] p [] :=
  ⟨fun _ hq => (nomatch hq), fun _ hd => (nomatch hd), .nil, .nil,
    fun _ => ⟨.inl, fun h => h.elim id fun h => nomatch h⟩, fun _ h => nomatch h⟩

theorem ServesOne.mono {library : String} {i : Import} (h : ServesOne asked pool library i)
    (hasked : asked ⊆ asked') (hknown : pool.known ⊆ pool'.known) :
    ServesOne asked' pool' library i := by
  obtain ⟨q, hq, target, hname, hmatch, htarget, hnamed, hhint⟩ := h
  exact ⟨q, hasked hq, target, hname, hmatch, htarget, hnamed, hknown hhint⟩

/-- All symbols are asked for from the libraries that the catalogue finds them in. -/
def FromCatalog (catalog : Catalog) (asked : List (Reference × String)) : Prop :=
  ∀ q ∈ asked, catalog.lookup q.1.symbol = some q.2

/-- Where the imports of the chosen library are replaced by others, among them one for a request. -/
theorem Serves.replace {dirs before behind : List ImportDirectory} {d : ImportDirectory}
    {name : String} {i : Import} (imports : List Import) (h : Serves p asked pool dirs)
    (hchosen : Chosen name dirs before d behind) (hasked : asked ⊆ asked')
    (hknown : pool.known ⊆ pool'.known) (hmem : i ∈ imports)
    (hkept : ∀ j ∈ d.imports, j ∈ imports ∨ j.name = i.name)
    (hothers : ∀ j ∈ imports, j ∈ d.imports ∨ j = i)
    (hone : ServesOne asked' pool' d.library i) :
    (∀ q ∈ asked, ∃ e, find q.2 (before ++ { d with imports } :: behind) = some e ∧
      ∃ j ∈ e.imports, j.name = some q.1.symbol) ∧
    ∀ e ∈ before ++ { d with imports } :: behind, ∀ j ∈ e.imports,
      ServesOne asked' pool' e.library j := by
  have hserves : ∀ e ∈ dirs, ∀ j ∈ e.imports, ServesOne asked' pool' e.library j :=
    fun e he j hj => (h.serves e he j hj).mono hasked hknown
  constructor
  · intro q hq
    obtain ⟨e, he, j, hj, hsymbol⟩ := h.served q hq
    obtain hfound | ⟨rfl, hfound⟩ := hchosen.find_of_find imports he
    · exact ⟨e, hfound, j, hj, hsymbol⟩
    · rcases hkept j hj with hj | hsame
      · exact ⟨_, hfound, j, hj, hsymbol⟩
      · exact ⟨_, hfound, i, hmem, hsame.symm.trans hsymbol⟩
  · intro e he j hj
    rcases List.mem_append.1 he with he | he
    · exact hserves e (hchosen.mem_others (List.mem_append_left _ he)) j hj
    · rcases List.mem_cons.1 he with rfl | he
      · rcases hothers j hj with hj | rfl
        · exact hserves d (hchosen.mem hj) j hj
        · exact hone
      · exact hserves e (hchosen.mem_others (List.mem_append_right _ he)) j hj

theorem imported_replace (before behind : List ImportDirectory) (d : ImportDirectory)
    (imports : List Import) : imported (before ++ { d with imports } :: behind) =
      imported before ++ (imports ++ imported behind) := by
  rw [imported, List.flatMap_append, List.flatMap_cons]
  rfl

section Changes

variable {dirs before behind : List ImportDirectory} {d : ImportDirectory} {name : String}
  {front rest : List Import} {i i' : Import}

/-- Where nothing but a call stub changes. -/
theorem Serves.again (h : Serves p asked pool dirs) (hchosen : Chosen name dirs before d behind)
    (himports : d.imports = front ++ i :: rest) (hname : i'.name = i.name)
    (htarget : i'.target = i.target) :
    Serves p asked pool (before ++ { d with imports := front ++ i' :: rest } :: behind) := by
  have hi : i ∈ d.imports := himports ▸ List.mem_append_right _ List.mem_cons_self
  have hone : ServesOne asked pool d.library i' := by
    have hone := h.serves d (hchosen.mem hi) i hi
    unfold ServesOne at hone ⊢
    rwa [hname, htarget]
  have hnames : (imported (before ++ { d with imports := front ++ i' :: rest } :: behind)).map
      (·.name) = (imported dirs).map (·.name) := by
    simp only [imported_replace, hchosen.imported_eq, himports, List.map_append, List.map_cons, hname]
  have hslots : slots (before ++ { d with imports := front ++ i' :: rest } :: behind) =
      slots dirs := by
    simp only [slots, imported_replace, hchosen.imported_eq, himports, List.map_append,
      List.map_cons, htarget]
  obtain ⟨hserved, hserves⟩ := h.replace (front ++ i' :: rest) hchosen
    (List.Subset.refl _) (List.Subset.refl _) (List.mem_append_right _ List.mem_cons_self)
    (fun j hj => by
      rw [himports, List.mem_append, List.mem_cons] at hj
      rw [List.mem_append, List.mem_cons]
      obtain hj | rfl | hj := hj
      · exact .inl (.inl hj)
      · exact .inr hname.symm
      · exact .inl (.inr (.inr hj)))
    (fun j hj => by
      rw [List.mem_append, List.mem_cons] at hj
      rw [himports, List.mem_append, List.mem_cons]
      obtain hj | rfl | hj := hj
      · exact .inl (.inl hj)
      · exact .inr rfl
      · exact .inl (.inr (.inr hj))) hone
  exact ⟨hserved, hserves, hnames ▸ h.names, hslots ▸ h.targets, hslots ▸ h.known,
    hslots ▸ h.fresh⟩

/-- Where an import is added. -/
theorem Serves.add (h : Serves p asked pool dirs) (hchosen : Chosen name dirs before d behind)
    {r : Reference} (hname : i.name = some r.symbol)
    (htarget : i.target = some (pool.fresh (Import.slotHint r)).1)
    (hnew : ∀ j ∈ imported dirs, j.name ≠ some r.symbol) :
    Serves p (asked ++ [(r, name)]) (pool.fresh (Import.slotHint r)).2
      (before ++ { d with imports := d.imports ++ [i] } :: behind) := by
  have hknown : pool.known ⊆ (pool.fresh (Import.slotHint r)).2.known := by
    rw [known_fresh]
    exact List.subset_cons_self _ _
  have hperm : (imported (before ++ { d with imports := d.imports ++ [i] } :: behind)).Perm
      (i :: imported dirs) := by
    rw [imported_replace, hchosen.imported_eq, List.append_assoc, ← List.append_assoc (imported before),
      ← List.append_assoc (imported before)]
    exact List.perm_middle
  have hslots : (slots (before ++ { d with imports := d.imports ++ [i] } :: behind)).Perm
      (some (pool.fresh (Import.slotHint r)).1 :: slots dirs) := by
    have hmap := hperm.map (·.target)
    rwa [List.map_cons, htarget] at hmap
  have hfresh : (pool.fresh (Import.slotHint r)).1 ∉ pool.known := pool.fresh_notMem _
  have hone : ServesOne (asked ++ [(r, name)]) (pool.fresh (Import.slotHint r)).2 d.library i :=
    ⟨(r, name), List.mem_append_right _ (List.mem_singleton.2 rfl), _, hname, hchosen.2.1, htarget,
      pool.namedAfter_fresh _, pool.sanitize_mem_fresh _⟩
  obtain ⟨hserved, hserves⟩ := h.replace (d.imports ++ [i]) hchosen
    (List.subset_append_left _ _) hknown (List.mem_append_right _ (List.mem_singleton.2 rfl))
    (fun j hj => .inl (List.mem_append_left _ hj))
    (fun j hj => (List.mem_append.1 hj).imp_right List.mem_singleton.1) hone
  refine ⟨?_, hserves, ?_, ?_, fun l => ?_, fun l hl => ?_⟩
  · intro q hq
    rcases List.mem_append.1 hq with hq | hq
    · exact hserved q hq
    · rw [List.mem_singleton.1 hq]
      exact ⟨_, hchosen.find_imports _, i, List.mem_append_right _ (List.mem_singleton.2 rfl), hname⟩
  · rw [(hperm.map (·.name)).nodup_iff, List.map_cons, List.nodup_cons]
    refine ⟨fun hmem => ?_, h.names⟩
    obtain ⟨j, hj, heq⟩ := List.mem_map.1 hmem
    exact hnew j hj (heq.trans hname)
  · rw [hslots.nodup_iff, List.nodup_cons]
    exact ⟨fun hmem => hfresh ((h.known _).2 (.inr hmem)), h.targets⟩
  · rw [known_fresh, List.mem_cons, h.known, hslots.mem_iff, List.mem_cons, Option.some.injEq]
    exact or_left_comm
  · rcases List.mem_cons.1 (hslots.mem_iff.1 hl) with heq | hl
    · rw [Option.some.inj heq]
      exact fun hp => hfresh ((h.known _).2 (.inl hp))
    · exact h.fresh l hl

end Changes

/-- **One request more.**  If the symbol is imported, its slot keeps the label; otherwise it is
imported, and a fresh label for its slot is noted. -/
theorem Serves.request {st : AutoImport} (h : Serves p asked st.pool st.dirs)
    {r : Reference} {library : String} (hcatalog : FromCatalog catalog (asked ++ [(r, library)])) :
    Serves p (asked ++ [(r, library)]) (st.request r library).pool (st.request r library).dirs := by
  have hlast : (r, library) ∈ asked ++ [(r, library)] :=
    List.mem_append_right _ (List.mem_singleton.2 rfl)
  have hmore : asked ⊆ asked ++ [(r, library)] := List.subset_append_left _ _
  have hsame : ∀ q ∈ asked, q.1.symbol = r.symbol → q.2 = library := fun q hq heq => by
    have hq' := hcatalog q (hmore hq)
    rw [heq, hcatalog _ hlast] at hq'
    exact (Option.some.inj hq').symm
  -- an import of the symbol is in a library of that name, and then in the first of them
  have hhere : ∀ d ∈ st.dirs, ∀ i ∈ d.imports, i.name = some r.symbol →
      libraryMatches d.library library = true ∧ ∃ e, find library st.dirs = some e ∧
        ∃ j ∈ e.imports, j.name = some r.symbol := by
    intro d hd i hi hname
    obtain ⟨q, hq, -, hsymbol, hmatch, -⟩ := h.serves d hd i hi
    rw [hname, Option.some.injEq] at hsymbol
    have hserved := h.served q hq
    rw [hsame q hq hsymbol.symm] at hmatch hserved
    rw [← hsymbol] at hserved
    exact ⟨hmatch, hserved⟩
  obtain ⟨before, d, behind, front, i, rest, hdirs, hpool, hchosen, hfront, hi⟩ :=
    request_cases (r := r) fun d hd hany => by
      obtain ⟨i, hi, hname⟩ := List.any_eq_true.1 hany
      exact (hhere d hd i hi (eq_of_beq hname)).1
  have hdirs' : (st.request r library).dirs = before ++
      { d with imports := front ++ (i.connect st.pool r).1 :: rest } :: behind := by
    rw [dirs, hdirs, Option.getD_some]
  rw [hdirs', hpool]
  obtain ⟨himports, hname⟩ | ⟨rfl, rfl, rfl⟩ := hi
  · have hi : i ∈ d.imports := himports ▸ List.mem_append_right _ List.mem_cons_self
    obtain ⟨-, -, target, -, -, htarget, -⟩ := h.serves d (hchosen.mem hi) i hi
    obtain ⟨hname', htarget', hpool'⟩ := Import.connect_of_target htarget st.pool r
    rw [hpool']
    have hagain := h.again hchosen himports hname' htarget'
    refine { hagain with served := fun q hq => ?_, serves := fun e he j hj =>
      (hagain.serves e he j hj).mono hmore (List.Subset.refl _) }
    rcases List.mem_append.1 hq with hq | hq
    · exact hagain.served q hq
    · rw [List.mem_singleton.1 hq]
      exact ⟨_, hchosen.find_imports _, _, List.mem_append_right _ List.mem_cons_self,
        hname'.trans hname⟩
  · obtain ⟨hname, htarget, hpool'⟩ := Import.connect_byName st.pool r r.symbol
    rw [hpool']
    refine h.add hchosen hname htarget fun j hj hsymbol => ?_
    obtain ⟨e, he, hj⟩ := mem_imported.1 hj
    obtain ⟨-, e', he', j', hj', hsymbol'⟩ := hhere e he j hj hsymbol
    rw [hchosen.eq_of_find he'] at hj'
    exact hfront j' hj' hsymbol'

/-- **All requests.** -/
theorem Serves.serve {st : AutoImport} (h : Serves p [] st.pool st.dirs)
    (hcatalog : FromCatalog catalog asked) :
    Serves p asked (st.serve asked).pool (st.serve asked).dirs := by
  induction asked using List.reverseRecOn with
  | nil => exact h
  | append_singleton asked q ih =>
    rw [serve_concat]
    exact (ih fun q hq => hcatalog q (List.mem_append_left _ hq)).request hcatalog

end AutoImport

theorem fromCatalog_requests (sections : List Section) (catalog : Catalog) :
    AutoImport.FromCatalog catalog (requests sections catalog) := fun _ hq => by
  obtain ⟨-, -, -, -, -, -, hlookup⟩ := mem_requests.1 hq
  exact hlookup

/-- **Without imports to start with, automatic imports serve the requests of the sections**, and
nothing else. -/
theorem serves_autoImport (pool : LabelPool) (sections : List Section) (catalog : Catalog) :
    AutoImport.Serves pool (requests sections catalog)
      (autoImport pool sections none catalog).pool (autoImport pool sections none catalog).dirs := by
  obtain ⟨hpool, himports⟩ := autoImport_serve pool sections none catalog
  rw [hpool, AutoImport.dirs, himports]
  exact (AutoImport.serves_nil pool).serve (fromCatalog_requests sections catalog)

end PortableImage
