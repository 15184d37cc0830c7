import PortableImage.Proofs.Directory.AutoImport
import PortableImage.Proofs.Keeping

/-!
# Places of imports

An image may have imports before automatic ones are made.  A request finds the place of one import, or
makes a new place behind the others, and gives the import there the labels that it has not.  Nothing
that is set is changed, and all other imports are as they were.

## What is here

* `Import.Keeps`, `ImportDirectory.Keeps` — what is set stays; `Import.connect_cases` is what can be
  added to one import.
* `Import.connect_apart` — an import has not one label for its slot and its call stub.
* `importAt` — the import at a place; `AutoImport.Put` is what a request does to the places.
* `AutoImport.Settled` — a request that has been served.
* `put_request` — one request; `keeps_autoImport` is what the run keeps.
-/

set_option autoImplicit false

namespace PortableImage

open LabelPool

/-! ## One import -/

/-- The label of the call stub that a reference asks for. -/
def Reference.stub? : Reference → Option String
  | slot _ _ => none
  | stub symbol => some symbol

namespace Import

/-- What is set about the import stays.  Labels may be added. -/
structure Keeps (i i' : Import) : Prop where
  name : i'.name = i.name
  ordinal : i'.ordinal = i.ordinal
  hint : i'.hint = i.hint
  target : ∀ l, i.target = some l → i'.target = some l
  thunk : ∀ l, i.thunk = some l → i'.thunk = some l

theorem Keeps.refl (i : Import) : i.Keeps i := ⟨rfl, rfl, rfl, fun _ h => h, fun _ h => h⟩

theorem Keeps.trans (i j k : Import) (hij : i.Keeps j) (hjk : j.Keeps k) : i.Keeps k where
  name := hjk.name.trans hij.name
  ordinal := hjk.ordinal.trans hij.ordinal
  hint := hjk.hint.trans hij.hint
  target l h := hjk.target l (hij.target l h)
  thunk l h := hjk.thunk l (hij.thunk l h)

/-- The import cannot be reached the way the reference asks for, or it has the labels for that. -/
def Settled (r : Reference) (i : Import) : Prop :=
  i.conflicts r = true ∨
    (∃ l, i.target = some l) ∧ ∀ symbol, r.stub? = some symbol → ∃ l, i.thunk = some l

theorem conflicts_slot {i : Import} {symbol label : String} :
    i.conflicts (.slot symbol label) = true ↔
      (∃ l, i.target = some l ∧ l ≠ label) ∨ i.thunk = some label := by
  simp only [conflicts, Bool.or_eq_true, Option.any_eq_true, bne_iff_ne, beq_iff_eq]

theorem conflicts_stub {i : Import} {symbol : String} :
    i.conflicts (.stub symbol) = true ↔
      (∃ l, i.thunk = some l ∧ l ≠ symbol) ∨ i.target = some symbol := by
  simp only [conflicts, Bool.or_eq_true, Option.any_eq_true, bne_iff_ne, beq_iff_eq]

theorem Settled.mono {r : Reference} {i i' : Import} (hkeeps : i.Keeps i') (h : i.Settled r) :
    i'.Settled r := by
  obtain hconflicts | ⟨⟨l, hl⟩, hstub⟩ := h
  · left
    cases r with
    | slot symbol label =>
      rw [conflicts_slot] at hconflicts ⊢
      obtain ⟨l, hl, hne⟩ | hl := hconflicts
      · exact .inl ⟨l, hkeeps.target l hl, hne⟩
      · exact .inr (hkeeps.thunk label hl)
    | stub symbol =>
      rw [conflicts_stub] at hconflicts ⊢
      obtain ⟨l, hl, hne⟩ | hl := hconflicts
      · exact .inl ⟨l, hkeeps.thunk l hl, hne⟩
      · exact .inr (hkeeps.target symbol hl)
  · refine .inr ⟨⟨l, hkeeps.target l hl⟩, fun symbol hr => ?_⟩
    obtain ⟨l, hl⟩ := hstub symbol hr
    exact ⟨l, hkeeps.thunk l hl⟩

section Connect

variable {pool : LabelPool} {r : Reference} {i : Import}

/-- **What connecting an import can do**: nothing, or give it the labels that it has not.  The label of
a slot that has none is a fresh one. -/
theorem connect_cases (pool : LabelPool) (r : Reference) (i : Import) :
    (i.conflicts r = true ∧ (i.connect pool r).1 = i ∧ (i.connect pool r).2.1 = pool) ∨
    (i.conflicts r = false ∧ ∃ l,
      (i.connect pool r).1 = { i with target := some l, thunk := i.thunk.or r.stub? } ∧
      ((i.target = some l ∧ (i.connect pool r).2.1 = pool) ∨
        (i.target = none ∧ l = (pool.fresh (slotHint r)).1 ∧
          (i.connect pool r).2.1 = (pool.fresh (slotHint r)).2))) := by
  obtain ⟨name, ordinal, hint, thunk, target⟩ := i
  unfold connect
  split
  · next h => exact .inl ⟨h, rfl, rfl⟩
  · next h =>
    refine .inr ⟨Bool.eq_false_iff.2 h, ?_⟩
    cases target with
    | some target =>
      refine ⟨target, ?_, .inl ⟨rfl, rfl⟩⟩
      cases thunk <;> cases r <;> rfl
    | none =>
      refine ⟨_, ?_, .inr ⟨rfl, rfl, rfl⟩⟩
      cases thunk <;> cases r <;> rfl

theorem keeps_connect (pool : LabelPool) (r : Reference) (i : Import) :
    i.Keeps (i.connect pool r).1 := by
  obtain ⟨-, hsame, -⟩ | ⟨-, l, himport, htarget⟩ := connect_cases pool r i
  · rw [hsame]
    exact .refl i
  · rw [himport]
    refine ⟨rfl, rfl, rfl, fun l' hl' => ?_, fun l' hl' => ?_⟩
    · obtain ⟨hl, -⟩ | ⟨hnone, -⟩ := htarget
      · exact hl.symm.trans hl'
      · rw [hnone] at hl'
        cases hl'
    · show i.thunk.or r.stub? = some l'
      rw [hl', Option.some_or]

theorem settled_connect (pool : LabelPool) (r : Reference) (i : Import) :
    (i.connect pool r).1.Settled r := by
  obtain ⟨hconflicts, hsame, -⟩ | ⟨-, l, himport, -⟩ := connect_cases pool r i
  · rw [hsame]
    exact .inl hconflicts
  · rw [himport]
    refine .inr ⟨⟨l, rfl⟩, fun symbol hr => ?_⟩
    show ∃ l, i.thunk.or r.stub? = some l
    rw [hr]
    cases i.thunk with
    | none => exact ⟨symbol, rfl⟩
    | some l => exact ⟨l, rfl⟩

/-- An import that is settled is left as it is. -/
theorem connect_of_settled (pool : LabelPool) (h : i.Settled r) : (i.connect pool r).1 = i := by
  obtain ⟨-, hsame, -⟩ | ⟨hfree, l, himport, htarget⟩ := connect_cases pool r i
  · exact hsame
  · obtain hconflicts | ⟨⟨l', hl'⟩, hstub⟩ := h
    · rw [hfree] at hconflicts
      cases hconflicts
    · have hl : i.target = some l := by
        obtain ⟨hl, -⟩ | ⟨hnone, -⟩ := htarget
        · exact hl
        · rw [hl'] at hnone
          cases hnone
      have hthunk : i.thunk.or r.stub? = i.thunk := by
        cases hr : r.stub? with
        | none => exact Option.or_none
        | some symbol =>
          obtain ⟨l'', hl''⟩ := hstub symbol hr
          rw [hl'', Option.some_or]
      rw [himport, hthunk, ← hl]

/-- The label that a slot gets with a call stub is longer than that of the stub. -/
theorem fresh_ne_stub (pool : LabelPool) (symbol : String) :
    (pool.fresh (slotHint (.stub symbol))).1 ≠ symbol := by
  intro heq
  have hhint : (sanitize (slotHint (.stub symbol))).toList.length = 4 + symbol.toList.length := by
    rw [sanitize, String.toList_ofList, List.length_map, slotHint, String.toList_append,
      List.length_append]
    rfl
  have hlength := congrArg (fun l : String => l.toList.length) heq
  obtain hname | ⟨n, hname⟩ := pool.namedAfter_fresh (slotHint (.stub symbol))
  · rw [hname] at hlength
    omega
  · simp only [hname, numbered, String.toList_append, List.length_append] at hlength
    omega

/-- The two labels of an import stay apart, where the label of its call stub is known. -/
theorem connect_apart (hknown : i.target = none → ∀ l, i.thunk = some l → l ∈ pool.known) {l : String}
    (htarget : (i.connect pool r).1.target = some l) (hthunk : (i.connect pool r).1.thunk = some l) :
    i.target = some l ∧ i.thunk = some l := by
  obtain ⟨-, hsame, -⟩ | ⟨hfree, l', himport, hslot⟩ := connect_cases pool r i
  · rw [hsame] at htarget hthunk
    exact ⟨htarget, hthunk⟩
  · rw [himport] at htarget hthunk
    cases htarget
    dsimp only at hthunk
    -- the label of the stub is that of before, or the symbol that the reference asks for
    obtain hold | ⟨-, hstub⟩ := Option.or_eq_some_iff.1 hthunk
    · obtain ⟨hl, -⟩ | ⟨hnone, rfl, -⟩ := hslot
      · exact ⟨hl, hold⟩
      · exact absurd (hknown hnone _ hold) (pool.fresh_notMem _)
    · cases r with
      | slot symbol label => cases hstub
      | stub symbol =>
        cases hstub
        obtain ⟨hl, -⟩ | ⟨-, heq, -⟩ := hslot
        · rw [conflicts_stub.2 (.inr hl)] at hfree
          cases hfree
        · exact absurd heq.symm (fresh_ne_stub pool _)

end Connect

end Import

/-! ## Places of imports -/

/-- The fields of a library stay, and what is set about its imports. -/
structure ImportDirectory.Keeps (d d' : ImportDirectory) : Prop where
  library : d'.library = d.library
  timestamp : d'.timestamp = d.timestamp
  forwarderChain : d'.forwarderChain = d.forwarderChain
  tableAddress : d'.tableAddress = d.tableAddress
  imports : KeepsEach Import.Keeps d.imports d'.imports

theorem ImportDirectory.Keeps.refl (d : ImportDirectory) : d.Keeps d :=
  ⟨rfl, rfl, rfl, rfl, .refl Import.Keeps.refl _⟩

theorem ImportDirectory.Keeps.trans (d e f : ImportDirectory) (hde : d.Keeps e) (hef : e.Keeps f) :
    d.Keeps f where
  library := hef.library.trans hde.library
  timestamp := hef.timestamp.trans hde.timestamp
  forwarderChain := hef.forwarderChain.trans hde.forwarderChain
  tableAddress := hef.tableAddress.trans hde.tableAddress
  imports := hde.imports.trans Import.Keeps.trans hef.imports

/-- The libraries stay at their places, and their imports. -/
abbrev KeepsImports (dirs dirs' : List ImportDirectory) : Prop :=
  KeepsEach ImportDirectory.Keeps dirs dirs'

/-- The import number `j` of the library number `k`. -/
def importAt (dirs : List ImportDirectory) (k j : Nat) : Option Import :=
  dirs[k]?.bind (·.imports[j]?)

theorem importAt_eq_some {dirs : List ImportDirectory} {k j : Nat} {i : Import} :
    importAt dirs k j = some i ↔ ∃ d, dirs[k]? = some d ∧ d.imports[j]? = some i :=
  Option.bind_eq_some_iff

theorem exists_importAt {dirs : List ImportDirectory} {i : Import} :
    (∃ k j, importAt dirs k j = some i) ↔ ∃ d ∈ dirs, i ∈ d.imports := by
  simp only [importAt_eq_some, List.mem_iff_getElem?]
  constructor
  · rintro ⟨k, j, d, hd, hi⟩
    exact ⟨d, ⟨k, hd⟩, j, hi⟩
  · rintro ⟨d, ⟨k, hd⟩, j, hi⟩
    exact ⟨k, j, d, hd, hi⟩

/-- The symbol is imported, but from a library with another name. -/
def Elsewhere (dirs : List ImportDirectory) (symbol library : String) : Prop :=
  ∃ d ∈ dirs, libraryMatches d.library library = false ∧ ∃ i ∈ d.imports, i.name = some symbol

theorem ImportDirectory.imports?_eq_true {d : ImportDirectory} {symbol : String} :
    d.imports? symbol = true ↔ ∃ i ∈ d.imports, i.name = some symbol := by
  simp only [imports?, List.any_eq_true, beq_iff_eq]

theorem Elsewhere.mono {dirs dirs' : List ImportDirectory} {symbol library : String}
    (hkeeps : KeepsImports dirs dirs') (h : Elsewhere dirs symbol library) :
    Elsewhere dirs' symbol library := by
  obtain ⟨d, hd, hother, i, hi, hname⟩ := h
  obtain ⟨d', hd', hdd'⟩ := hkeeps.mem hd
  obtain ⟨i', hi', hii'⟩ := hdd'.imports.mem hi
  exact ⟨d', hd', hdd'.library ▸ hother, i', hi', hii'.name.trans hname⟩

namespace AutoImport

/-- The request has been served, if it can be: the symbol is imported elsewhere, or the first import of
it in the first library of the name is as the reference asks for. -/
def Settled (dirs : List ImportDirectory) (r : Reference) (library : String) : Prop :=
  Elsewhere dirs r.symbol library ∨ ∃ d i, find library dirs = some d ∧
    d.imports.find? (fun i => i.name == some r.symbol) = some i ∧ i.Settled r

theorem Settled.mono {dirs dirs' : List ImportDirectory} {r : Reference} {library : String}
    (hkeeps : KeepsImports dirs dirs') (h : Settled dirs r library) : Settled dirs' r library := by
  obtain helsewhere | ⟨d, i, hd, hi, hsettled⟩ := h
  · exact .inl (helsewhere.mono hkeeps)
  · have hsame : ∀ d d' : ImportDirectory, d.Keeps d' →
        libraryMatches d'.library library = libraryMatches d.library library :=
      fun d d' h => by rw [h.library]
    have hnames : ∀ i i' : Import, i.Keeps i' →
        (i'.name == some r.symbol) = (i.name == some r.symbol) := fun i i' h => by rw [h.name]
    obtain ⟨d', hd', hdd'⟩ := hkeeps.find? hsame hd
    obtain ⟨i', hi', hii'⟩ := hdd'.imports.find? hnames hi
    exact .inr ⟨d', i', hd', hi', hsettled.mono hii'⟩

theorem Settled.imported {dirs : List ImportDirectory} {r : Reference} {library : String}
    (h : Settled dirs r library) : ∃ d ∈ dirs, ∃ i ∈ d.imports, i.name = some r.symbol := by
  obtain ⟨d, hd, -, hi⟩ | ⟨d, i, hd, hi, -⟩ := h
  · exact ⟨d, hd, hi⟩
  · have hname := List.find?_some hi
    exact ⟨d, List.mem_of_find?_eq_some hd, i, List.mem_of_find?_eq_some hi, eq_of_beq hname⟩

/-! ## One request -/

variable {st : AutoImport} {r : Reference} {library : String}

theorem request_of_elsewhere (h : Elsewhere st.dirs r.symbol library) :
    (st.request r library).imports = some st.dirs ∧ (st.request r library).pool = st.pool := by
  obtain ⟨d, hd, hother, hi⟩ := h
  have hfound : (st.dirs.find? fun d =>
      !libraryMatches d.library library && d.imports? r.symbol).isSome := by
    rw [List.find?_isSome]
    exact ⟨d, hd, by rw [hother, ImportDirectory.imports?_eq_true.2 hi]; rfl⟩
  obtain ⟨other, hfound⟩ := Option.isSome_iff_exists.1 hfound
  unfold AutoImport.dirs at hfound
  unfold request
  dsimp only
  rw [hfound]
  exact ⟨rfl, rfl⟩

/-- What a request does: the import `i`, which was number `j` of the library number `k` or is new there,
is connected.  All other imports are as they were. -/
structure Put (st : AutoImport) (r : Reference) (library : String) (st' : AutoImport) (k j : Nat)
    (i : Import) : Prop where
  imports : st'.imports = some st'.dirs
  pool : st'.pool = (i.connect st.pool r).2.1
  keeps : KeepsImports st.dirs st'.dirs
  places : ∀ m n, importAt st'.dirs m n =
    if m = k ∧ n = j then some (i.connect st.pool r).1 else importAt st.dirs m n
  before : importAt st.dirs k j = some i ∨ (importAt st.dirs k j = none ∧ i = .byName r.symbol)
  name : i.name = some r.symbol
  here : ∃ d, st'.dirs[k]? = some d ∧ libraryMatches d.library library = true
  settled : Settled st'.dirs r library

section Chosen

variable {before behind : List ImportDirectory} {d : ImportDirectory} {front rest : List Import}
  {i x : Import} {dirs : List ImportDirectory}

theorem Chosen.importAt_eq (h : Chosen library dirs before d behind) (n : Nat) :
    importAt dirs before.length n = d.imports[n]? := by
  obtain ⟨-, -, rfl | ⟨rfl, -, rfl⟩⟩ := h
  · rw [importAt, getElem?_length]
    rfl
  · rw [importAt, List.getElem?_eq_none (Nat.le_refl _)]
    rfl

/-- Where an import of the chosen library is put in the place of another one, or behind all, the others
are where they were. -/
theorem Chosen.importAt_put (h : Chosen library dirs before d behind)
    (himports : (∃ i, d.imports = front ++ i :: rest) ∨ (d.imports = front ∧ rest = []))
    (m n : Nat) : importAt (before ++ { d with imports := front ++ x :: rest } :: behind) m n =
      if m = before.length ∧ n = front.length then some x else importAt dirs m n := by
  have hplace : (∃ a, dirs = before ++ a :: behind) ∨ (dirs = before ∧ behind = []) := by
    obtain heq | ⟨heq, hlast, -⟩ := h.2.2
    · exact .inl ⟨d, heq⟩
    · exact .inr ⟨heq, hlast⟩
  rw [importAt, getElem?_put hplace]
  by_cases hm : m = before.length
  · subst hm
    rw [if_pos rfl, Option.bind_some, getElem?_put himports, ← h.importAt_eq]
    simp only [true_and]
  · rw [if_neg hm, if_neg fun h => hm h.1, importAt]

theorem Chosen.keeps_put (h : Chosen library dirs before d behind)
    (himports : (∃ i, d.imports = front ++ i :: rest ∧ i.Keeps x) ∨ (d.imports = front ∧ rest = [])) :
    KeepsImports dirs (before ++ { d with imports := front ++ x :: rest } :: behind) := by
  refine keepsEach_put ImportDirectory.Keeps.refl ?_
  obtain heq | ⟨heq, hlast, -⟩ := h.2.2
  · exact .inl ⟨d, heq, rfl, rfl, rfl, rfl, keepsEach_put Import.Keeps.refl himports⟩
  · exact .inr ⟨heq, hlast⟩

end Chosen

/-- **One request.** -/
theorem put_request (h : ¬Elsewhere st.dirs r.symbol library) :
    ∃ k j i, st.Put r library (st.request r library) k j i := by
  have hhere : ∀ d ∈ st.dirs, d.imports? r.symbol = true → libraryMatches d.library library = true := by
    intro d hd hany
    by_contra hother
    exact h ⟨d, hd, Bool.eq_false_iff.2 hother, ImportDirectory.imports?_eq_true.1 hany⟩
  obtain ⟨before, d, behind, front, i, rest, himports, hpool, hchosen, hfront, hi⟩ :=
    request_cases hhere
  have hname : i.name = some r.symbol := by
    obtain ⟨-, hname⟩ | ⟨-, -, rfl⟩ := hi
    · exact hname
    · rfl
  have hkeeps := Import.keeps_connect st.pool r i
  have hdirs : (st.request r library).dirs = before ++
      { d with imports := front ++ (i.connect st.pool r).1 :: rest } :: behind := by
    rw [dirs, himports, Option.getD_some]
  refine ⟨before.length, front.length, i, ?_, hpool, ?_, fun m n => ?_, ?_, hname, ?_, ?_⟩
  · rw [hdirs, himports]
  · rw [hdirs]
    refine hchosen.keeps_put ?_
    obtain ⟨heq, -⟩ | ⟨heq, hlast, -⟩ := hi
    · exact .inl ⟨i, heq, hkeeps⟩
    · exact .inr ⟨heq, hlast⟩
  · rw [hdirs]
    refine hchosen.importAt_put ?_ m n
    obtain ⟨heq, -⟩ | ⟨heq, hlast, -⟩ := hi
    · exact .inl ⟨i, heq⟩
    · exact .inr ⟨heq, hlast⟩
  · rw [hchosen.importAt_eq]
    obtain ⟨heq, -⟩ | ⟨heq, -, hnew⟩ := hi
    · rw [heq]
      exact .inl (getElem?_length front rest i)
    · rw [heq]
      exact .inr ⟨List.getElem?_eq_none (Nat.le_refl _), hnew⟩
  · rw [hdirs]
    exact ⟨_, getElem?_length before behind _, hchosen.2.1⟩
  · rw [hdirs]
    refine .inr ⟨_, _, hchosen.find_imports _, ?_, Import.settled_connect st.pool r i⟩
    rw [List.find?_append, List.find?_eq_none.2 fun x hx => by simpa using hfront x hx, Option.none_or,
      List.find?_cons, beq_iff_eq.2 (hkeeps.name.trans hname)]

theorem keeps_request (st : AutoImport) (r : Reference) (library : String) :
    KeepsImports st.dirs (st.request r library).dirs := by
  by_cases helsewhere : Elsewhere st.dirs r.symbol library
  · rw [AutoImport.dirs, AutoImport.dirs, (request_of_elsewhere helsewhere).1, Option.getD_some]
    exact .refl ImportDirectory.Keeps.refl _
  · obtain ⟨k, j, i, hput⟩ := put_request helsewhere
    exact hput.keeps

theorem keeps_serve (st : AutoImport) (asked : List (Reference × String)) :
    KeepsImports st.dirs (st.serve asked).dirs := by
  induction asked using List.reverseRecOn with
  | nil => exact .refl ImportDirectory.Keeps.refl _
  | append_singleton asked q ih =>
    rw [serve_concat]
    exact ih.trans ImportDirectory.Keeps.trans (keeps_request _ q.1 q.2)

/-- The label of the slot of the import number `j` of the library number `k`. -/
def targetAt (dirs : List ImportDirectory) (k j : Nat) : Option String :=
  (importAt dirs k j).bind (·.target)

section Put

variable {st' : AutoImport} {k j : Nat} {i : Import}

theorem Put.target_eq (h : st.Put r library st' k j i) : targetAt st.dirs k j = i.target := by
  obtain hbefore | ⟨hnone, rfl⟩ := h.before
  · rw [targetAt, hbefore, Option.bind_some]
  · rw [targetAt, hnone]
    rfl

/-- Of an import that has a label already, it is not a new one. -/
theorem Put.importAt_eq (h : st.Put r library st' k j i) (hi : i.target ≠ none ∨ i.thunk ≠ none) :
    importAt st.dirs k j = some i := by
  obtain hbefore | ⟨-, rfl⟩ := h.before
  · exact hbefore
  · obtain hi | hi := hi
    · exact absurd rfl hi
    · exact absurd rfl hi

theorem Put.targetAt_eq (h : st.Put r library st' k j i) (m n : Nat) : targetAt st'.dirs m n =
    if m = k ∧ n = j then (i.connect st.pool r).1.target else targetAt st.dirs m n := by
  rw [targetAt, h.places]
  split
  · rfl
  · rfl

/-- All slots keep their labels, or one that had none gets a fresh one. -/
theorem Put.targets (h : st.Put r library st' k j i) :
    (st'.pool = st.pool ∧ ∀ m n, targetAt st'.dirs m n = targetAt st.dirs m n) ∨
    (st'.pool.known = (st.pool.fresh (Import.slotHint r)).1 :: st.pool.known ∧
      ∀ m n, targetAt st'.dirs m n = if m = k ∧ n = j then
        some (st.pool.fresh (Import.slotHint r)).1 else targetAt st.dirs m n) := by
  have hkeep : (i.connect st.pool r).1.target = i.target →
      ∀ m n, targetAt st'.dirs m n = targetAt st.dirs m n := fun heq m n => by
    rw [h.targetAt_eq, heq, ← h.target_eq]
    split
    · next hplace => rw [hplace.1, hplace.2]
    · rfl
  obtain ⟨-, hsame, hpool⟩ | ⟨-, l, himport, ⟨hl, hpool⟩ | ⟨-, rfl, hpool⟩⟩ :=
    Import.connect_cases st.pool r i
  · exact .inl ⟨h.pool.trans hpool, hkeep (by rw [hsame])⟩
  · exact .inl ⟨h.pool.trans hpool, hkeep (by rw [himport, hl])⟩
  · refine .inr ⟨by rw [h.pool, hpool, known_fresh], fun m n => ?_⟩
    rw [h.targetAt_eq, himport]

end Put

end AutoImport

/-! ## The run -/

/-- **Libraries and imports stay where they are**, with all that is set about them. -/
theorem keeps_autoImport (pool : LabelPool) (sections : List Section)
    (imports : Option (List ImportDirectory)) (catalog : Catalog) :
    KeepsImports (imports.getD []) (autoImport pool sections imports catalog).dirs := by
  obtain ⟨-, himports⟩ := autoImport_serve pool sections imports catalog
  rw [AutoImport.dirs, himports]
  exact AutoImport.keeps_serve ⟨pool, imports, []⟩ (requests sections catalog)

end PortableImage
