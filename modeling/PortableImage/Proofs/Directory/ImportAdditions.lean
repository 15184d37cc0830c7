import PortableImage.Encode.Assembly
import PortableImage.Proofs.Directory.ImportPlaces

/-!
# Automatic imports only add

What automatic imports add to the imports of an image is in the library of the catalogue, for a symbol
that is asked for.  The labels that slots are given are new ones.  Once the requests have been served,
serving them again changes nothing.

## What is here

* `AutoImport.Adds` — what has been added so far; `Adds.request` is one request, `Adds.serve` all.
* `AutoImport.request_of_settled` — a request that has been served changes nothing any more.
* `OnlyAdds` — what is asked of the imports that come out.
* `autoImport_onlyAdds` — automatic imports only add, and they do it once.
-/

set_option autoImplicit false

namespace PortableImage

open LabelPool

namespace AutoImport

/-! ## All requests -/

/-- What has been added to the imports `old`, where the labels `p` were known, when the requests `asked`
have been served. -/
structure Adds (p : LabelPool) (old : List ImportDirectory) (asked : List (Reference × String))
    (pool : LabelPool) (dirs : List ImportDirectory) : Prop where
  kept : KeepsImports old dirs
  known : p.known ⊆ pool.known
  /-- An import that is new is that of a request, and there was none in another library. -/
  added : ∀ k j i, importAt dirs k j = some i → importAt old k j = none →
    ∃ q ∈ asked, i.name = some q.1.symbol ∧ ¬Elsewhere old q.1.symbol q.2 ∧
      ∃ d, dirs[k]? = some d ∧ libraryMatches d.library q.2 = true
  targets : ∀ k j l, targetAt dirs k j = some l → l ∈ pool.known
  /-- A label that a slot was given is new, and it is the label of no other slot. -/
  assigned : ∀ k j l, targetAt dirs k j = some l → targetAt old k j = none →
    l ∉ p.known ∧ ∀ m n, targetAt dirs m n = some l → m = k ∧ n = j
  /-- Where a slot has no label yet, that of the call stub is known. -/
  waiting : ∀ k j i l, importAt dirs k j = some i → i.target = none → i.thunk = some l →
    l ∈ pool.known
  apart : ∀ k j i l, importAt dirs k j = some i → i.target = some l → i.thunk = some l →
    ∃ i₀, importAt old k j = some i₀ ∧ i₀.target = some l ∧ i₀.thunk = some l
  settled : ∀ q ∈ asked, Settled dirs q.1 q.2

variable {p pool : LabelPool} {old dirs : List ImportDirectory} {asked : List (Reference × String)}

theorem mem_importLabels {dirs : List ImportDirectory} {k j : Nat} {i : Import} {l : String}
    (hi : importAt dirs k j = some i) (hl : i.target = some l ∨ i.thunk = some l) :
    l ∈ Assembly.importLabels dirs := by
  obtain ⟨d, hd, hmem⟩ := exists_importAt.1 ⟨k, j, hi⟩
  refine List.mem_flatMap.2 ⟨d, hd, List.mem_flatMap.2 ⟨i, hmem, ?_⟩⟩
  rw [List.mem_append, Option.mem_toList, Option.mem_toList]
  exact hl

/-- At the start the labels of the imports are known. -/
theorem adds_nil (hlabels : ∀ l ∈ Assembly.importLabels old, l ∈ p.known) : Adds p old [] p old where
  kept := .refl ImportDirectory.Keeps.refl old
  known := List.Subset.refl _
  added k j i hi hnone := by
    rw [hi] at hnone
    cases hnone
  targets k j l hl := by
    obtain ⟨i, hi, htarget⟩ := Option.bind_eq_some_iff.1 hl
    exact hlabels l (mem_importLabels hi (.inl htarget))
  assigned k j l hl hnone := by
    rw [hl] at hnone
    cases hnone
  waiting k j i l hi _ hl := hlabels l (mem_importLabels hi (.inr hl))
  apart k j i l hi htarget hthunk := ⟨i, hi, htarget, hthunk⟩
  settled q hq := by cases hq

section Put

variable {st st' : AutoImport} {r : Reference} {library : String} {k j m n : Nat} {i x : Import}
  {l : String}

/-- Labels that are known remain so. -/
theorem Put.known_subset (hput : st.Put r library st' k j i) : st.pool.known ⊆ st'.pool.known := by
  obtain ⟨hpool, -⟩ | ⟨hpool, -⟩ := hput.targets
  · rw [hpool]
    exact List.Subset.refl _
  · rw [hpool]
    exact List.subset_cons_self _ _

/-- An import that is new is the one that is put, or it was there before the request. -/
theorem Adds.added_put (h : Adds p old asked st.pool st.dirs) (hput : st.Put r library st' k j i)
    (hhere : ¬Elsewhere st.dirs r.symbol library) (hx : importAt st'.dirs m n = some x)
    (hnone : importAt old m n = none) : ∃ q ∈ asked ++ [(r, library)], x.name = some q.1.symbol ∧
      ¬Elsewhere old q.1.symbol q.2 ∧
      ∃ d, st'.dirs[m]? = some d ∧ libraryMatches d.library q.2 = true := by
  rw [hput.places] at hx
  split at hx
  · next hplace =>
    obtain ⟨rfl, rfl⟩ := hplace
    cases hx
    exact ⟨(r, library), List.mem_append_right _ (List.mem_singleton.2 rfl),
      (Import.keeps_connect st.pool r i).name.trans hput.name,
      fun hold => hhere (hold.mono h.kept), hput.here⟩
  · obtain ⟨q, hq, hname, hold, d, hd, hmatch⟩ := h.added m n x hx hnone
    obtain ⟨d', hd', hdd'⟩ := hput.keeps m d hd
    exact ⟨q, List.mem_append_left _ hq, hname, hold, d', hd', hdd'.library ▸ hmatch⟩

theorem Adds.targets_put (h : Adds p old asked st.pool st.dirs) (hput : st.Put r library st' k j i)
    (hl : targetAt st'.dirs m n = some l) : l ∈ st'.pool.known := by
  obtain ⟨-, htargets⟩ | ⟨hpool, htargets⟩ := hput.targets
  · rw [htargets] at hl
    exact hput.known_subset (h.targets m n l hl)
  · rw [htargets] at hl
    split at hl
    · cases hl
      rw [hpool]
      exact List.mem_cons_self
    · exact hput.known_subset (h.targets m n l hl)

/-- A label that is given to a slot is new, and no other slot has it. -/
theorem Adds.assigned_put (h : Adds p old asked st.pool st.dirs)
    (hput : st.Put r library st' k j i) (hl : targetAt st'.dirs m n = some l)
    (hnone : targetAt old m n = none) :
    l ∉ p.known ∧ ∀ m' n', targetAt st'.dirs m' n' = some l → m' = m ∧ n' = n := by
  have hfresh := st.pool.fresh_notMem (Import.slotHint r)
  obtain ⟨-, htargets⟩ | ⟨-, htargets⟩ := hput.targets
  · rw [htargets] at hl
    obtain ⟨hnew, hunique⟩ := h.assigned m n l hl hnone
    exact ⟨hnew, fun m' n' hl' => hunique m' n' ((htargets m' n').symm.trans hl')⟩
  · rw [htargets] at hl
    split at hl
    · next hplace =>
      obtain ⟨rfl, rfl⟩ := hplace
      cases hl
      refine ⟨fun hp => hfresh (h.known hp), fun m' n' hl' => ?_⟩
      rw [htargets] at hl'
      split at hl'
      · next hplace => exact hplace
      · exact absurd (h.targets m' n' _ hl') hfresh
    · obtain ⟨hnew, hunique⟩ := h.assigned m n l hl hnone
      refine ⟨hnew, fun m' n' hl' => ?_⟩
      rw [htargets] at hl'
      split at hl'
      · cases hl'
        exact absurd (h.targets m n _ hl) hfresh
      · exact hunique m' n' hl'

/-- Where the slot of the import has no label, that of its call stub is known. -/
theorem Adds.waiting_of_put (h : Adds p old asked st.pool st.dirs)
    (hput : st.Put r library st' k j i) (hnone : i.target = none) (hl : i.thunk = some l) :
    l ∈ st.pool.known :=
  h.waiting k j i l (hput.importAt_eq (.inr (hl ▸ Option.some_ne_none l))) hnone hl

theorem Adds.waiting_put (h : Adds p old asked st.pool st.dirs) (hput : st.Put r library st' k j i)
    (hx : importAt st'.dirs m n = some x) (hnone : x.target = none) (hl : x.thunk = some l) :
    l ∈ st'.pool.known := by
  rw [hput.places] at hx
  split at hx
  · cases hx
    -- an import that is connected has a label for its slot, unless it was left as it is
    obtain ⟨-, hsame, -⟩ | ⟨-, l', himport, -⟩ := Import.connect_cases st.pool r i
    · rw [hsame] at hnone hl
      exact hput.known_subset (h.waiting_of_put hput hnone hl)
    · rw [himport] at hnone
      cases hnone
  · exact hput.known_subset (h.waiting m n x l hx hnone hl)

theorem Adds.apart_put (h : Adds p old asked st.pool st.dirs) (hput : st.Put r library st' k j i)
    (hx : importAt st'.dirs m n = some x) (htarget : x.target = some l) (hthunk : x.thunk = some l) :
    ∃ i₀, importAt old m n = some i₀ ∧ i₀.target = some l ∧ i₀.thunk = some l := by
  rw [hput.places] at hx
  split at hx
  · next hplace =>
    obtain ⟨rfl, rfl⟩ := hplace
    cases hx
    obtain ⟨htarget, hthunk⟩ := Import.connect_apart
      (fun hnone l hl => h.waiting_of_put hput hnone hl) htarget hthunk
    have hold := hput.importAt_eq (.inl (htarget ▸ Option.some_ne_none l))
    exact h.apart m n i l hold htarget hthunk
  · exact h.apart m n x l hx htarget hthunk

end Put

/-- **One request more.** -/
theorem Adds.request {st : AutoImport} (h : Adds p old asked st.pool st.dirs) (r : Reference)
    (library : String) : Adds p old (asked ++ [(r, library)]) (st.request r library).pool
      (st.request r library).dirs := by
  by_cases helsewhere : Elsewhere st.dirs r.symbol library
  · obtain ⟨himports, hpool⟩ := request_of_elsewhere helsewhere
    have hdirs : (st.request r library).dirs = st.dirs := by
      rw [AutoImport.dirs, himports, Option.getD_some]
    rw [hpool, hdirs]
    refine { h with added := fun k j i hi hnone => ?_, settled := fun q hq => ?_ }
    · obtain ⟨q, hq, hadded⟩ := h.added k j i hi hnone
      exact ⟨q, List.mem_append_left _ hq, hadded⟩
    · rcases List.mem_append.1 hq with hq | hq
      · exact h.settled q hq
      · rw [List.mem_singleton.1 hq]
        exact .inl helsewhere
  · obtain ⟨k, j, i, hput⟩ := put_request helsewhere
    exact {
      kept := h.kept.trans ImportDirectory.Keeps.trans hput.keeps
      known := List.Subset.trans h.known hput.known_subset
      added := fun _ _ _ hx hnone => h.added_put hput helsewhere hx hnone
      targets := fun _ _ _ hl => h.targets_put hput hl
      assigned := fun _ _ _ hl hnone => h.assigned_put hput hl hnone
      waiting := fun _ _ _ _ hx hnone hl => h.waiting_put hput hx hnone hl
      apart := fun _ _ _ _ hx htarget hthunk => h.apart_put hput hx htarget hthunk
      settled := fun q hq => by
        rcases List.mem_append.1 hq with hq | hq
        · exact (h.settled q hq).mono hput.keeps
        · rw [List.mem_singleton.1 hq]
          exact hput.settled }

/-- **All requests.** -/
theorem Adds.serve (st : AutoImport) (h : Adds p old [] st.pool st.dirs)
    (asked : List (Reference × String)) :
    Adds p old asked (st.serve asked).pool (st.serve asked).dirs := by
  induction asked using List.reverseRecOn with
  | nil => exact h
  | append_singleton asked q ih =>
    rw [serve_concat]
    exact ih.request q.1 q.2

/-! ## Once more -/

theorem imports_request (st : AutoImport) (r : Reference) (library : String) :
    (st.request r library).imports = some (st.request r library).dirs := by
  have hsome : ∀ imports : Option (List ImportDirectory), imports.isSome →
      imports = some (imports.getD []) := fun imports h => by
    obtain ⟨dirs, rfl⟩ := Option.isSome_iff_exists.1 h
    rfl
  refine hsome _ ?_
  unfold AutoImport.request
  dsimp only
  split <;> rfl

/-- A request that has been served changes no import. -/
theorem request_of_settled {st : AutoImport} {r : Reference} {library : String}
    (h : Settled st.dirs r library) :
    (st.request r library).imports = some st.dirs := by
  obtain helsewhere | ⟨d, i, hd, hi, hsettled⟩ := h
  · exact (request_of_elsewhere helsewhere).1
  · have hdirectory : (d.request st.pool r library).1 = d := by
      show { d with imports := (updateFirst _ _ (Import.connect st.pool r) d.imports).1 } = d
      rw [updateFirst_of_find? _ hi (Import.connect_of_settled st.pool hsettled)]
    unfold AutoImport.request
    dsimp only
    split
    · rfl
    · exact congrArg some (updateFirst_of_find? _ hd hdirectory)

theorem imports_serve {asked : List (Reference × String)} (hne : asked ≠ []) (st : AutoImport) :
    (st.serve asked).imports = some (st.serve asked).dirs := by
  obtain rfl | ⟨asked, q, rfl⟩ := List.eq_nil_or_concat asked
  · exact absurd rfl hne
  · rw [List.concat_eq_append, serve_concat]
    exact imports_request _ q.1 q.2

/-- Requests that have been served change no import. -/
theorem serve_of_settled {st : AutoImport} (hst : asked ≠ [] → st.imports = some st.dirs)
    (h : ∀ q ∈ asked, Settled st.dirs q.1 q.2) : (st.serve asked).imports = st.imports := by
  induction asked using List.reverseRecOn with
  | nil => rfl
  | append_singleton asked q ih =>
    have hsome := hst (List.append_ne_nil_of_right_ne_nil asked (List.cons_ne_nil q []))
    have himports := ih (fun _ => hsome) fun q hq => h q (List.mem_append_left _ hq)
    have hdirs : (st.serve asked).dirs = st.dirs := by
      rw [AutoImport.dirs, AutoImport.dirs, himports]
    have hsettled := h q (List.mem_append_right _ (List.mem_singleton.2 rfl))
    rw [serve_concat, hsome, ← hdirs]
    rw [← hdirs] at hsettled
    exact request_of_settled hsettled

end AutoImport

/-! ## The run -/

/-- What is asked of the imports `dirs'` that automatic imports make of the imports `dirs`, where the
labels of the pool were known. -/
structure OnlyAdds (sections : List Section) (catalog : Catalog) (pool : LabelPool)
    (dirs dirs' : List ImportDirectory) : Prop where
  /-- Every library and every import is where it was, and what is set about it stays. -/
  kept : KeepsImports dirs dirs'
  /-- An import that is new has the name of a symbol of the catalogue that no section defines.  It is
  in a library of the name in the catalogue, and no other library has an import of that name. -/
  added : ∀ k d j i, dirs'[k]? = some d → d.imports[j]? = some i → importAt dirs k j = none →
    ∃ symbol library, i.name = some symbol ∧ catalog.lookup symbol = some library ∧
      symbol ∉ definedLabels sections ∧ libraryMatches d.library library = true ∧
      ∀ e ∈ dirs', libraryMatches e.library library = false → ∀ x ∈ e.imports, x.name ≠ some symbol
  /-- A label that a slot was given was not known, and it is the label of no other slot. -/
  assigned : ∀ k j l, AutoImport.targetAt dirs' k j = some l → AutoImport.targetAt dirs k j = none →
    l ∉ pool.known ∧ ∀ m n, AutoImport.targetAt dirs' m n = some l → m = k ∧ n = j
  /-- No import has one label for its slot and its call stub, unless it had before. -/
  apart : ∀ k j i l, importAt dirs' k j = some i → i.target = some l → i.thunk = some l →
    ∃ i₀, importAt dirs k j = some i₀ ∧ i₀.target = some l ∧ i₀.thunk = some l
  /-- What is referred to is imported, if the catalogue has it and no section defines it. -/
  served : ∀ s ∈ sections, ∀ e ∈ s.content.fields.entries, ∀ r, classify e.2.target = some r →
    r.symbol ∉ definedLabels sections → (catalog.lookup r.symbol).isSome →
    ∃ d ∈ dirs', ∃ i ∈ d.imports, i.name = some r.symbol

theorem AutoImport.Adds.onlyAdds {p pool : LabelPool} {sections : List Section} {catalog : Catalog}
    {old dirs : List ImportDirectory} (h : Adds p old (requests sections catalog) pool dirs) :
    OnlyAdds sections catalog p old dirs where
  kept := h.kept
  added k d j i hd hi hnone := by
    obtain ⟨q, hq, hname, hold, d', hd', hmatch⟩ :=
      h.added k j i (importAt_eq_some.2 ⟨d, hd, hi⟩) hnone
    obtain ⟨-, -, -, -, -, hdefined, hlookup⟩ := mem_requests.1 hq
    cases hd.symm.trans hd'
    refine ⟨q.1.symbol, q.2, hname, hlookup, hdefined, hmatch, fun e he hother x hx hx' => ?_⟩
    obtain ⟨m, hm⟩ := List.mem_iff_getElem?.1 he
    obtain ⟨n, hn⟩ := List.mem_iff_getElem?.1 hx
    have hplace : importAt dirs m n = some x := importAt_eq_some.2 ⟨e, hm, hn⟩
    cases hx₀ : importAt old m n with
    | some x₀ =>
      -- it was there before, and then the symbol was imported elsewhere
      obtain ⟨e₀, he₀, hmem⟩ := importAt_eq_some.1 hx₀
      obtain ⟨e', he', hkeeps⟩ := h.kept m e₀ he₀
      cases hm.symm.trans he'
      obtain ⟨x', hx₁, hkeepsx⟩ := hkeeps.imports n x₀ hmem
      cases hn.symm.trans hx₁
      exact hold ⟨e₀, List.mem_of_getElem? he₀, hkeeps.library ▸ hother, x₀, List.mem_of_getElem? hmem,
        hkeepsx.name.symm.trans hx'⟩
    | none =>
      -- it is new too, and then it is in a library of the same name
      obtain ⟨q', hq', hname', -, e', he', hmatch'⟩ := h.added m n x hplace hx₀
      obtain ⟨-, -, -, -, -, -, hlookup'⟩ := mem_requests.1 hq'
      rw [hx', Option.some.injEq] at hname'
      rw [← hname', hlookup, Option.some.injEq] at hlookup'
      cases hm.symm.trans he'
      rw [← hlookup', hother] at hmatch'
      cases hmatch'
  assigned := h.assigned
  apart := h.apart
  served s hs e he r hr hdefined hcatalog := by
    obtain ⟨library, hlibrary⟩ := Option.isSome_iff_exists.1 hcatalog
    have hq : (r, library) ∈ requests sections catalog :=
      mem_requests.2 ⟨s, hs, e, he, hr, hdefined, hlibrary⟩
    exact (h.settled _ hq).imported

/-- **Automatic imports only add, and do it once.**  Where the labels of all imports are known, the
libraries and imports that there are stay, what is added is what the sections ask for, and the labels
that slots are given are new ones.  Another run on what comes out changes no import, whatever labels
are known then. -/
theorem autoImport_onlyAdds (pool : LabelPool) (sections : List Section)
    (imports : Option (List ImportDirectory)) (catalog : Catalog)
    (hlabels : ∀ l ∈ Assembly.importLabels (imports.getD []), l ∈ pool.known) :
    OnlyAdds sections catalog pool (imports.getD [])
      (autoImport pool sections imports catalog).dirs ∧
    ∀ pool' : LabelPool,
      (autoImport pool' sections (autoImport pool sections imports catalog).imports catalog).imports =
        (autoImport pool sections imports catalog).imports := by
  obtain ⟨-, himports⟩ := autoImport_serve pool sections imports catalog
  have hadds := AutoImport.Adds.serve ⟨pool, imports, []⟩ (AutoImport.adds_nil hlabels)
    (requests sections catalog)
  have hsome : requests sections catalog ≠ [] → _ := fun hne =>
    AutoImport.imports_serve hne ⟨pool, imports, []⟩
  generalize AutoImport.serve ⟨pool, imports, []⟩ (requests sections catalog) = st at *
  constructor
  · rw [AutoImport.dirs, himports]
    exact hadds.onlyAdds
  · intro pool'
    have hagain : (AutoImport.serve ⟨pool', st.imports, []⟩ (requests sections catalog)).imports =
        st.imports := AutoImport.serve_of_settled hsome hadds.settled
    rw [(autoImport_serve pool' sections _ catalog).imports, himports, hagain]

/-- A library with a slot under a label of its own, and one that has what the catalogue finds
elsewhere. -/
def partlyImported : List ImportDirectory :=
  [{ ImportDirectory.new "KERNEL32.DLL" with
      imports := [{ Import.byName "Sleep" with target := some "slot_sleep" }] },
    { ImportDirectory.new "shim.dll" with imports := [.byName "MessageBoxA"] }]

/-- References that contradict the imports, and one that is served. -/
def conflictingCode : List Section :=
  [.new ".text" (.read ||| .execute)
    (Buffer.placeholder (.label "Sleep") .u32 .little ++
      Buffer.placeholder (.label "MessageBoxA") .u32 .little ++
      Buffer.placeholder (.label "ExitProcess" - .label "here") .u32 .little)]

/-- Where the symbols are found. -/
def systemCatalog : Catalog :=
  [("Sleep", "kernel32"), ("ExitProcess", "kernel32"), ("MessageBoxA", "user32")]

theorem autoImport_onlyAdds_conflicting :
    (∀ l ∈ Assembly.importLabels partlyImported,
      l ∈ (LabelPool.empty.reserveAll ["slot_sleep"]).known) ∧
    ∃ st, autoImport (LabelPool.empty.reserveAll ["slot_sleep"]) conflictingCode (some partlyImported)
        systemCatalog = st ∧
      OnlyAdds conflictingCode systemCatalog (LabelPool.empty.reserveAll ["slot_sleep"]) partlyImported
        st.dirs ∧
      AutoImport.targetAt st.dirs 0 0 = some "slot_sleep" ∧
      AutoImport.targetAt st.dirs 0 1 = some "iat_ExitProcess" ∧
      (autoImport .empty conflictingCode st.imports systemCatalog).imports = st.imports := by
  have hlabels : ∀ l ∈ Assembly.importLabels partlyImported,
      l ∈ (LabelPool.empty.reserveAll ["slot_sleep"]).known := by decide +kernel
  obtain ⟨hadds, honce⟩ :=
    autoImport_onlyAdds (LabelPool.empty.reserveAll ["slot_sleep"]) conflictingCode
      (some partlyImported) systemCatalog hlabels
  exact ⟨hlabels, _, rfl, hadds, by decide +kernel, by decide +kernel, honce .empty⟩

end PortableImage
