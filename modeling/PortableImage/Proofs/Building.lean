import Mathlib.Data.List.Induction
import PortableImage.Image.Basic
import PortableImage.Proofs.Directory.AutoImport
import PortableImage.Proofs.Expr.Labels

/-!
# Building an image

A front end builds an image call by call.  It may go back and forth between sections and libraries as it
likes; what comes out is a section for every name and a library for every name, in the order in which
they came up first, and in each of them what was meant for it, in the order of the calls.

## What is here

* `grouped` — elements for the keys of a log, in order of first use; `updateFirst_grouped` says that
  changing the first match keeps such lists up.
* `Image.Call`, `Image.performAll` — the calls of a front end, one after the other.
* `Image.Log` — what calls have said so far, without an image; `Log.image` is the image that such a
  record describes.
* `Log.perform_image` — one more call does to the image what it adds to the record.
* `performAll_new` — **an image is built of what its calls say**.
-/

set_option autoImplicit false

namespace PortableImage

/-! ## Elements in order of first use -/

section Grouped

variable {α γ κ : Type} [DecidableEq κ]

theorem eraseDups_concat (keys : List κ) (k : κ) :
    (keys ++ [k]).eraseDups = if k ∈ keys then keys.eraseDups else keys.eraseDups ++ [k] := by
  rw [List.eraseDups_append]
  by_cases hk : k ∈ keys <;> simp [List.removeAll, hk, List.eraseDups_cons]

/-- What a log has under a key. -/
def loggedUnder (log : List (κ × α)) (k : κ) : List α :=
  (log.filter fun e => e.1 = k).map (·.2)

/-- An element for every key, in order of first use: what is new for the key, with all added to it that
is logged under the key. -/
def grouped (new : κ → γ) (add : γ → α → γ) (keys : List κ) (log : List (κ × α)) : List γ :=
  keys.eraseDups.map fun k => (loggedUnder log k).foldl add (new k)

theorem loggedUnder_append (log : List (κ × α)) (k : κ) (items : List α) (j : κ) :
    loggedUnder (log ++ items.map fun a => (k, a)) j =
      loggedUnder log j ++ if j = k then items else [] := by
  rw [loggedUnder, List.filter_append, List.map_append, loggedUnder, List.filter_map, List.map_map]
  congr 1
  split
  · next h => simp [h, Function.comp_def]
  · next h => simp [Ne.symm h, Function.comp_def]

theorem loggedUnder_eq_nil {log : List (κ × α)} {k : κ} (h : k ∉ log.map (·.1)) :
    loggedUnder log k = [] := by
  rw [loggedUnder, List.map_eq_nil_iff, List.filter_eq_nil_iff]
  intro e he hk
  exact h (List.mem_map.2 ⟨e, he, of_decide_eq_true hk⟩)

/-- Changing the first match, in a list with an element for each of different keys. -/
theorem updateFirst_map {key : γ → κ} {f : κ → γ} (hkey : ∀ k, key (f k) = k) {keys : List κ}
    (hkeys : keys.Nodup) (k : κ) (new : γ) (change : γ → γ) :
    (updateFirst (fun g => key g == k) new (fun g => (change g, ())) (keys.map f)).1 =
      if k ∈ keys then keys.map fun j => if j = k then change (f j) else f j
      else keys.map f ++ [change new] := by
  induction keys with
  | nil => rfl
  | cons j rest ih =>
    rw [List.nodup_cons] at hkeys
    rw [List.map_cons, updateFirst, hkey]
    by_cases hj : j = k
    · subst hj
      have hrest : rest.map (fun i => if i = j then change (f i) else f i) = rest.map f :=
        List.map_congr_left fun i hi => if_neg fun (heq : i = j) => hkeys.1 (heq ▸ hi)
      simp [hrest]
    · rw [if_neg (by simpa using hj)]
      show f j :: (updateFirst _ new _ (rest.map f)).1 = _
      rw [ih hkeys.2]
      by_cases hk : k ∈ rest <;> simp [hk, hj, Ne.symm hj]

omit [DecidableEq κ] in
theorem key_foldl {key : γ → κ} {add : γ → α → γ} (hadd : ∀ g a, key (add g a) = key g) (l : List α)
    (g : γ) : key (l.foldl add g) = key g := by
  induction l generalizing g with
  | nil => rfl
  | cons a rest ih => exact (ih _).trans (hadd g a)

/-- **Adding to the element of a key** is one more use of the key, and so many more entries of the
log. -/
theorem updateFirst_grouped (key : γ → κ) (new : κ → γ) (add : γ → α → γ)
    (hnew : ∀ k, key (new k) = k) (hadd : ∀ g a, key (add g a) = key g) {keys : List κ}
    {log : List (κ × α)} (hlog : log.map (·.1) ⊆ keys) (k : κ) (items : List α) :
    (updateFirst (fun g => key g == k) (new k) (fun g => (items.foldl add g, ()))
      (grouped new add keys log)).1 =
        grouped new add (keys ++ [k]) (log ++ items.map fun a => (k, a)) := by
  rw [grouped, updateFirst_map (fun j => (key_foldl hadd _ _).trans (hnew j)) (nodup_eraseDups keys),
    grouped, eraseDups_concat]
  simp only [loggedUnder_append, List.mem_eraseDups]
  split
  · refine List.map_congr_left fun j _ => ?_
    split
    · rw [List.foldl_append]
    · rw [List.append_nil]
  · next hk =>
    have hnone : loggedUnder log k = [] := loggedUnder_eq_nil fun hmem => hk (hlog hmem)
    rw [List.map_append, List.map_singleton, if_pos rfl, hnone, List.nil_append]
    refine congrArg (· ++ _) (List.map_congr_left fun j hj => ?_)
    rw [if_neg, List.append_nil]
    rintro rfl
    exact hk (List.mem_eraseDups.1 hj)

/-- One more use of a key that is used already leaves its place, and otherwise puts it behind all. -/
theorem idxOf_eraseDups_concat (keys : List κ) (k : κ) :
    (keys ++ [k]).eraseDups.idxOf k = keys.eraseDups.idxOf k := by
  rw [eraseDups_concat]
  split
  · rfl
  · next hk =>
    have hnone : k ∉ keys.eraseDups := fun hmem => hk (List.mem_eraseDups.1 hmem)
    rw [List.idxOf_append_of_notMem hnone, List.idxOf_of_notMem hnone, List.idxOf_cons_self,
      Nat.add_zero]

end Grouped

/-- Finding the first match, or putting a new one at the end, and then changing it. -/
theorem modify_findIdx_updateFirst {α : Type} {p : α → Bool} (new : α) (f : α → α) (l : List α) :
    (updateFirst p new (fun a => (a, ())) l).1.modify (l.findIdx p) f =
      (updateFirst p new (fun a => (f a, ())) l).1 := by
  induction l with
  | nil => rfl
  | cons b rest ih =>
    rw [updateFirst, updateFirst, List.findIdx_cons]
    cases hb : p b with
    | true => rfl
    | false =>
      show b :: List.modify _ (rest.findIdx p) f = b :: _
      rw [ih]

namespace Image

/-! ## Calls and what they say -/

/-- A call of a front end. -/
inductive Call
  | emit (data : Buffer)
  | switchSection (name : String)
  | addImport (library : String) (symbol : Import)
  | addExport (symbol : Export)

/-- What a call does to the image. -/
def perform (image : Image) : Call → Image
  | .emit data => image.emit data
  | .switchSection name => image.switchSection name
  | .addImport library symbol => image.addImport library symbol
  | .addExport symbol => image.addExport symbol

/-- Calls one after the other. -/
def performAll (image : Image) (calls : List Call) : Image := calls.foldl perform image

/-- A record of calls, to which every call only adds. -/
structure Log where
  /-- The sections in the order in which they are used, each time they are. -/
  uses : List String
  /-- The section that is used last. -/
  selected : Option String
  /-- What is emitted, and to which sections. -/
  emissions : List (String × Buffer)
  /-- The symbols that are taken, and from which libraries. -/
  imports : List (String × Import)
  exports : List Export
  selected_mem : ∀ name, selected = some name → name ∈ uses
  emissions_subset : emissions.map (·.1) ⊆ uses

namespace Log

/-- Nothing has been called. -/
def empty : Log := ⟨[], none, [], [], [], by simp, List.nil_subset _⟩

/-- The use of a section, with what is emitted to it. -/
def use (log : Log) (name : String) (emitted : List Buffer) : Log :=
  { log with
    uses := log.uses ++ [name]
    selected := some name
    emissions := log.emissions ++ emitted.map fun data => (name, data)
    selected_mem := by simp
    emissions_subset := by
      rw [List.map_append]
      refine List.append_subset.2 ⟨?_, by simp [List.subset_def]⟩
      exact List.Subset.trans log.emissions_subset (List.subset_append_left _ _) }

/-- One more call.  Without a selected section, content goes to `.text`. -/
def add (log : Log) : Call → Log
  | .emit data => log.use (log.selected.getD ".text") [data]
  | .switchSection name => log.use name []
  | .addImport library symbol => { log with imports := log.imports ++ [(library, symbol)] }
  | .addExport symbol => { log with exports := log.exports ++ [symbol] }

/-- The record of calls one after the other. -/
def ofCalls (calls : List Call) : Log := calls.foldl add empty

/-! ## The image of a record -/

/-- A section for every name, in order of first use: standard permissions, and what was emitted to it. -/
def sections (log : Log) : List Section :=
  log.uses.eraseDups.map fun name => .new name (Section.standardFlags name)
    ((loggedUnder log.emissions name).foldl (· ++ ·) .empty)

/-- A library for every name, in order of first use, with what was taken from it. -/
def libraries (log : Log) : List ImportDirectory :=
  (log.imports.map (·.1)).eraseDups.map fun library =>
    { ImportDirectory.new library with imports := loggedUnder log.imports library }

/-- The libraries, if any symbol is taken. -/
def taken (log : Log) : Option (List ImportDirectory) :=
  if log.imports = [] then none else some log.libraries

/-- The directory of the symbols that are offered, if any is. -/
def offered (log : Log) : Option ExportDirectory :=
  if log.exports = [] then none else some { ExportDirectory.empty with exports := log.exports }

/-- The image that a record describes. -/
def image (log : Log) (order : ByteOrder) (pe64 : Bool) : Image :=
  { new order pe64 with
    sections := log.sections
    imports := log.taken
    exports := log.offered
    current := log.selected.map fun name => log.uses.eraseDups.idxOf name }

/-- A section with its standard permissions. -/
def newSection (name : String) : Section := .new name (Section.standardFlags name) .empty

/-- Content behind that of a section. -/
def addContent (s : Section) (data : Buffer) : Section := { s with content := s.content ++ data }

/-- A symbol behind those of a library. -/
def addSymbol (d : ImportDirectory) (symbol : Import) : ImportDirectory :=
  { d with imports := d.imports ++ [symbol] }

theorem foldl_addContent (l : List Buffer) (s : Section) :
    l.foldl addContent s = { s with content := l.foldl (· ++ ·) s.content } := by
  induction l generalizing s with
  | nil => rfl
  | cons data rest ih => exact ih (addContent s data)

theorem foldl_addSymbol (l : List Import) (d : ImportDirectory) :
    l.foldl addSymbol d = { d with imports := d.imports ++ l } := by
  induction l generalizing d with
  | nil => rw [List.append_nil, List.foldl_nil]
  | cons symbol rest ih => rw [List.foldl_cons, ih, addSymbol, List.append_assoc, List.singleton_append]

theorem sections_eq_grouped (log : Log) :
    log.sections = grouped newSection addContent log.uses log.emissions := by
  refine List.map_congr_left fun name _ => ?_
  rw [foldl_addContent]
  rfl

theorem libraries_eq_grouped (log : Log) :
    log.libraries = grouped ImportDirectory.new addSymbol (log.imports.map (·.1)) log.imports := by
  refine List.map_congr_left fun library _ => ?_
  rw [foldl_addSymbol]
  rfl

theorem map_name_sections (log : Log) : log.sections.map (·.name) = log.uses.eraseDups := by
  rw [sections, List.map_map]
  exact List.map_id _

theorem map_library_libraries (log : Log) :
    log.libraries.map (·.library) = (log.imports.map (·.1)).eraseDups := by
  rw [libraries, List.map_map]
  exact List.map_id _

theorem findIdx_sections (log : Log) (name : String) :
    log.sections.findIdx (fun s => s.name == name) = log.uses.eraseDups.idxOf name := by
  rw [← map_name_sections, List.idxOf, List.findIdx_map]
  rfl

theorem getD_taken (log : Log) : log.taken.getD [] = log.libraries := by
  rw [taken]
  split
  · next h => rw [libraries, h]; rfl
  · rfl

theorem exports_getD_offered (log : Log) : (log.offered.getD .empty).exports = log.exports := by
  rw [offered]
  split
  · next h => rw [h]; rfl
  · rfl

/-! ## One call -/

variable (log : Log) (order : ByteOrder) (pe64 : Bool)

/-- A section is used, and something may be emitted to it. -/
theorem sections_use (name : String) (emitted : List Buffer) :
    (updateFirst (fun s => s.name == name) (newSection name)
      (fun s => (emitted.foldl addContent s, ())) log.sections).1 =
        (log.use name emitted).sections := by
  rw [sections_eq_grouped, sections_eq_grouped]
  exact updateFirst_grouped Section.name newSection addContent (fun _ => rfl) (fun _ _ => rfl)
    log.emissions_subset name emitted

theorem image_use (name : String) (emitted : List Buffer) :
    (log.use name emitted).image order pe64 =
      { log.image order pe64 with
        sections := (log.use name emitted).sections
        current := some (log.sections.findIdx fun s => s.name == name) } := by
  rw [findIdx_sections, ← idxOf_eraseDups_concat]
  rfl

theorem switchSection_image (name : String) :
    (log.image order pe64).switchSection name = (log.use name []).image order pe64 := by
  rw [image_use, ← sections_use]
  rfl

/-- The section that is selected is found again, and stays as it is. -/
theorem switchSection_selected {name : String} (h : log.selected = some name) :
    (log.image order pe64).switchSection name = log.image order pe64 := by
  have hmem : name ∈ log.sections.map (·.name) := by
    rw [map_name_sections]
    exact List.mem_eraseDups.2 (log.selected_mem name h)
  obtain ⟨s, hs, hname⟩ := List.mem_map.1 hmem
  obtain ⟨first, hfirst⟩ := Option.isSome_iff_exists.1
    (List.find?_isSome (p := fun s => s.name == name).2 ⟨s, hs, beq_iff_eq.2 hname⟩)
  have hsections : (updateFirst (fun s => s.name == name)
      (.new name (Section.standardFlags name) .empty) (fun s => (s, ())) log.sections).1 =
        log.sections := updateFirst_of_find? _ hfirst rfl
  rw [switchSection, image]
  simp only [hsections, findIdx_sections, h, Option.map_some]

/-- Content goes to the section that is selected, which may be selected once more for it. -/
theorem emit_eq_emit_switchSection (data : Buffer) :
    (log.image order pe64).emit data =
      ((log.image order pe64).switchSection (log.selected.getD ".text")).emit data := by
  cases h : log.selected with
  | some name => exact congrArg (emit · data) (switchSection_selected log order pe64 h).symm
  | none =>
    have hcurrent : (log.image order pe64).current = none := congrArg (Option.map _) h
    rw [emit, hcurrent]
    rfl

theorem emit_image (data : Buffer) :
    (log.image order pe64).emit data =
      (log.use (log.selected.getD ".text") [data]).image order pe64 := by
  rw [emit_eq_emit_switchSection, image_use, ← sections_use, ← modify_findIdx_updateFirst]
  rfl

theorem taken_add (library : String) (symbol : Import) :
    (log.add (.addImport library symbol)).taken =
      some (updateFirst (fun (d : ImportDirectory) => d.library == library) (.new library)
        (fun d => (addSymbol d symbol, ())) (log.taken.getD [])).1 := by
  have hnew : (log.add (.addImport library symbol)).imports ≠ [] := List.concat_ne_nil _ _
  have hkeys : (log.add (.addImport library symbol)).imports.map (·.1) =
      log.imports.map (·.1) ++ [library] := List.map_append
  rw [getD_taken, taken, if_neg hnew, libraries_eq_grouped, libraries_eq_grouped, hkeys]
  exact congrArg some (updateFirst_grouped ImportDirectory.library .new addSymbol
    (fun _ => rfl) (fun _ _ => rfl) (fun _ h => h) library [symbol]).symm

theorem offered_add (symbol : Export) :
    (log.add (.addExport symbol)).offered =
      some { log.offered.getD .empty with
        exports := (log.offered.getD .empty).exports ++ [symbol] } := by
  have hnew : (log.add (.addExport symbol)).exports ≠ [] := List.concat_ne_nil _ _
  rw [offered, if_neg hnew, offered]
  split
  · next h => simp [add, h]; rfl
  · rfl

/-- **One more call** after those of a record. -/
theorem perform_image (call : Call) :
    (log.image order pe64).perform call = (log.add call).image order pe64 := by
  cases call with
  | emit data => exact log.emit_image order pe64 data
  | switchSection name => exact log.switchSection_image order pe64 name
  | addImport library symbol =>
    exact congrArg (fun taken : Option (List ImportDirectory) =>
      { log.image order pe64 with imports := taken }) (log.taken_add library symbol).symm
  | addExport symbol =>
    exact congrArg (fun offered : Option ExportDirectory =>
      { log.image order pe64 with exports := offered }) (log.offered_add symbol).symm

theorem performAll_image (calls : List Call) :
    (log.image order pe64).performAll calls = (calls.foldl add log).image order pe64 := by
  induction calls generalizing log with
  | nil => rfl
  | cons call rest ih =>
    show ((log.image order pe64).perform call).performAll rest = _
    rw [perform_image, ih, List.foldl_cons]

/-! ## What comes of the calls -/

/-- The section that is selected is where the image says. -/
theorem getElem?_current {i : Nat} (h : (log.image order pe64).current = some i) :
    ∃ s, log.sections[i]? = some s ∧ log.selected = some s.name := by
  obtain ⟨name, hname, rfl⟩ := Option.map_eq_some_iff.1 h
  have hmem : name ∈ log.uses.eraseDups := List.mem_eraseDups.2 (log.selected_mem name hname)
  have hlt := List.idxOf_lt_length_of_mem hmem
  refine ⟨.new name (Section.standardFlags name)
    ((loggedUnder log.emissions name).foldl (· ++ ·) .empty), ?_, hname⟩
  rw [sections, List.getElem?_map, List.getElem?_eq_getElem hlt, List.getElem_idxOf hlt]
  rfl

end Log

/-- **An image is built of what its calls say.**  It is the one that the record of the calls
describes.  So every section is there once, in the order of first use, with its standard permissions
and what was emitted to it; the current section is there, so that no call meets one that is missing;
every library is there once, in the order of first use, with what was taken from it; and what is offered
comes in the order of the calls. -/
theorem performAll_new (order : ByteOrder) (pe64 : Bool) (calls : List Call) :
    let image := (new order pe64).performAll calls
    let log := Log.ofCalls calls
    image = log.image order pe64 ∧
      (image.sections.map (·.name)).Nodup ∧
      image.sections.map (·.name) = log.uses.eraseDups ∧
      (∀ s ∈ image.sections, s.flags = Section.standardFlags s.name ∧
        s.content = (loggedUnder log.emissions s.name).foldl (· ++ ·) .empty) ∧
      (image.current = none ↔ log.selected = none) ∧
      (∀ i, image.current = some i →
        ∃ s, image.sections[i]? = some s ∧ log.selected = some s.name) ∧
      ((image.imports.getD []).map (·.library)).Nodup ∧
      (image.imports.getD []).map (·.library) = (log.imports.map (·.1)).eraseDups ∧
      (∀ d ∈ image.imports.getD [], d.imports = loggedUnder log.imports d.library) ∧
      (image.exports.getD .empty).exports = log.exports := by
  intro image log
  have himage : image = log.image order pe64 := Log.performAll_image .empty order pe64 calls
  have htaken : image.imports.getD [] = log.libraries := by
    rw [himage]
    exact log.getD_taken
  have hsections : image.sections = log.sections := congrArg Image.sections himage
  refine ⟨himage, ?_, ?_, ?_, ?_, fun i hi => ?_, ?_, ?_, ?_, ?_⟩
  · rw [hsections, Log.map_name_sections]
    exact nodup_eraseDups _
  · rw [hsections, Log.map_name_sections]
  · rw [hsections]
    intro s hs
    obtain ⟨name, -, rfl⟩ := List.mem_map.1 hs
    exact ⟨rfl, rfl⟩
  · rw [himage]
    exact Option.map_eq_none_iff
  · rw [himage] at hi
    rw [hsections]
    exact log.getElem?_current order pe64 hi
  · rw [htaken, Log.map_library_libraries]
    exact nodup_eraseDups _
  · rw [htaken, Log.map_library_libraries]
  · rw [htaken]
    intro d hd
    obtain ⟨library, -, rfl⟩ := List.mem_map.1 hd
    rfl
  · rw [himage]
    exact log.exports_getD_offered

/-- Calls that go back and forth, the first of them without a section. -/
def interleaved : List Call :=
  [.emit (.ofBytes [1]), .switchSection ".data", .addImport "a.dll" (.byName "open"),
    .emit (.ofBytes [2]), .addExport ⟨some "start", .address (.label "start"), none⟩,
    .addImport "b.dll" (.byOrdinal 7), .switchSection ".text", .emit (.ofBytes [3]),
    .addImport "a.dll" (.byName "close"), .addExport ⟨some "stop", .address (.label "stop"), none⟩]

theorem performAll_new_interleaved :
    let image := (new .little false).performAll interleaved
    image.sections =
        [.new ".text" (.read ||| .execute) (.ofBytes [1, 3]),
          .new ".data" (.read ||| .write) (.ofBytes [2])] ∧
      image.current = some 0 ∧
      image.imports = some
        [{ ImportDirectory.new "a.dll" with imports := [.byName "open", .byName "close"] },
          { ImportDirectory.new "b.dll" with imports := [.byOrdinal 7] }] ∧
      image.exports.map (·.exports.map (·.name)) = some [some "start", some "stop"] := by
  intro image
  have himage : image = (Log.ofCalls interleaved).image .little false :=
    (performAll_new .little false interleaved).1
  rw [himage]
  decide +kernel

end Image

end PortableImage
