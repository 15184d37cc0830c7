import PortableImage.Directory.Import
import PortableImage.Proofs.Renaming.Tables

/-!
# The import directory under different names

* `Import.Renamed`, `ImportDirectory.Renamed` — imports that differ in the names of their labels
  only.
* `encodeImports_renamed` — the directory and the address tables are alike up to names, or encoding
  them fails in both runs.
-/

set_option autoImplicit false

namespace PortableImage

open Tables

variable {W V : Renaming} {t t' : Tables}

/-- The imports differ in the names of their labels only. -/
structure Import.Renamed (W : Renaming) (i i' : Import) : Prop where
  name : i'.name = i.name
  ordinal : i'.ordinal = i.ordinal
  hint : i'.hint = i.hint
  thunk : W.MapsOption i.thunk i'.thunk
  target : W.MapsOption i.target i'.target

theorem Import.Renamed.mono {i i' : Import} (h : i.Renamed W i') (hle : W ≤ V) :
    i.Renamed V i' :=
  ⟨h.name, h.ordinal, h.hint, Renaming.mapsOption_mono h.thunk hle,
    Renaming.mapsOption_mono h.target hle⟩

/-- The libraries differ in the names of labels only. -/
structure ImportDirectory.Renamed (W : Renaming) (dir dir' : ImportDirectory) : Prop where
  imports : List.Forall₂ (Import.Renamed W) dir.imports dir'.imports
  fields : dir' = { dir with imports := dir'.imports }

theorem ImportDirectory.Renamed.mono {dir dir' : ImportDirectory} (h : dir.Renamed W dir')
    (hle : W ≤ V) : dir.Renamed V dir' :=
  ⟨h.imports.imp fun _ _ hi => hi.mono hle, h.fields⟩

/-- The libraries of two images. -/
abbrev LibrariesRenamed (W : Renaming) (dirs dirs' : List ImportDirectory) : Prop :=
  List.Forall₂ (ImportDirectory.Renamed W) dirs dirs'

theorem LibrariesRenamed.mono {dirs dirs' : List ImportDirectory}
    (h : LibrariesRenamed W dirs dirs') (hle : W ≤ V) : LibrariesRenamed V dirs dirs' :=
  List.Forall₂.imp (fun _ _ hdir => hdir.mono hle) h

/-! ## The directory -/

theorem importEntry_renamed (library : String) {i i' : Import} (hi : i.Renamed W i')
    (ht : t.Renamed W t') :
    Runs (Grown W (Results Expr.Renamed)) (importEntry library i t) (importEntry library i' t') := by
  rw [importEntry, importEntry, hi.name, hi.ordinal]
  split
  · rw [ht.encoder]
    exact ⟨W, le_refl W, Expr.renamed_ofSize W _, ht⟩
  · have haligned : Tables.Renamed W (t.modify "nametable" (·.align 2))
        (t'.modify "nametable" (·.align 2)) := ht.modify "nametable" fun _ _ hb => hb.align 2
    obtain ⟨V, rva, u, rva', u', hle, heq, heq', hrva, hu⟩ := (haligned.rvaEnd "nametable").pair
    have hencoder : u'.context.encoder = u.context.encoder := hu.encoder
    simp only [heq, heq', hencoder, hi.hint]
    refine (FieldEncoder.encode_renamed _ _ (Expr.renamed_ofSize V _)).bind fun hint hint' hhint => ?_
    exact ⟨V, hle, hrva, (hu.append _ hhint).text _ _⟩
  · trivial

theorem encodeEntries_renamed (library : String) {imports imports' : List Import}
    (h : List.Forall₂ (Import.Renamed W) imports imports') {a a' : Buffer} (ha : a.Renamed W a')
    (ht : t.Renamed W t') :
    Runs (Grown W (Results Buffer.Renamed)) (encodeEntries library imports a t)
      (encodeEntries library imports' a' t') := by
  induction imports generalizing W imports' a a' t t' with
  | nil =>
    cases h
    rw [encodeEntries, encodeEntries, ht.encoder]
    refine (FieldEncoder.address_renamed _ (Expr.renamed_const W 0)).bind fun stop stop' hstop => ?_
    exact ⟨W, le_refl W, ha.append hstop, ht.append _ hstop⟩
  | cons i rest ih =>
    obtain _ | @⟨_, i', _, rest', hi, hrest⟩ := h
    rw [encodeEntries, encodeEntries]
    refine (importEntry_renamed library hi ht).bindGrown fun V x x' hle hentries => ?_
    obtain ⟨hvalue, hu⟩ := hentries
    dsimp only
    rw [hu.encoder]
    refine (FieldEncoder.address_renamed _ hvalue).bind fun entry entry' hentry => ?_
    refine ih (hrest.imp fun _ _ hx => hx.mono hle) (.append (.mono ?_ hle) hentry)
      (hu.append _ hentry)
    have htarget := hi.target
    generalize i.target = target at htarget
    generalize i'.target = target' at htarget
    rw [ha.virtSize]
    cases htarget with
    | none => exact ha
    | some hl => exact ha.addExport hl _

theorem encodeLibrary_renamed {dir dir' : ImportDirectory} (h : dir.Renamed W dir')
    (ht : t.Renamed W t') :
    Runs (Grown W (Results Buffer.Renamed)) (encodeLibrary dir t) (encodeLibrary dir' t') := by
  rw [encodeLibrary, encodeLibrary, h.fields]
  obtain ⟨W₁, start, x, start', x', hle₁, heq₁, heq₁', hstart, hc, ha⟩ :=
    (ht.context.labelAt (Buffer.renamed_empty W) 0 "iat" "iat").pair
  obtain ⟨W₂, lookup, t₂, lookup', t₂', hle₂, heq₂, heq₂', hlookup, ht₂⟩ :=
    ((ht.withContext hle₁ hc).rvaEnd "ilt").pair
  obtain ⟨W₃, name, t₃, name', t₃', hle₃, heq₃, heq₃', hname, ht₃⟩ := (ht₂.rvaEnd "nametable").pair
  have hencoder : t₃'.context.encoder = t₃.context.encoder := ht₃.encoder
  simp only [heq₁, heq₁', heq₂, heq₂', heq₃, heq₃', hencoder]
  refine Runs.grown ?_ (le_trans hle₁ (le_trans hle₂ hle₃))
  refine (FieldEncoder.record_renamed (W := W₃) _ ?_).bind fun header header' hheader => ?_
  · exact .cons ⟨rfl, hlookup.mono hle₃⟩ <| .cons ⟨rfl, Expr.renamed_ofSize W₃ _⟩ <|
      .cons ⟨rfl, Expr.renamed_ofSize W₃ _⟩ <| .cons ⟨rfl, hname⟩ <| .cons ⟨rfl,
        Context.rva_renamed ht₃.context.start
          (Expr.renamed_label (hstart.mono (le_trans hle₂ hle₃)))⟩ .nil
  · exact encodeEntries_renamed _
      (h.imports.imp fun _ _ hi => hi.mono (le_trans hle₁ (le_trans hle₂ hle₃)))
      (ha.mono (le_trans hle₂ hle₃)) ((ht₃.append "idata" hheader).text _ _)

theorem encodeLibraries_renamed {dirs dirs' : List ImportDirectory}
    (h : LibrariesRenamed W dirs dirs') (ht : t.Renamed W t') :
    Runs (Grown W (Results fun V => List.Forall₂ (Buffer.Renamed V))) (encodeLibraries dirs t)
      (encodeLibraries dirs' t') := by
  induction dirs generalizing W dirs' t t' with
  | nil =>
    cases h
    exact ⟨W, le_refl W, .nil, ht⟩
  | cons dir rest ih =>
    obtain _ | ⟨hdir, hrest⟩ := h
    rw [encodeLibraries, encodeLibraries]
    refine (encodeLibrary_renamed hdir ht).bindGrown fun V x x' hle ⟨ha, hu⟩ => ?_
    refine (ih (LibrariesRenamed.mono hrest hle) hu).bindGrown fun U y y' hle' ⟨hothers, hv⟩ => ?_
    exact ⟨U, le_refl U, .cons (ha.mono hle') hothers, hv⟩

/-- The directory and its address tables. -/
structure ImportsRenamed (W : Renaming) (x x' : Buffer × List Buffer × Context) : Prop where
  directory : x.1.Renamed W x'.1
  tables : List.Forall₂ (Buffer.Renamed W) x.2.1 x'.2.1
  context : x.2.2.Renamed W x'.2.2

/-- **The directory and the address tables are alike up to names, or fail in both runs.** -/
theorem encodeImports_renamed {dirs dirs' : List ImportDirectory}
    (h : LibrariesRenamed W dirs dirs') {c c' : Context} (hc : c.Renamed W c') :
    Runs (Grown W ImportsRenamed) (encodeImports c dirs) (encodeImports c' dirs') := by
  rw [encodeImports, encodeImports, hc.encoder]
  refine (encodeLibraries_renamed h (renamed_new hc _)).bindGrown fun V x x' _ ⟨ha, ht⟩ => ?_
  refine (FieldEncoder.record_renamed _ (Record.renamed_self (W := V) rfl)).bind
    fun stop stop' hstop => ?_
  have hfinal := ht.append "idata" hstop
  exact ⟨V, le_refl V, hfinal.concat, ha, hfinal.context⟩

end PortableImage
