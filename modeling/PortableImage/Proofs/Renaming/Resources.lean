import PortableImage.Directory.Resource
import PortableImage.Proofs.Renaming.Tables

/-!
# The resource directory under different names

A resource tree has no labels.  Those of its levels are invented, and get their values while the
directory is written.

* `encodeLevel_renamed` — a level is written alike in both runs.
* `encodeResources_renamed` — the directories are alike up to names.
-/

set_option autoImplicit false

namespace PortableImage

open Tables

variable {W : Renaming} {t t' : Tables}

theorem encodeId_renamed (id : ResourceId) (ht : t.Renamed W t') :
    Runs (Grown W Tables.Renamed) (encodeId id t) (encodeId id t') := by
  rw [encodeId.eq_def, encodeId.eq_def, ht.encoder]
  cases id with
  | name name =>
    obtain ⟨V, place, u, place', u', hle, heq, heq', hplace, hu⟩ :=
      (ht.offsetEnd "names" "table").pair
    simp only [heq, heq']
    refine Runs.grown ?_ hle
    refine (FieldEncoder.record_renamed (W := V) _ ?_).bind fun text text' htext => ?_
    · exact .cons ⟨rfl, Expr.renamed_ofSize V _⟩ (List.forall₂_map_left_iff.2 <|
        List.forall₂_map_right_iff.2 <| List.forall₂_same.2 fun _ _ =>
          ⟨rfl, Expr.renamed_ofSize V _⟩)
    · refine (FieldEncoder.encode_renamed _ _ (hplace.or (Expr.renamed_const V _))).bind ?_
      exact fun word word' hword => ⟨V, le_refl V, (hu.append _ htext).append _ hword⟩
  | number id =>
    refine (FieldEncoder.encode_renamed _ _ (Expr.renamed_ofSize W _)).bind fun word word' hword => ?_
    exact ⟨W, le_refl W, ht.append _ hword⟩

theorem encodeContent_renamed (content : ResourceContent) (ht : t.Renamed W t') :
    Runs (Grown W (Results Renaming.MapsOption)) (encodeContent content t)
      (encodeContent content t') := by
  rw [encodeContent.eq_def, encodeContent.eq_def, ht.encoder]
  cases content with
  | directory info entries =>
    obtain ⟨V, label, c, label', c', hle, heq, heq', hlabel, hc⟩ :=
      (ht.context.fresh "rsrc_curoff" "rsrc_curoff").pair
    simp only [heq, heq']
    refine (FieldEncoder.encode_renamed _ _
      ((Expr.renamed_label hlabel).or (Expr.renamed_const V _))).bind fun word word' hword => ?_
    exact ⟨V, hle, .some hlabel, (ht.withContext hle hc).append _ hword⟩
  | data bytes codepage reserved =>
    obtain ⟨V, place, u, place', u', hle, heq, heq', hplace, hu⟩ :=
      (ht.offsetEnd "dataentries" "table").pair
    obtain ⟨U, address, v, address', v', hle', heq₁, heq₁', haddress, hv⟩ := (hu.rvaEnd "data").pair
    simp only [heq, heq', heq₁, heq₁']
    refine Runs.grown ?_ (le_trans hle hle')
    refine (FieldEncoder.record_renamed (W := U) _ ?_).bind fun text text' htext => ?_
    · exact .cons ⟨rfl, haddress⟩ <| .cons ⟨rfl, Expr.renamed_ofSize U _⟩ <|
        .cons ⟨rfl, Expr.renamed_ofSize U _⟩ <| .cons ⟨rfl, Expr.renamed_ofSize U _⟩ .nil
    · refine (FieldEncoder.encode_renamed _ _ (hplace.mono hle')).bind fun word word' hword => ?_
      exact ⟨U, le_refl U, .none, ((hv.append _ htext).extend _ bytes).append _ hword⟩

/-- The labels of the levels below stand for each other. -/
abbrev LabelsRenamed (W : Renaming) (labels labels' : List (Option String)) : Prop :=
  List.Forall₂ W.MapsOption labels labels'

theorem encodeLevelEntries_renamed (entries : List (ResourceId × ResourceContent))
    (ht : t.Renamed W t') :
    Runs (Grown W (Results LabelsRenamed)) (encodeLevelEntries entries t)
      (encodeLevelEntries entries t') := by
  induction entries generalizing W t t' with
  | nil => exact ⟨W, le_refl W, .nil, ht⟩
  | cons e rest ih =>
    obtain ⟨id, content⟩ := e
    rw [encodeLevelEntries, encodeLevelEntries]
    refine (encodeId_renamed id ht).bindGrown fun W₁ t₁ t₁' _ ht₁ => ?_
    refine (encodeContent_renamed content ht₁).bindGrown fun W₂ x x' _ ⟨hlabel, ht₂⟩ => ?_
    refine (ih ht₂).bindGrown fun W₃ y y' hle ⟨hlabels, ht₃⟩ => ?_
    exact ⟨W₃, le_refl W₃, .cons (Renaming.mapsOption_mono hlabel hle) hlabels, ht₃⟩

/-- A level is written alike in both runs. -/
theorem encodeLevel_renamed (info : ResourceInfo) (entries : List (ResourceId × ResourceContent))
    (ht : t.Renamed W t') :
    Runs (Grown W (Results LabelsRenamed)) (encodeLevel info entries t)
      (encodeLevel info entries t') := by
  rw [encodeLevel, encodeLevel, ht.encoder]
  refine (FieldEncoder.record_renamed _ (Record.renamed_self (W := W) rfl)).bind
    fun header header' hheader => ?_
  exact encodeLevelEntries_renamed entries (ht.append _ hheader)

/-- Both levels are started, or neither. -/
theorem startLevel_renamed {label label' : String} (hl : W.Maps label label')
    (ht : t.Renamed W t') :
    Runs (Tables.Renamed W) (startLevel label t) (startLevel label' t') := by
  rw [startLevel, startLevel, (ht.table "table").virtSize]
  refine ((Binding.renamed_empty W).bind hl (Expr.renamed_ofSize W _)).bind fun b b' hb => ?_
  refine ((ht.table "table").fixup hb).bind fun table table' htable => ?_
  exact ht.modify "table" fun _ _ _ => htable

mutual

theorem encodeBelow_renamed {W : Renaming} {t t' : Tables} (content : ResourceContent)
    {label label' : Option String} (hl : W.MapsOption label label') (ht : t.Renamed W t') :
    Runs (Grown W Tables.Renamed) (encodeBelow content label t)
      (encodeBelow content label' t') := by
  match content, hl with
  | .directory info entries, .some hl =>
    rw [encodeBelow, encodeBelow]
    refine (startLevel_renamed hl ht).bind fun t₁ t₁' ht₁ => ?_
    refine (encodeLevel_renamed info entries ht₁).bindGrown fun V x x' _ ⟨hlabels, ht₂⟩ => ?_
    exact encodeAllBelow_renamed entries hlabels ht₂
  | .directory info entries, .none =>
    rw [encodeBelow, encodeBelow]
    · exact ⟨W, le_refl W, ht⟩
    · nofun
    · nofun
  | .data bytes codepage reserved, hl =>
    rw [encodeBelow, encodeBelow]
    · exact ⟨W, le_refl W, ht⟩
    · nofun
    · nofun

theorem encodeAllBelow_renamed {W : Renaming} {t t' : Tables}
    (entries : List (ResourceId × ResourceContent)) {labels labels' : List (Option String)}
    (hl : LabelsRenamed W labels labels') (ht : t.Renamed W t') :
    Runs (Grown W Tables.Renamed) (encodeAllBelow entries labels t)
      (encodeAllBelow entries labels' t') := by
  match entries, hl with
  | (id, content) :: rest, .cons hfirst hrest =>
    rw [encodeAllBelow, encodeAllBelow]
    refine (encodeBelow_renamed content hfirst ht).bindGrown fun V t₁ t₁' hle ht₁ => ?_
    exact encodeAllBelow_renamed rest
      (hrest.imp fun _ _ hlabel => Renaming.mapsOption_mono hlabel hle) ht₁
  | (id, content) :: rest, .nil =>
    rw [encodeAllBelow]
    · exact ⟨W, le_refl W, ht⟩
    · nofun
  | [], hl =>
    rw [encodeAllBelow, encodeAllBelow]
    · exact ⟨W, le_refl W, ht⟩
    · nofun
    · nofun

end

/-- **The directories are alike up to names, or fail in both runs.** -/
theorem encodeResources_renamed (root : ResourceDirectory) {c c' : Context}
    (hc : c.Renamed W c') :
    Runs (Grown W fun V x x' => x.1.Renamed V x'.1 ∧ x.2.Renamed V x'.2)
      (encodeResources c root) (encodeResources c' root) := by
  rw [encodeResources, encodeResources]
  refine (encodeLevel_renamed _ _ (renamed_new hc _)).bindGrown fun V x x' _ ⟨hlabels, ht⟩ => ?_
  refine (encodeAllBelow_renamed _ hlabels ht).bindGrown fun U t t' _ ht => ?_
  have hfinal : Tables.Renamed U (t.modify "names" (·.align 4)) (t'.modify "names" (·.align 4)) :=
    ht.modify "names" fun _ _ hb => hb.align 4
  exact ⟨U, le_refl U, hfinal.concat, hfinal.context⟩

end PortableImage
