import PortableImage.Proofs.Encode.Assembly

/-!
# Assembling an image at another base

No directory depends on the preferred address of the image.  Assembling it at another base does the
same, and leaves the other base in the optional header.

* `Image.withBase` — the image at another base.
* `Assembly.withDirectories_withBase` — what is assembled at another base.
-/

set_option autoImplicit false

namespace PortableImage

/-- The image with another preferred address. -/
def Image.withBase (image : Image) (base : Option UInt64) : Image :=
  { image with optionalHeader := { image.optionalHeader with imageBase := base } }

namespace Assembly

/-- The assembly of an image with another preferred address. -/
def withBase (a : Assembly) (base : Option UInt64) : Assembly :=
  { a with image := a.image.withBase base }

section Steps

variable {a a' : Assembly} (base : Option UInt64)

theorem addSection_withBase {s : Section} (h : (a.addSection s).result = .ok a') :
    ((a.withBase base).addSection s).result = .ok (a'.withBase base) := by
  rw [result_addSection] at h ⊢
  cases h
  rfl

theorem addAutoImports_withBase {catalog : Option Catalog}
    (h : (a.addAutoImports catalog).result = .ok a') :
    ((a.withBase base).addAutoImports catalog).result = .ok (a'.withBase base) := by
  cases catalog with
  | none =>
    cases h
    rfl
  | some catalog =>
    cases h
    rfl

theorem addExports_withBase (h : a.addExports.result = .ok a') :
    (a.withBase base).addExports.result = .ok (a'.withBase base) := by
  have hsame : (a.withBase base).image.exports = a.image.exports := rfl
  rw [addExports.eq_def, hsame]
  rw [addExports.eq_def] at h
  cases hdir : a.image.exports with
  | none =>
    rw [hdir] at h
    cases h
    rfl
  | some dir =>
    rw [hdir] at h
    simp only [Logged.bind_eq_ok, Logged.result_liftM] at h ⊢
    obtain ⟨r, hr, h⟩ := h
    exact ⟨r, hr, addSection_withBase base h⟩

theorem addResources_withBase (h : a.addResources.result = .ok a') :
    (a.withBase base).addResources.result = .ok (a'.withBase base) := by
  have hsame : (a.withBase base).image.resources = a.image.resources := rfl
  rw [addResources.eq_def, hsame]
  rw [addResources.eq_def] at h
  cases hdir : a.image.resources with
  | none =>
    rw [hdir] at h
    cases h
    rfl
  | some root =>
    rw [hdir] at h
    simp only [Logged.bind_eq_ok, Logged.result_liftM] at h ⊢
    obtain ⟨r, hr, h⟩ := h
    exact ⟨r, hr, addSection_withBase base h⟩

theorem addTls_withBase (h : a.addTls.result = .ok a') :
    (a.withBase base).addTls.result = .ok (a'.withBase base) := by
  have hsame : (a.withBase base).image.tls = a.image.tls := rfl
  rw [addTls.eq_def, hsame]
  rw [addTls.eq_def] at h
  cases hdir : a.image.tls with
  | none =>
    rw [hdir] at h
    cases h
    rfl
  | some tls =>
    rw [hdir] at h
    simp only [Logged.bind_eq_ok, Logged.result_liftM] at h ⊢
    obtain ⟨r, hr, h⟩ := h
    exact ⟨r, hr, addSection_withBase base h⟩

theorem addTable_withBase {table : Option Buffer} (h : (a.addTable table).result = .ok a') :
    ((a.withBase base).addTable table).result = .ok (a'.withBase base) := by
  cases table with
  | none =>
    cases h
    rfl
  | some table => exact addSection_withBase base h

theorem addCallStubs_withBase {stubs : Buffer} (h : (a.addCallStubs stubs).result = .ok a') :
    ((a.withBase base).addCallStubs stubs).result = .ok (a'.withBase base) := by
  rw [addCallStubs] at h ⊢
  split at h
  · next hempty =>
    rw [if_pos hempty]
    cases h
    rfl
  · next hsome =>
    rw [if_neg hsome]
    exact addSection_withBase base h

theorem addParts_withBase {dirs : List ImportDirectory} {tables : List Buffer}
    (h : (a.addParts dirs tables).result = .ok a') :
    ((a.withBase base).addParts dirs tables).result = .ok (a'.withBase base) := by
  simp only [addParts, Logged.bind_eq_ok, Logged.result_liftM, Logged.result_pure,
    Except.ok.injEq] at h ⊢
  obtain ⟨stubs, hstubs, parts, hparts, a₁, h₁, a₂, h₂, rfl⟩ := h
  exact ⟨stubs, hstubs, parts, hparts, _, addTable_withBase base h₁, _,
    addCallStubs_withBase base h₂, rfl⟩

theorem setTableDirectory_withBase (a : Assembly) (order : List Nat) (tables : List Buffer) :
    (a.withBase base).setTableDirectory order tables =
      ((a.setTableDirectory order tables).1.withBase base,
        (a.setTableDirectory order tables).2) := by
  rw [setTableDirectory, setTableDirectory]
  cases order.head? with
  | none => rfl
  | some first =>
    cases order.getLast? with
    | none => rfl
    | some last => rfl

theorem addImports_withBase (h : a.addImports.result = .ok a') :
    (a.withBase base).addImports.result = .ok (a'.withBase base) := by
  have hsame : (a.withBase base).image.imports = a.image.imports := rfl
  rw [addImports.eq_def, hsame]
  rw [addImports.eq_def] at h
  cases hdirs : a.image.imports with
  | none =>
    rw [hdirs] at h
    cases h
    rfl
  | some dirs =>
    rw [hdirs] at h
    cases dirs with
    | nil =>
      cases h
      rfl
    | cons dir dirs =>
      simp only [Logged.bind_eq_ok, Logged.result_liftM, Prod.exists] at h ⊢
      obtain ⟨b, tables, c, himports, a₁, h₁, h₂⟩ := h
      refine ⟨b, tables, c, himports, _, addSection_withBase base h₁, ?_⟩
      rw [setTableDirectory_withBase]
      exact addParts_withBase base h₂

theorem beforeRelocations_withBase {options : EncodeOptions}
    (h : (a.beforeRelocations options).result = .ok a') :
    ((a.withBase base).beforeRelocations options).result = .ok (a'.withBase base) := by
  simp only [beforeRelocations, Logged.bind_eq_ok] at h ⊢
  obtain ⟨b, hb, c, hc, d, hd, e, he, hf⟩ := h
  exact ⟨_, addAutoImports_withBase base hb, _, addExports_withBase base hc, _,
    addImports_withBase base hd, _, addResources_withBase base he, addTls_withBase base hf⟩

theorem findRelocations_withBase {options : EncodeOptions}
    (h : (a.findRelocations options).result = .ok a') :
    ((a.withBase base).findRelocations options).result = .ok (a'.withBase base) := by
  rw [findRelocations] at h ⊢
  split at h
  · next hwants =>
    rw [if_pos hwants]
    simp only [Logged.bind_eq_ok, Logged.result_pure, Except.ok.injEq] at h ⊢
    obtain ⟨r, hr, rfl⟩ := h
    exact ⟨r, hr, rfl⟩
  · next hwants =>
    rw [if_neg hwants]
    cases h
    rfl

theorem addRelocations_withBase (h : a.addRelocations.result = .ok a') :
    (a.withBase base).addRelocations.result = .ok (a'.withBase base) := by
  have hsame : (a.withBase base).image.relocations = a.image.relocations := rfl
  rw [addRelocations.eq_def, hsame]
  rw [addRelocations.eq_def] at h
  cases htables : a.image.relocations with
  | none =>
    rw [htables] at h
    cases h
    rfl
  | some tables =>
    rw [htables] at h
    simp only [Logged.bind_eq_ok, Logged.result_liftM] at h ⊢
    obtain ⟨b, hb, h⟩ := h
    exact ⟨b, hb, addSection_withBase base h⟩

/-- **What is assembled at another base differs only in the base.** -/
theorem withDirectories_withBase {options : EncodeOptions}
    (h : (a.withDirectories options).result = .ok a') :
    ((a.withBase base).withDirectories options).result = .ok (a'.withBase base) := by
  obtain ⟨a₀, a₁, h₀, h₁, h₂⟩ := withDirectories_eq_ok.1 h
  exact withDirectories_eq_ok.2 ⟨_, _, beforeRelocations_withBase base h₀,
    findRelocations_withBase base h₁, addRelocations_withBase base h₂⟩

end Steps

end Assembly

end PortableImage
