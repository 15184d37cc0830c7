import PortableImage.Proofs.Encode.Stages
import PortableImage.Proofs.Rebase.Image

/-!
# The headers of an image at another base

The base is the value of one field in the optional header.  Whatever it is, the headers take as many
bytes, the sections get the same labels, and the same fields stay pending.
-/

set_option autoImplicit false

namespace PortableImage

/-- The optional header with another preferred address. -/
def OptionalHeader.withBase (h : OptionalHeader) (base : Option UInt64) : OptionalHeader :=
  { h with imageBase := base }

section Optional

variable {c : Context} (base : Option UInt64)

theorem fillDefaults_withBase {h : OptionalHeader} {sections : List Section} {d : Defaults}
    (hd : fillDefaults c h sections = .ok d) :
    fillDefaults c (h.withBase base) sections = .ok { d with header := d.header.withBase base } := by
  simp only [fillDefaults, bind_eq_ok, pure_eq_ok] at hd ⊢
  obtain ⟨⟨⟩, hs, ⟨⟩, hf, codeSize, hcode, dataSize, hdata, bssSize, hbss, rfl⟩ := hd
  exact ⟨⟨⟩, hs, ⟨⟩, hf, codeSize, hcode, dataSize, hdata, bssSize, hbss, rfl⟩

theorem size_optionalFields_withBase (h : OptionalHeader) (pending : PendingHeader) :
    (optionalFields c (h.withBase base) pending).size = (optionalFields c h pending).size := by
  simp only [optionalFields, Record.size_append, Record.size_cons]
  rfl

/-- At another base, the optional header takes as many bytes and leaves the same fields pending. -/
theorem encodeOptionalHeader_withBase {image : Image} {r r' : OptionalHeaderResult}
    (h : encodeOptionalHeader c image = .ok r)
    (h' : encodeOptionalHeader c (image.withBase base) = .ok r') :
    r'.image = r.image.withBase base ∧ r'.pending = r.pending ∧ r'.context = r.context ∧
      r'.header.virtSize = r.header.virtSize := by
  simp only [encodeOptionalHeader, bind_eq_ok, pure_eq_ok] at h h'
  obtain ⟨d, hd, ⟨⟩, -, header, hrecord, rfl⟩ := h
  obtain ⟨d', hd', ⟨⟩, -, header', hrecord', rfl⟩ := h'
  have heq := fillDefaults_withBase base hd
  rw [show fillDefaults c (image.optionalHeader.withBase base) image.sections =
    .ok d' from hd'] at heq
  cases heq
  refine ⟨rfl, rfl, rfl, ?_⟩
  dsimp only at hrecord hrecord' ⊢
  rw [FieldEncoder.virtSize_record hrecord, FieldEncoder.virtSize_record hrecord',
    Record.size_append, Record.size_append]
  -- neither the pending labels nor the directories depend on the base
  have hpending : pendingHeader d.context (d.header.withBase base) =
      pendingHeader d.context d.header := rfl
  have hdirectories : ∀ n, directoryFields (image.withBase base) n = directoryFields image n :=
    fun _ => rfl
  rw [hpending, size_optionalFields_withBase, hdirectories]
  rfl

end Optional

/-- **At another base, the headers take as many bytes and the sections get the same labels.** -/
theorem Assembly.withHeaders_withBase {a : Assembly} {target : Target} {h h' : HeadedImage}
    (base : Option UInt64) (hh : a.withHeaders target = .ok h)
    (hh' : (a.withBase base).withHeaders target = .ok h') :
    h'.image = h.image.withBase base ∧ h'.pending = h.pending ∧
      h'.headers.virtSize = h.headers.virtSize := by
  simp only [withHeaders, bind_eq_ok, pure_eq_ok, Prod.exists] at hh hh'
  obtain ⟨table, htable, optional, hoptional, stub, hstub, file, header, hfile, rfl⟩ := hh
  obtain ⟨table', htable', optional', hoptional', stub', hstub', file', header', hfile', rfl⟩ := hh'
  rw [show encodeSectionTable (a.withBase base).context
    ((a.withBase base).image.withTargetDefaults target).sections = .ok table from htable] at htable'
  cases htable'
  obtain ⟨himage, hpending, hcontext, hsize⟩ :=
    encodeOptionalHeader_withBase base hoptional hoptional'
  rw [hcontext] at hstub' hfile'
  rw [hstub] at hstub'
  cases hstub'
  rw [himage, hsize, show ((a.withBase base).image.withTargetDefaults target).header =
    (a.image.withTargetDefaults target).header from rfl] at hfile'
  rw [show encodeFileHeader _ _ (optional.image.withBase base).sections.length _
    (a.withBase base).now = .ok (file, header) from hfile] at hfile'
  cases hfile'
  refine ⟨?_, hpending, ?_⟩
  · rw [himage]
    rfl
  · simp only [Buffer.virtSize_append, hsize, hcontext]

end PortableImage
