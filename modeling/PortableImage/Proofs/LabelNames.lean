import PortableImage.Proofs.Renaming.Directories
import PortableImage.Proofs.Renaming.Image
import PortableImage.Proofs.Renaming.Placement

/-!
# The names of labels do not matter

The names of labels decide a lot while an image is encoded: which names the linker invents, in what
order the terms of a value stand, and what the slots of imports are called.  None of it reaches the
file.

* `encodeImage_rename` — an image and the image with other names for its labels give the same file,
  or both fail; the other names may be those that the linker has for its own labels.
-/

set_option autoImplicit false

namespace PortableImage

/-- **The names of labels do not matter.**  Let every label that an image uses be one of its own, and
let no call stub need the helper, whose label has a fixed name.  Nor may a section have kept the label
of a size in the file that was fixed since: it is none of the image's own and cannot be renamed, but is
bound with them.  Images that were not encoded before have no such section.  If different own labels
get different names, encoding the image and encoding it under the other names both fail, or give the
same bytes. -/
theorem encodeImage_rename {image : Image} {options : EncodeOptions} {ρ : String → String}
    (hcatalog : options.catalog = none)
    (hstubs : image.pic = true → ∀ dir ∈ image.imports.getD [], ∀ i ∈ dir.imports, i.thunk = none)
    (hleftover : leftoverLabels image.sections = [])
    (hused : ∀ l ∈ image.usedLabels, l ∈ image.ownLabels)
    (hρ : Set.InjOn ρ {l | l ∈ image.ownLabels}) (clock : UInt32) :
    Runs EncodedImage.Same (encodeImage image options clock).result
      (encodeImage (image.rename ρ) options clock).result := by
  have hhelper : WithoutHelper image.pic (image.imports.getD []) := fun hpic => by
    refine List.any_eq_false.2 fun dir hdir => ?_
    rw [Bool.not_eq_true]
    refine List.any_eq_false.2 fun i hi => ?_
    rw [hstubs hpic dir hdir i hi]
    exact Bool.false_ne_true
  obtain ⟨W, hstart⟩ := Assembly.start_rename hleftover hρ hused (options.timestamp.getD clock)
  simp only [encodeImage, Logged.result_bind, Logged.result_liftM]
  refine (hstart.withDirectories hcatalog hhelper).bind fun a a' ⟨V, _, ha⟩ => ?_
  refine (ha.withHeaders options.target).bind fun h h' ⟨U, hle, hh⟩ => ?_
  refine (place_renamed hh (ha.tablesInPlace.imp fun _ _ he => ⟨he.1, he.2.mono hle⟩)).bind
    fun p p' hp => ?_
  exact finish_renamed hh hp

/-- A program that calls an imported symbol through a stub and refers to its slot. -/
def callingProgram : Image :=
  { Image.empty with
    header := { FileHeader.empty with machine := some .i386 }
    optionalHeader := { OptionalHeader.empty with
      entryPoint := some (.label "entry")
      fileAlignment := some 1
      checksum := some 0 }
    sections := [.new ".text" (.read ||| .execute)
      (((Buffer.empty.addExport "entry" 0) ++
        .placeholder (.label "stub" - (.label "entry" + .const 4)) .i32 .little) ++
        .placeholder (.label "slot") .u32 .little)]
    imports := some [⟨"kernel.dll", 0, 0, [⟨some "Sleep", none, none, some "stub", some "slot"⟩],
      none⟩] }

/-- The labels under names that the linker has for its own. -/
def asLinkerLabels (l : String) : String :=
  if l = "entry" then "coff_start" else if l = "stub" then "iat" else "Sleep"

theorem encodeImage_rename_asLinkerLabels :
    callingProgram.ownLabels = ["entry", "slot", "stub"] ∧
      (callingProgram.rename asLinkerLabels).ownLabels = ["coff_start", "Sleep", "iat"] ∧
      (encodeImage callingProgram (.new .exe) 0).result.toOption.isSome ∧
      Runs EncodedImage.Same (encodeImage callingProgram (.new .exe) 0).result
        (encodeImage (callingProgram.rename asLinkerLabels) (.new .exe) 0).result := by
  refine ⟨by decide +kernel, by decide +kernel, by decide +kernel, ?_⟩
  have hdifferent : ∀ l ∈ callingProgram.ownLabels, ∀ m ∈ callingProgram.ownLabels,
      asLinkerLabels l = asLinkerLabels m → l = m := by decide +kernel
  exact encodeImage_rename rfl (fun hpic => absurd hpic (by decide)) (by decide)
    (by decide +kernel) (fun l hl m hm heq => hdifferent l hl m hm heq) 0

end PortableImage
