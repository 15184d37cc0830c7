import PortableImage.CommandLine.Arguments
import PortableImage.CommandLine.Folder
import PortableImage.Encode.Image

/-!
# What the program does

From the arguments and the files they name follows what is printed or written.

* `LinkError` — why nothing is.
* `buildImage` — the image that the arguments describe.
* `plan` — what is to be printed or written.
-/

set_option autoImplicit false

namespace PortableImage.CommandLine

/-- How files are read. -/
abbrev Reader := String → Except FileError (List UInt8)

/-- Why the program does not do what it is asked for. -/
inductive LinkError
  | cannotRead (path : String) (cause : FileError)
  | cannotChecksum (path : String) (cause : EncodeError)
  | noOutput
  | noSections
  | sectionTwice (name : String)
  | unknownSection (label name : String)
  /-- A label behind the end of its section. -/
  | pastEnd (label : String) (offset : Nat) (name : String) (size : Nat)
  | cannotEncode (path : String) (cause : EncodeError)
  | cannotWrite (path : String) (cause : FileError)
  deriving DecidableEq

/-- The error in words. -/
def LinkError.message : LinkError → String
  | cannotRead path cause => "failed to read " ++ path ++ ": " ++ cause.message
  | cannotChecksum path cause => "failed to checksum " ++ path ++ ": " ++ cause.message
  | noOutput => "no output file"
  | noSections => "no input sections"
  | sectionTwice name => "section " ++ name ++ " given twice"
  | unknownSection label name => label ++ ": unknown section " ++ name
  | pastEnd label offset name size =>
    label ++ ": offset " ++ Text.hex offset ++ " is past the end of " ++ name ++ " ("
      ++ Text.hex size ++ " bytes)"
  | cannotEncode path cause => "failed to encode " ++ path ++ ": " ++ cause.message
  | cannotWrite path cause => "failed to write " ++ path ++ ": " ++ cause.message

/-! ## The image -/

/-- The label of the place where the program starts. -/
def entryLabel : String := "coffenc_entry"

/-- The section that a value describes, with the bytes of its file. -/
def SectionValue.toSection (v : SectionValue) (data : List UInt8) : Section :=
  { Section.new v.name v.flags (.ofBytes data) with address := v.base }

/-- Adds sections; each name may be used once. -/
def addSections (read : Reader) : List SectionValue → Image → Logged LinkError Image
  | [], image => pure image
  | v :: rest, image =>
    if (image.section? v.name).isSome then .fail (.sectionTwice v.name)
    else do
      let data ← ((read v.file).mapError (.cannotRead v.file) : Except LinkError _)
      Logged.note [.sectionRead v.name data.length v.file]
      addSections read rest { image with sections := image.sections ++ [v.toSection data] }

/-- Labels a place in a section, at most at its end. -/
def defineLabel (image : Image) (label : String) (p : Position) : Except LinkError Image :=
  match image.section? p.sectionName with
  | none => .error (.unknownSection label p.sectionName)
  | some s =>
    let offset := p.offset.toNat
    if s.content.virtSize < offset then
      .error (.pastEnd label offset p.sectionName s.content.virtSize)
    else
      .ok (image.modifySection p.sectionName fun s =>
        { s with content := s.content.addExport label offset })

/-- Adds exports, each under a label of its own name. -/
def addExports : List ExportValue → Image → Except LinkError Image
  | [], image => .ok image
  | v :: rest, image => do
    let image ← defineLabel image v.name v.position
    addExports rest (image.addExport ⟨some v.name, .address (.label v.name), none⟩)

/-- The import that a value describes. -/
def ImportSymbol.toImport : ImportSymbol → Import
  | name n => .byName n
  | ordinal n => .byOrdinal n

/-- The image with its name, if it has exports. -/
def nameLibrary (name : Option String) (image : Image) : Image :=
  match name, image.exports with
  | some name, some dir => { image with exports := some { dir with libraryName := some name } }
  | _, _ => image

/-- The image with the place where the program starts. -/
def setEntry (entry : Option Position) (image : Image) : Except LinkError Image :=
  match entry with
  | none => .ok image
  | some p => do
    let image ← defineLabel image entryLabel p
    return { image with
      optionalHeader := { image.optionalHeader with entryPoint := some (.label entryLabel) } }

/-- The byte order that the arguments ask for. -/
def Arguments.order (a : Arguments) : ByteOrder := if a.bigEndian then .big else .little

/-- An image with what the arguments say about its headers, and without sections. -/
def Arguments.frame (a : Arguments) : Image :=
  let image := Image.new a.order a.pe64
  { image with
    pic := a.pic
    header := { image.header with machine := some a.machine }
    optionalHeader := { image.optionalHeader with imageBase := a.imageBase } }

/-- The image that the arguments describe. -/
def buildImage (read : Reader) (a : Arguments) : Logged LinkError Image := do
  let image ← addSections read a.sections a.frame
  let image ← (addExports a.exports image : Except LinkError _)
  let image := nameLibrary a.libraryName image
  let image := a.imports.foldl (fun i v => i.addImport v.library v.symbol.toImport) image
  (setEntry a.entry image : Except LinkError _)

/-! ## What is done with it -/

/-- What the program does in the end. -/
inductive Action
  | print (text : String)
  /-- Writes a file, and then notes events. -/
  | write (path : String) (bytes : List UInt8) (report : List Event)

/-- How the image is encoded. -/
def Arguments.options (a : Arguments) : EncodeOptions :=
  { EncodeOptions.new a.target with relocations := a.relocations, timestamp := a.timestamp }

/-- What is noted about an image once it is written. -/
def writtenEvents (path : String) (e : EncodedImage) : List Event :=
  (e.image.sections.map fun s => .sectionWritten s.name (s.virtSize.getD 0).toNat s.flags)
    ++ [.imageWritten path e.bytes.length e.image.sections.length]
    ++ (e.checksum.map fun c => Event.checksumWritten c.toNat).toList

/-- The checksum of the image in a file. -/
def checksumLine (read : Reader) (a : Arguments) (path : String) : Except LinkError String := do
  let data ← (read path).mapError (.cannotRead path)
  let value ← (checksum data a.order).mapError (.cannotChecksum path)
  return Text.hexPadded 8 value.toNat ++ "\n"

/-- What the program does for the arguments.  `clock` is the time for timestamps that are not
given. -/
def plan (read : Reader) (clock : UInt32) (a : Arguments) : Logged LinkError Action :=
  match a.checksum with
  | some path => do return .print (← (checksumLine read a path : Except LinkError _))
  | none =>
    match a.output with
    | none => .fail .noOutput
    | some output =>
      if a.sections.isEmpty then .fail .noSections
      else do
        let image ← buildImage read a
        let e ← (encodeImage image a.options clock).mapError (.cannotEncode output)
        return .write output e.bytes (writtenEvents output e)

/-- The files that the program reads, before it knows whether it needs them all. -/
def Arguments.inputs (a : Arguments) : List String :=
  match a.checksum with
  | some path => [path]
  | none => a.sections.map (·.file)

/-! ## In a tree of files -/

/-- What a run leaves: the text it prints and the files. -/
structure Linked where
  output : String
  folder : Folder

/-- A run with the files of a tree. -/
def link (folder : Folder) (clock : UInt32) (a : Arguments) : Logged LinkError Linked := do
  match ← plan folder.read clock a with
  | .print text => return ⟨text, folder⟩
  | .write path bytes report =>
    let folder ← ((folder.write path bytes).mapError (.cannotWrite path) : Except LinkError _)
    Logged.note report
    return ⟨"", folder⟩

end PortableImage.CommandLine
