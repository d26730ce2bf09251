import ImageAudit.Bytes.Source
import ImageAudit.Tiff.Directory

/-! Rules for a whole directory: mandatory fields, the number of samples, and image data in strips
or in tiles. A directory has exactly one complete set of strip fields or of tile fields, as many
blocks as its dimensions ask for, and all of them inside the file. -/
namespace ImageAudit.Tiff.DirectoryRules

def mandatoryFindings (d : Directory) (index : Nat) : List Finding :=
  (Schema.mandatory.filter fun r => !d.contains r.tag).map
    fun r => .missingMandatory index r.tag r.name

def colourSamples? : (photometric : Nat) → Option Nat
  | 0 | 1 | 3 | 4 => some 1
  | 2 | 6 | 8 => some 3
  | 5 => some 4
  | _ => none

/-- The samples declared must be the colour samples and the extra ones. Where the number of colour
samples is open nothing is asked. -/
def sampleFindings (d : Directory) (index : Nat) : List Finding :=
  match (d.word? Tag.photometricInterpretation).bind colourSamples? with
  | none => []
  | some colour =>
    let extra := match d.find? Tag.extraSamples with
      | some f => f.count
      | none => 0
    let declared := (d.word? Tag.samplesPerPixel).getD 1
    let expected := saturate (colour + extra)
    if declared != expected then [.unexpectedSampleCount index declared expected] else []

def planes (d : Directory) : Nat :=
  if d.word? Tag.planarConfiguration == some 2 then (d.word? Tag.samplesPerPixel).getD 1 else 1

def blockFindings (index block fileLength : Nat) : List (Nat × Nat) → List Finding
  | [] => []
  | (offset, size) :: rest =>
    if isSection offset size fileLength then blockFindings index (block + 1) fileLength rest
    else [.blockOutsideFile index block offset size]

structure Strips where
  offsets : Field
  byteCounts : Field
  rowsPerStrip : Nat

structure Tiles where
  width : Nat
  length : Nat
  offsets : Field
  byteCounts : Field

/-- Rows of a strip. A single strip may leave them out: it covers the whole image. -/
def rowsPerStrip? (d : Directory) : Option Nat :=
  (d.word? Tag.rowsPerStrip).or <|
    match d.find? Tag.stripOffsets with
    | some f => if f.count = 1 then d.word? Tag.imageLength else none
    | none => none

def expectedStrips (d : Directory) (height rows : Nat) : Nat :=
  saturate (ceilDiv height rows * planes d)

def stripFindings (d : Directory) (index fileLength : Nat) (s : Strips) : List Finding :=
  let count := s.offsets.count
  (if count != s.byteCounts.count then
    [.stripCountsDiffer index count s.byteCounts.count] else []) ++
  (match d.word? Tag.imageLength with
    | some height =>
      let expected := expectedStrips d height s.rowsPerStrip
      if s.rowsPerStrip > 0 && count != expected then
        [.unexpectedStripCount index count expected] else []
    | none => []) ++
  blockFindings index 0 fileLength (s.offsets.words.zip s.byteCounts.words)

def expectedTiles (d : Directory) (width length tileWidth tileLength : Nat) : Nat :=
  saturate (saturate (ceilDiv width tileWidth * ceilDiv length tileLength) * planes d)

def tileFindings (d : Directory) (index fileLength : Nat) (t : Tiles) : List Finding :=
  let count := t.offsets.count
  (if t.width % 16 != 0 then [.tileWidthNotMultiple index t.width] else []) ++
  (if t.length % 16 != 0 then [.tileLengthNotMultiple index t.length] else []) ++
  (if count != t.byteCounts.count then
    [.tileCountsDiffer index count t.byteCounts.count] else []) ++
  (match d.word? Tag.imageWidth, d.word? Tag.imageLength with
    | some width, some length =>
      let expected := expectedTiles d width length t.width t.length
      if t.width > 0 && t.length > 0 && count != expected then
        [.unexpectedTileCount index count expected] else []
    | _, _ => []) ++
  blockFindings index 0 fileLength (t.offsets.words.zip t.byteCounts.words)

def layoutFindings (d : Directory) (index fileLength : Nat) : List Finding :=
  let stripOffsets := d.find? Tag.stripOffsets
  let stripByteCounts := d.find? Tag.stripByteCounts
  let rows := rowsPerStrip? d
  let tileWidth := d.word? Tag.tileWidth
  let tileLength := d.word? Tag.tileLength
  let tileOffsets := d.find? Tag.tileOffsets
  let tileByteCounts := d.find? Tag.tileByteCounts
  let noStrips := stripOffsets.isNone && stripByteCounts.isNone && rows.isNone
  let noTiles := tileWidth.isNone && tileLength.isNone && tileOffsets.isNone &&
    tileByteCounts.isNone
  if noTiles then
    match stripOffsets, stripByteCounts, rows with
    | some offsets, some byteCounts, some rowsPerStrip =>
      stripFindings d index fileLength ⟨offsets, byteCounts, rowsPerStrip⟩
    | _, _, _ => if noStrips then [.noStripsOrTiles index] else [.onlySomeStripFields index]
  else if noStrips then
    match tileWidth, tileLength, tileOffsets, tileByteCounts with
    | some width, some length, some offsets, some byteCounts =>
      tileFindings d index fileLength ⟨width, length, offsets, byteCounts⟩
    | _, _, _, _ => [.someTileFieldsMissing index]
  else [.stripAndTileFields index]

/-- Whether a directory is exempt: GPS directories, thumbnails and the raw image of a CR2 file. -/
def isExempt (d : Directory) (kind : DirectoryKind) : Bool :=
  kind == .gps || d.isThumbnail || d.contains Tag.cr2Slices

def check (d : Directory) (kind : DirectoryKind) (index fileLength : Nat) : List Finding :=
  if isExempt d kind then []
  else
    (if kind == .main then mandatoryFindings d index else []) ++
    layoutFindings d index fileLength ++ sampleFindings d index

end ImageAudit.Tiff.DirectoryRules
