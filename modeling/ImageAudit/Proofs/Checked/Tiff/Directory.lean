import ImageAudit.Proofs.Checked.Operation
import ImageAudit.Tiff.Baseline
import ImageAudit.Tiff.DirectoryRules

/-! The rules for a whole directory with operations that can go wrong. Fields are looked up by the
place that an index keeps for their tag, and blocks are counted by dividing sizes that are not
zero. -/
namespace ImageAudit.Tiff

open Checked

/-- Words have 64 bits. -/
theorem Value.le_of_word? {value : Value} {word : Nat} (h : value.word? = some word) :
    word ≤ maxWord := by
  cases value with
  | integer v =>
    rw [Value.word?] at h
    split at h
    · next hrange =>
      obtain rfl := Option.some.inj h
      exact Int.toNat_le.mpr hrange.2
    · cases h
  | real bits => cases h
  | char code => cases h

abbrev FieldIndex := List (Nat × Nat)

namespace FieldIndex

def add (index : FieldIndex) (tag place : Nat) : FieldIndex :=
  if (index.lookup tag).isSome then index else (tag, place) :: index

def addAll (index : FieldIndex) : (start : Nat) → List Field → FieldIndex
  | _, [] => index
  | start, f :: fields => addAll (index.add f.tag start) (start + 1) fields

variable {index : FieldIndex}

theorem lookup_add (index : FieldIndex) (tag place wanted : Nat) :
    (index.add tag place).lookup wanted =
      (index.lookup wanted).or (if wanted == tag then some place else none) := by
  rw [add]
  by_cases heq : wanted = tag
  · subst heq
    cases hfound : index.lookup wanted <;> simp [hfound]
  · have hneq : (wanted == tag) = false := beq_false_of_ne heq
    split <;> simp [List.lookup_cons, hneq]

/-- The first field of a tag keeps its place. -/
theorem lookup_addAll (fields : List Field) (start tag : Nat) :
    (index.addAll start fields).lookup tag =
      (index.lookup tag).or ((fields.findIdx? (·.tag == tag)).map (· + start)) := by
  induction fields generalizing index start with
  | nil => rw [addAll, List.findIdx?_nil, Option.map_none, Option.or_none]
  | cons f fields ih =>
    rw [addAll, ih, lookup_add, Option.or_assoc, List.findIdx?_cons, BEq.comm]
    split
    · rw [Option.some_or, Option.map_some, Nat.zero_add]
    · rw [Option.none_or, Option.map_map]
      congr 3
      funext place
      rw [Function.comp_apply]
      omega

/-- What stands at the place of a tag is the first field with it. -/
theorem getElem?_lookup (fields : List Field) (tag : Nat) :
    ((addAll [] 0 fields).lookup tag).map (fields[·]?) =
      (fields.find? (·.tag == tag)).map some := by
  rw [lookup_addAll, List.lookup_nil, Option.none_or]
  cases hfound : fields.findIdx? (·.tag == tag) with
  | none =>
    have hnone : fields.find? (·.tag == tag) = none := by
      simpa using List.findIdx?_eq_none_iff.mp hfound
    rw [hnone]
    rfl
  | some place =>
    obtain ⟨hplace, hfirst⟩ := List.findIdx?_eq_some_iff_getElem.mp hfound
    have hsome : fields.find? (·.tag == tag) = some fields[place] :=
      List.find?_eq_some_iff_getElem.mpr
        ⟨hfirst.1, place, hplace, rfl, fun i hi => by simpa using hfirst.2 i hi⟩
    rw [hsome]
    exact congrArg some (List.getElem?_eq_getElem hplace)

end FieldIndex

namespace Directory

def checkedFind (d : Directory) (tag : Nat) : Checked (Option Field) :=
  match (FieldIndex.addAll [] 0 d.fields).lookup tag with
  | none => pure none
  | some place => do
    let f ← get d.fields[place]?
    pure (some f)

def checkedWord (d : Directory) (tag : Nat) : Checked (Option Nat) := do
  let f ← d.checkedFind tag
  pure (f.bind Field.first?)

def checkedSubOffsets (d : Directory) : Checked (List Nat) := do
  match ← d.checkedFind Tag.subDirectories with
  | none => pure []
  | some f => pure (f.words.filter (· != 0))

def checkedGpsOffset (d : Directory) : Checked (Option Nat) := do
  let offset ← d.checkedWord Tag.gpsDirectory
  pure (offset.filter (· != 0))

theorem checkedFind_eq (d : Directory) (tag : Nat) : d.checkedFind tag = pure (d.find? tag) := by
  have hplace := FieldIndex.getElem?_lookup d.fields tag
  rw [checkedFind]
  change Option.map _ _ = (d.find? tag).map some at hplace
  cases hlookup : (FieldIndex.addAll [] 0 d.fields).lookup tag with
  | none =>
    rw [hlookup, Option.map_none, eq_comm, Option.map_eq_none_iff] at hplace
    rw [hplace]
  | some place =>
    rw [hlookup, Option.map_some, eq_comm, Option.map_eq_some_iff] at hplace
    obtain ⟨f, hfound, hget⟩ := hplace
    dsimp only
    rw [hfound, ← hget, get_some, pure_bind]

theorem checkedWord_eq (d : Directory) (tag : Nat) : d.checkedWord tag = pure (d.word? tag) := by
  rw [checkedWord, checkedFind_eq, pure_bind, word?]

theorem checkedSubOffsets_eq (d : Directory) : d.checkedSubOffsets = pure d.subOffsets := by
  rw [checkedSubOffsets, checkedFind_eq, pure_bind, subOffsets]
  cases d.find? Tag.subDirectories <;> rfl

theorem checkedGpsOffset_eq (d : Directory) : d.checkedGpsOffset = pure d.gpsOffset? := by
  rw [checkedGpsOffset, checkedWord_eq, pure_bind, gpsOffset?]

theorem word_le {d : Directory} {tag word : Nat} (h : d.word? tag = some word) :
    word ≤ maxWord := by
  obtain ⟨f, _, hfirst⟩ := Option.bind_eq_some_iff.mp h
  obtain ⟨value, _, hvalue⟩ := Option.bind_eq_some_iff.mp hfirst
  exact Value.le_of_word? hvalue

end Directory

namespace DirectoryRules

def checkedSampleFindings (d : Directory) (index : Nat) : Checked (List Finding) := do
  let photometric ← d.checkedWord Tag.photometricInterpretation
  match photometric.bind colourSamples? with
  | none => pure []
  | some colour => do
    let extraSamples ← d.checkedFind Tag.extraSamples
    let samplesPerPixel ← d.checkedWord Tag.samplesPerPixel
    let extra := match extraSamples with
      | some f => f.count
      | none => 0
    let declared := samplesPerPixel.getD 1
    let expected := saturate (colour + extra)
    pure (if declared != expected then [.unexpectedSampleCount index declared expected] else [])

def checkedPlanes (d : Directory) : Checked Nat := do
  let configuration ← d.checkedWord Tag.planarConfiguration
  if configuration == some 2 then do
    let samplesPerPixel ← d.checkedWord Tag.samplesPerPixel
    pure (samplesPerPixel.getD 1)
  else pure 1

def checkedRowsPerStrip (d : Directory) : Checked (Option Nat) := do
  match ← d.checkedWord Tag.rowsPerStrip with
  | some rows => pure (some rows)
  | none => do
    match ← d.checkedFind Tag.stripOffsets with
    | none => pure none
    | some f => if f.count = 1 then d.checkedWord Tag.imageLength else pure none

def checkedStripCount (d : Directory) (index count rowsPerStrip : Nat) :
    Checked (List Finding) := do
  match ← d.checkedWord Tag.imageLength with
  | none => pure []
  | some height =>
    if rowsPerStrip > 0 then do
      let rows ← Checked.ceilDiv maxWord height rowsPerStrip
      let planes ← checkedPlanes d
      let expected := saturate (rows * planes)
      pure (if count != expected then [.unexpectedStripCount index count expected] else [])
    else pure []

def checkedStripFindings (d : Directory) (index fileLength : Nat) (s : Strips) :
    Checked (List Finding) := do
  let count := s.offsets.count
  let number ← checkedStripCount d index count s.rowsPerStrip
  pure ((if count != s.byteCounts.count then
    [.stripCountsDiffer index count s.byteCounts.count] else []) ++ number ++
    blockFindings index 0 fileLength (s.offsets.words.zip s.byteCounts.words))

def checkedTileCount (d : Directory) (index count tileWidth tileLength : Nat) :
    Checked (List Finding) := do
  let width ← d.checkedWord Tag.imageWidth
  let length ← d.checkedWord Tag.imageLength
  match width, length with
  | some width, some length =>
    if tileWidth > 0 && tileLength > 0 then do
      let columns ← Checked.ceilDiv maxWord width tileWidth
      let rows ← Checked.ceilDiv maxWord length tileLength
      let planes ← checkedPlanes d
      let expected := saturate (saturate (columns * rows) * planes)
      pure (if count != expected then [.unexpectedTileCount index count expected] else [])
    else pure []
  | _, _ => pure []

def checkedTileFindings (d : Directory) (index fileLength : Nat) (t : Tiles) :
    Checked (List Finding) := do
  let count := t.offsets.count
  let widthRest ← mod t.width 16
  let lengthRest ← mod t.length 16
  let number ← checkedTileCount d index count t.width t.length
  pure ((if widthRest != 0 then [.tileWidthNotMultiple index t.width] else []) ++
    (if lengthRest != 0 then [.tileLengthNotMultiple index t.length] else []) ++
    (if count != t.byteCounts.count then
      [.tileCountsDiffer index count t.byteCounts.count] else []) ++ number ++
    blockFindings index 0 fileLength (t.offsets.words.zip t.byteCounts.words))

def checkedLayoutFindings (d : Directory) (index fileLength : Nat) : Checked (List Finding) := do
  let stripOffsets ← d.checkedFind Tag.stripOffsets
  let stripByteCounts ← d.checkedFind Tag.stripByteCounts
  let rows ← checkedRowsPerStrip d
  let tileWidth ← d.checkedWord Tag.tileWidth
  let tileLength ← d.checkedWord Tag.tileLength
  let tileOffsets ← d.checkedFind Tag.tileOffsets
  let tileByteCounts ← d.checkedFind Tag.tileByteCounts
  let noStrips := stripOffsets.isNone && stripByteCounts.isNone && rows.isNone
  let noTiles := tileWidth.isNone && tileLength.isNone && tileOffsets.isNone &&
    tileByteCounts.isNone
  if noTiles then
    match stripOffsets, stripByteCounts, rows with
    | some offsets, some byteCounts, some rowsPerStrip =>
      checkedStripFindings d index fileLength ⟨offsets, byteCounts, rowsPerStrip⟩
    | _, _, _ => pure (if noStrips then [.noStripsOrTiles index] else [.onlySomeStripFields index])
  else if noStrips then
    match tileWidth, tileLength, tileOffsets, tileByteCounts with
    | some width, some length, some offsets, some byteCounts =>
      checkedTileFindings d index fileLength ⟨width, length, offsets, byteCounts⟩
    | _, _, _, _ => pure [.someTileFieldsMissing index]
  else pure [.stripAndTileFields index]

def checkedCheck (d : Directory) (kind : DirectoryKind) (index fileLength : Nat) :
    Checked (List Finding) :=
  if isExempt d kind then pure []
  else do
    let layout ← checkedLayoutFindings d index fileLength
    let samples ← checkedSampleFindings d index
    pure ((if kind == .main then mandatoryFindings d index else []) ++ layout ++ samples)

variable {d : Directory}

theorem checkedSampleFindings_eq (d : Directory) (index : Nat) :
    checkedSampleFindings d index = pure (sampleFindings d index) := by
  simp only [checkedSampleFindings, sampleFindings, Directory.checkedWord_eq,
    Directory.checkedFind_eq, pure_bind]
  cases (d.word? Tag.photometricInterpretation).bind colourSamples? <;> rfl

theorem checkedPlanes_eq (d : Directory) : checkedPlanes d = pure (planes d) := by
  simp only [checkedPlanes, planes, Directory.checkedWord_eq, pure_bind]
  split <;> rfl

theorem checkedRowsPerStrip_eq (d : Directory) :
    checkedRowsPerStrip d = pure (rowsPerStrip? d) := by
  simp only [checkedRowsPerStrip, rowsPerStrip?, Directory.checkedWord_eq,
    Directory.checkedFind_eq, pure_bind]
  cases d.word? Tag.rowsPerStrip with
  | some rows => rfl
  | none =>
    cases d.find? Tag.stripOffsets with
    | none => rfl
    | some f =>
      dsimp only
      rw [Option.none_or]
      split <;> rfl

/-- Strips are only counted where they have rows. -/
theorem checkedStripFindings_eq (d : Directory) (index fileLength : Nat) (s : Strips) :
    checkedStripFindings d index fileLength s = pure (stripFindings d index fileLength s) := by
  simp only [checkedStripFindings, checkedStripCount, stripFindings, Directory.checkedWord_eq,
    pure_bind]
  cases hheight : d.word? Tag.imageLength with
  | none => rfl
  | some height =>
    dsimp only
    by_cases hrows : s.rowsPerStrip > 0
    · rw [if_pos hrows, ceilDiv_eq (Directory.word_le hheight) hrows, pure_bind, checkedPlanes_eq,
        pure_bind, pure_bind, expectedStrips, decide_eq_true hrows, Bool.true_and]
    · rw [if_neg hrows, pure_bind, decide_eq_false hrows, Bool.false_and]
      rfl

/-- Tiles are only counted where they have an area. -/
theorem checkedTileFindings_eq (d : Directory) (index fileLength : Nat) (t : Tiles) :
    checkedTileFindings d index fileLength t = pure (tileFindings d index fileLength t) := by
  have hsixteen : 0 < 16 := by decide
  simp only [checkedTileFindings, checkedTileCount, tileFindings, Directory.checkedWord_eq,
    mod_eq hsixteen, pure_bind]
  cases hwidth : d.word? Tag.imageWidth with
  | none => rfl
  | some width =>
    cases hlength : d.word? Tag.imageLength with
    | none => rfl
    | some length =>
      dsimp only
      by_cases harea : (decide (t.width > 0) && decide (t.length > 0)) = true
      · obtain ⟨hcolumns, hrows⟩ := Bool.and_eq_true_iff.mp harea
        rw [if_pos harea, ceilDiv_eq (Directory.word_le hwidth) (of_decide_eq_true hcolumns),
          pure_bind, ceilDiv_eq (Directory.word_le hlength) (of_decide_eq_true hrows), pure_bind,
          checkedPlanes_eq, pure_bind, pure_bind, expectedTiles, harea, Bool.true_and]
      · rw [if_neg harea, pure_bind, eq_false_of_ne_true harea, Bool.false_and]
        rfl

theorem checkedLayoutFindings_eq (d : Directory) (index fileLength : Nat) :
    checkedLayoutFindings d index fileLength = pure (layoutFindings d index fileLength) := by
  simp only [checkedLayoutFindings, layoutFindings, Directory.checkedWord_eq,
    Directory.checkedFind_eq, checkedRowsPerStrip_eq, checkedStripFindings_eq,
    checkedTileFindings_eq, pure_bind]
  split
  · cases d.find? Tag.stripOffsets <;> cases d.find? Tag.stripByteCounts <;>
      cases rowsPerStrip? d <;> rfl
  · split
    · cases d.word? Tag.tileWidth <;> cases d.word? Tag.tileLength <;>
        cases d.find? Tag.tileOffsets <;> cases d.find? Tag.tileByteCounts <;> rfl
    · rfl

/-- Every directory is checked. -/
theorem checkedCheck_eq (d : Directory) (kind : DirectoryKind) (index fileLength : Nat) :
    checkedCheck d kind index fileLength = pure (check d kind index fileLength) := by
  simp only [checkedCheck, check, checkedLayoutFindings_eq, checkedSampleFindings_eq, pure_bind]
  split <;> rfl

end DirectoryRules

namespace Baseline

def checkedCompressionFindings (d : Directory) : Checked (List Finding) := do
  let stored ← d.checkedWord Tag.compression
  let compression := stored.getD 1
  pure (if compressions.contains compression then [] else [.baselineCompression compression])

def checkedBitsOf (d : Directory) : Checked (List Nat) := do
  match ← d.checkedFind Tag.bitsPerSample with
  | some f => pure f.words
  | none => pure [1]

def checkedPhotometricFindings (d : Directory) : Checked (List Finding) := do
  match ← d.checkedWord Tag.photometricInterpretation with
  | none => pure [.baselinePhotometric none]
  | some value =>
    match bitsPerSample? value with
    | none => pure [.baselinePhotometric (some value)]
    | some allowed => do
      let bits ← checkedBitsOf d
      match bits.find? fun bits => !allowed.contains bits with
      | some bits => pure [.baselineBitsPerSample bits value]
      | none => pure []

def checkedCheck (d : Directory) : Checked (List Finding) := do
  let compression ← checkedCompressionFindings d
  let photometric ← checkedPhotometricFindings d
  let findings := tagFindings d ++ compression ++ photometric
  pure (if findings.isEmpty then [.baseline] else findings)

theorem checkedBitsOf_eq (d : Directory) : checkedBitsOf d = pure (bitsOf d) := by
  rw [checkedBitsOf, Directory.checkedFind_eq, pure_bind, bitsOf]
  cases d.find? Tag.bitsPerSample <;> rfl

theorem checkedPhotometricFindings_eq (d : Directory) :
    checkedPhotometricFindings d = pure (photometricFindings d) := by
  simp only [checkedPhotometricFindings, photometricFindings, Directory.checkedWord_eq,
    checkedBitsOf_eq, pure_bind]
  cases d.word? Tag.photometricInterpretation with
  | none => rfl
  | some value =>
    dsimp only
    cases bitsPerSample? value with
    | none => rfl
    | some allowed =>
      dsimp only
      cases (bitsOf d).find? fun bits => !allowed.contains bits <;> rfl

theorem checkedCheck_eq (d : Directory) : checkedCheck d = pure (check d) := by
  simp only [checkedCheck, check, checkedCompressionFindings, compressionFindings,
    Directory.checkedWord_eq, checkedPhotometricFindings_eq, pure_bind]
  generalize tagFindings d ++ _ ++ _ = findings
  cases findings <;> rfl

end Baseline
end ImageAudit.Tiff
