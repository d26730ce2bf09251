import ImageAudit.Proofs.Checked.Tiff.Survey
import ImageAudit.Tiff.Decoder

/-! The decoder of the TIFF family with operations that can go wrong: the header, the walk over the
directories, and the profile of the first one. -/
namespace ImageAudit.Tiff

open Checked

namespace Header

def checkedOfBytes (bytes : ByteArray) : Checked (Except Finding Header) :=
  match orderOf? (bytes.data.toList.take 2) with
  | none => pure (.error (.invalidByteOrder (showSignature (bytes.data.toList.take 2))))
  | some order => do
    let (version, _) ← Segment.checkedUint (Segment.setIndex ⟨0, bytes, order, 0⟩ 2) 2
    if version = classicVersion ∨ version = bigVersion then pure (.ok ⟨order, version⟩)
    else pure (.error (.invalidVersion version))

def checkedRead (input : Input) : Checked (Except Finding Header) := do
  match ← input.read 0 signatureSize with
  | .error cause => pure (.error (.cannotReadHeader cause))
  | .ok bytes => checkedOfBytes bytes

def checkedTakeLayout (h : Header) (rest : Segment) : Checked (Except Finding Segment) :=
  if h.isBig then do
    let (size, rest) ← rest.checkedUint 2
    if size ≠ bigOffsetSize then pure (.error (.invalidOffsetSize size))
    else do
      let (reserved, rest) ← rest.checkedUint 2
      if reserved ≠ 0 then pure (.error (.invalidOffsetZero reserved)) else pure (.ok rest)
  else pure (.ok rest)

def checkedTakeOffset (h : Header) (rest : Segment) (fileLength : Nat) :
    Checked (Except Finding Nat) := do
  match ← h.checkedTakeLayout rest with
  | .error finding => pure (.error finding)
  | .ok rest => do
    let (offset, _) ← rest.checkedOffsetValue h.isBig
    if isPosition offset fileLength then pure (.ok offset)
    else pure (.error (.invalidFileOffset offset fileLength))

def checkedFirstOffset (h : Header) (input : Input) : Checked (Except Obstacle Nat) := do
  let count ← sub h.size signatureSize
  match ← input.read signatureSize count with
  | .error cause => pure (.error (.failure cause))
  | .ok bytes => do
    match ← h.checkedTakeOffset ⟨signatureSize, bytes, h.order, 0⟩ input.source.length with
    | .error finding => pure (.error (.defect finding))
    | .ok offset => pure (.ok offset)

variable {input : Input} {rest : Segment}

private theorem sound_setIndex {bytes : ByteArray} (hsize : bytes.size = signatureSize)
    (order : ByteOrder) : (Segment.setIndex ⟨0, bytes, order, 0⟩ 2).Sound where
  valid := Nat.min_le_right _ _
  size_le := by
    change bytes.size ≤ maxWord
    rw [hsize]
    decide

/-- The version is stored behind the signature. -/
private theorem uint_setIndex {bytes : ByteArray} (hsize : bytes.size = signatureSize)
    (order : ByteOrder) : ((Segment.setIndex ⟨0, bytes, order, 0⟩ 2).uint 2).1 =
      order.decode (bytes.data.toList.drop 2) := by
  have hindex : (Segment.setIndex ⟨0, bytes, order, 0⟩ 2).index = 2 := by
    rw [Segment.setIndex, hsize]
    rfl
  have hrest : (Segment.setIndex ⟨0, bytes, order, 0⟩ 2).rest = bytes.data.toList.drop 2 := by
    rw [Segment.rest, hindex]
    rfl
  have hlength : (bytes.data.toList.drop 2).length = 2 := by
    rw [List.length_drop]
    exact congrArg (· - 2) hsize
  have hleft : 2 ≤ (Segment.setIndex ⟨0, bytes, order, 0⟩ 2).left := by
    have hsame := Segment.length_rest (Segment.setIndex ⟨0, bytes, order, 0⟩ 2)
    rw [hrest, hlength] at hsame
    exact Nat.le_of_eq hsame
  rw [Segment.uint_eq _ hleft, hrest, List.take_of_length_le (Nat.le_of_eq hlength)]
  rfl

theorem checkedOfBytes_eq {bytes : ByteArray} (hsize : bytes.size = signatureSize) :
    checkedOfBytes bytes = pure (ofBytes bytes.data.toList) := by
  rw [checkedOfBytes, ofBytes]
  cases orderOf? (bytes.data.toList.take 2) with
  | none => rfl
  | some order =>
    dsimp only
    rw [Segment.checkedUint_eq (sound_setIndex hsize order), pure_bind, uint_setIndex hsize]
    split <;> rfl

theorem checkedRead_eq (h : input.Valid) : checkedRead input = pure (read input.source) := by
  rw [checkedRead, Input.read_eq h, pure_bind, read]
  cases hread : input.source.read 0 signatureSize with
  | error cause => rfl
  | ok bytes => exact checkedOfBytes_eq (Source.size_read hread)

theorem checkedTakeLayout_eq (hrest : rest.Sound) (h : Header) :
    h.checkedTakeLayout rest = pure (h.takeLayout rest) := by
  simp only [checkedTakeLayout, takeLayout, Segment.checkedUint_eq, Segment.sound_uint, hrest,
    hrest.size_le, pure_bind]
  split
  · split
    · rfl
    · split <;> rfl
  · rfl

theorem sound_of_takeLayout {h : Header} {behind : Segment} (hrest : rest.Sound)
    (hlayout : h.takeLayout rest = .ok behind) : behind.Sound := by
  simp only [takeLayout] at hlayout
  split at hlayout
  · split at hlayout
    · cases hlayout
    · split at hlayout
      · cases hlayout
      · obtain rfl := Except.ok.inj hlayout
        exact (Segment.sound_uint _ _).mpr hrest.size_le
  · obtain rfl := Except.ok.inj hlayout
    exact hrest

theorem checkedTakeOffset_eq (hrest : rest.Sound) (h : Header) (fileLength : Nat) :
    h.checkedTakeOffset rest fileLength = pure (h.takeOffset rest fileLength) := by
  rw [checkedTakeOffset, checkedTakeLayout_eq hrest, pure_bind, takeOffset]
  cases hlayout : h.takeLayout rest with
  | error finding => rfl
  | ok behind =>
    dsimp only
    rw [Segment.checkedOffsetValue_eq (sound_of_takeLayout hrest hlayout), pure_bind]
    split <;> rfl

theorem signatureSize_le (h : Header) : signatureSize ≤ h.size := by
  rw [size]
  split <;> decide

theorem checkedFirstOffset_eq (hinput : input.Valid) (h : Header) :
    h.checkedFirstOffset input = pure (h.firstOffset input.source) := by
  have hlength := hinput.length_lt_maxWord
  rw [checkedFirstOffset, sub_eq h.signatureSize_le, pure_bind, Input.read_eq hinput, pure_bind,
    firstOffset]
  cases hread : input.source.read signatureSize (h.size - signatureSize) with
  | error cause => rfl
  | ok bytes =>
    have hinside := Source.le_of_read hread
    have hsize := Source.size_read hread
    have hrest : Segment.Sound ⟨signatureSize, bytes, h.order, 0⟩ :=
      Segment.sound_of_size (by omega)
    dsimp only
    rw [checkedTakeOffset_eq hrest, pure_bind]
    cases h.takeOffset ⟨signatureSize, bytes, h.order, 0⟩ input.source.length <;> rfl

end Header

namespace Description

def checkedReadHeader (d : Description) (input : Input) : Checked Description := do
  match ← Header.checkedRead input with
  | .error finding => pure (d.report finding)
  | .ok header => pure { d with header := some header }

/-- Follows the chain that starts at `offset`, with a turn for each offset of the input and one
more. -/
def checkedWalk (narrow : Nat → Checked Nat) (d : Description) (c : InputContext) (offset : Nat) :
    Checked (Except ReadError Unit × Description) := do
  match ← d.survey.checkedWalk narrow c (c.input.source.length + 1) offset with
  | .error cause survey => pure (.error cause, { d with survey })
  | .ok () survey => pure (.ok (), { d with survey }.setFlavour)

def checkedCheckBaseline (d : Description) : Checked Description :=
  match d.mainDirectories.head? with
  | none => pure d
  | some first => do
    let findings ← Baseline.checkedCheck first
    pure (findings.foldl report d)

def checkedCheck (narrow : Nat → Checked Nat) (d : Description) (settings : Settings)
    (header : Header) (input : Input) : Checked Description := do
  match ← header.checkedFirstOffset input with
  | .error (.defect finding) => pure (d.report finding)
  | .error (.failure cause) => pure (d.report (.readingError cause))
  | .ok offset => do
    match ← d.checkedWalk narrow ⟨input, settings, header.encoding⟩ offset with
    | (.error cause, d) => pure (d.report (.readingError cause))
    | (.ok (), d) => if settings.baseline then d.checkedCheckBaseline else pure d

variable {input : Input} {c : InputContext}

theorem checkedReadHeader_eq (h : input.Valid) (d : Description) :
    d.checkedReadHeader input = pure (d.readHeader input.source) := by
  rw [checkedReadHeader, Header.checkedRead_eq h, pure_bind, readHeader]
  cases Header.read input.source <;> rfl

/-- There are no more offsets to visit than bytes. -/
theorem checkedWalk_eq (h : c.input.Valid) (d : Description) (offset : Nat) :
    d.checkedWalk (cut maxHalf) c offset = pure (d.walk c.context offset) := by
  have hturns : d.survey.unvisited c.input.source.length < c.input.source.length + 1 := by
    have hcount : d.survey.unvisited c.input.source.length ≤
        (List.range c.input.source.length).length := List.countP_le_length
    rw [List.length_range] at hcount
    exact Nat.lt_succ_of_le hcount
  rw [checkedWalk, Survey.checkedWalk_eq h hturns, pure_bind, walk]
  cases d.survey.walk c.context offset <;> rfl

theorem checkedCheckBaseline_eq (d : Description) :
    d.checkedCheckBaseline = pure d.checkBaseline := by
  rw [checkedCheckBaseline, checkBaseline]
  cases d.mainDirectories.head? with
  | none => rfl
  | some first =>
    dsimp only
    rw [Baseline.checkedCheck_eq, pure_bind]

theorem checkedCheck_eq (h : input.Valid) (d : Description) (settings : Settings)
    (header : Header) :
    d.checkedCheck (cut maxHalf) settings header input =
      pure (d.check settings header input.source) := by
  rw [checkedCheck, Header.checkedFirstOffset_eq h, pure_bind, check]
  cases header.firstOffset input.source with
  | error obstacle => cases obstacle <;> rfl
  | ok offset =>
    have hwalk := checkedWalk_eq (c := ⟨input, settings, header.encoding⟩) h d offset
    dsimp only [InputContext.context] at hwalk ⊢
    rw [hwalk, pure_bind]
    rcases d.walk ⟨input.source, settings, header.encoding⟩ offset with ⟨result, d⟩
    cases result with
    | error cause => rfl
    | ok =>
      dsimp only
      split
      · exact checkedCheckBaseline_eq d
      · rfl

end Description

namespace Decoder

def checkedIdentify (d : Decoder) (input : Input) : Checked Decoder := do
  let description ← d.reset.description.checkedReadHeader input
  pure { d with description }

def checkedProcess (narrow : Nat → Checked Nat) (d : Decoder) (input : Input) :
    Checked Decoder := do
  let d ← d.checkedIdentify input
  match d.description.header with
  | none => pure d
  | some header =>
    if d.settings.isIdentify then pure d
    else do
      let description ← d.description.checkedCheck narrow d.settings header input
      pure { d with description }

variable {input : Input}

theorem checkedIdentify_eq (h : input.Valid) (d : Decoder) :
    d.checkedIdentify input = pure (d.identify input.source) := by
  rw [checkedIdentify, Description.checkedReadHeader_eq h, pure_bind]
  rfl

theorem checkedProcess_eq (h : input.Valid) (d : Decoder) :
    d.checkedProcess (cut maxHalf) input = pure (d.process input.source) := by
  simp only [checkedProcess, process, checkedIdentify_eq h, pure_bind]
  cases (d.identify input.source).description.header with
  | none => rfl
  | some header =>
    dsimp only
    split
    · rfl
    · rw [Description.checkedCheck_eq h, pure_bind]

end Decoder
end ImageAudit.Tiff
