import ImageAudit.Jpeg.Marker

/-! Frames. A start-of-frame segment holds precision, height, width, the number of components and
three bytes for each component. -/
namespace ImageAudit.Jpeg

inductive FrameClass where
  | baseline
  | extended
  | progressive
  | lossless
deriving DecidableEq, Repr

namespace FrameClass

def ofMarker? : Nat → Option FrameClass
  | 0xFFC0 => some .baseline
  | 0xFFC1 | 0xFFC5 | 0xFFC9 | 0xFFCD => some .extended
  | 0xFFC2 | 0xFFC6 | 0xFFCA | 0xFFCE => some .progressive
  | 0xFFC3 | 0xFFC7 | 0xFFCB | 0xFFCF => some .lossless
  | _ => none

def name : FrameClass → String
  | .baseline => "Baseline"
  | .extended => "Extended"
  | .progressive => "Progressive"
  | .lossless => "Lossless"

def allowsPrecision : FrameClass → Nat → Bool
  | .baseline, p => p == 8
  | .extended, p => p == 8 || p == 12
  | .progressive, p => p == 8 || p == 12
  | .lossless, p => 2 ≤ p && p ≤ 16

def precisionFinding : FrameClass → Nat → Finding
  | .baseline, p => .precisionBaseline p
  | .extended, p => .precisionExtended p
  | .progressive, p => .precisionProgressive p
  | .lossless, p => .precisionLossless p

def maxQuantizationSelector : FrameClass → Nat
  | .lossless => 0
  | _ => 3

end FrameClass

structure FrameComponent where
  id : Nat
  horizontal : Nat
  vertical : Nat
  quantizationSelector : Nat
deriving DecidableEq, Repr

structure ScanComponent where
  id : Nat
  dcSelector : Nat
  acSelector : Nat
deriving DecidableEq, Repr

structure Scan where
  components : List ScanComponent
  spectralStart : Nat
  spectralEnd : Nat
  approxHigh : Nat
  approxLow : Nat
deriving DecidableEq, Repr

namespace Scan

def isSequential (s : Scan) : Bool :=
  s.spectralStart == 0 && s.spectralEnd == 63 && s.approxHigh == 0 && s.approxLow == 0

end Scan

structure Frame where
  marker : Nat
  frameClass : FrameClass
  precision : Nat
  height : Nat
  width : Nat
  components : List FrameComponent
  scans : List Scan
deriving DecidableEq, Repr

namespace Frame

def isBaseline (f : Frame) : Bool := f.frameClass == .baseline

def isProgressive (f : Frame) : Bool := f.frameClass == .progressive

def isLossless (f : Frame) : Bool := f.frameClass == .lossless

/-- Whether the scans are sequential, Huffman coded and transformed: the ones that are decoded. -/
def isSequentialHuffman (f : Frame) : Bool := f.marker == 0xFFC0 || f.marker == 0xFFC1

def find? (f : Frame) (id : Nat) : Option FrameComponent := f.components.find? (·.id == id)

def maxHorizontal (f : Frame) : Nat := f.components.foldl (fun m c => max m c.horizontal) 1

def maxVertical (f : Frame) : Nat := f.components.foldl (fun m c => max m c.vertical) 1

private theorem foldl_max_le_iff {α : Type} {value : α → Nat} {items : List α} {n bound : Nat} :
    items.foldl (fun m a => max m (value a)) n ≤ bound ↔
      n ≤ bound ∧ ∀ a ∈ items, value a ≤ bound := by
  induction items generalizing n with
  | nil => simp
  | cons a items ih => rw [List.foldl_cons, ih, List.forall_mem_cons, Nat.max_le, and_assoc]

theorem maxHorizontal_le_iff {f : Frame} {bound : Nat} :
    f.maxHorizontal ≤ bound ↔ 1 ≤ bound ∧ ∀ c ∈ f.components, c.horizontal ≤ bound :=
  foldl_max_le_iff

theorem maxVertical_le_iff {f : Frame} {bound : Nat} :
    f.maxVertical ≤ bound ↔ 1 ≤ bound ∧ ∀ c ∈ f.components, c.vertical ≤ bound :=
  foldl_max_le_iff

def headerSize : Nat := 6

def maxProgressiveComponents : Nat := 4

def minSampling : Nat := 1

def maxSampling : Nat := 4

def isSampling (factor : Nat) : Bool := minSampling ≤ factor && factor ≤ maxSampling

def readComponent (cursor : Segment) : FrameComponent × Segment :=
  let (id, cursor) := cursor.uint 1
  let (sampling, cursor) := cursor.uint 1
  let (selector, cursor) := cursor.uint 1
  (⟨id, sampling / 16, sampling % 16, selector⟩, cursor)

def componentFindings (f : Frame) (c : FrameComponent) : List Finding :=
  (if isSampling c.horizontal then []
    else [.invalidHorizontalSampling c.horizontal c.id minSampling maxSampling]) ++
  (if isSampling c.vertical then []
    else [.invalidVerticalSampling c.vertical c.id minSampling maxSampling]) ++
  (if c.quantizationSelector ≤ f.frameClass.maxQuantizationSelector then []
    else [.invalidQuantizationSelector c.id c.quantizationSelector
      f.frameClass.maxQuantizationSelector]) ++
  (if (f.find? c.id).isSome then [.duplicateFrameComponent c.id] else [])

def addComponent (f : Frame) (c : FrameComponent) : Frame :=
  if (f.find? c.id).isSome then f else { f with components := f.components ++ [c] }

def readComponents : (count : Nat) → Frame → Segment → Frame × Segment × List Finding
  | 0, f, cursor => (f, cursor, [])
  | count + 1, f, cursor =>
    let (c, cursor) := readComponent cursor
    let (g, cursor, findings) := readComponents count (f.addComponent c) cursor
    (g, cursor, f.componentFindings c ++ findings)

def headerFindings (f : Frame) (count : Nat) : List Finding :=
  (if f.frameClass.allowsPrecision f.precision then []
    else [f.frameClass.precisionFinding f.precision]) ++
  (if f.width == 0 then [.widthZero] else []) ++
  (if count < 1 then [.noComponents]
    else if f.isProgressive && maxProgressiveComponents < count then
      [.tooManyProgressiveComponents count]
    else [])

/-- Reads the payload of a start-of-frame marker. The frame is kept also when it has faults; its
components are read only if the marker's length fits their number. -/
def ofPayload (m : Marker) (frameClass : FrameClass) : Frame × Segment × List Finding :=
  let (precision, cursor) := m.segment.uint 1
  let (height, cursor) := cursor.uint 2
  let (width, cursor) := cursor.uint 2
  let (count, cursor) := cursor.uint 1
  let frame : Frame := ⟨m.id, frameClass, precision, height, width, [], []⟩
  let findings := frame.headerFindings count
  let length := m.length.getD 0
  let expected := markerSize + headerSize + 3 * count
  if length != expected then
    (frame, cursor, findings ++ [.invalidFrameLength count expected length])
  else
    let (frame, cursor, more) := readComponents count frame cursor
    (frame, cursor, findings ++ more)

/-- Reads a start-of-frame marker after the frame `existing`. A second frame and a payload that is
too short are refused unread. -/
def read (m : Marker) (existing : Option Frame) : Option Frame × Segment × List Finding :=
  let refusals :=
    (if existing.isSome then [.multipleFrames] else []) ++
    (if m.payloadLength < headerSize then
      [.frameLengthTooSmall (m.length.getD 0) (headerSize + markerSize)] else [])
  match refusals, FrameClass.ofMarker? m.id with
  | [], some frameClass =>
    let (frame, cursor, findings) := ofPayload m frameClass
    (some frame, cursor, findings)
  | _, _ => (existing, m.segment, refusals)

end Frame
end ImageAudit.Jpeg
