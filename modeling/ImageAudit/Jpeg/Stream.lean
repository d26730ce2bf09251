import ImageAudit.Jpeg.EntropyData
import ImageAudit.Jpeg.Quantization
import ImageAudit.Jpeg.Scan
import ImageAudit.Jpeg.ScanData

/-! JPEG streams. Markers are read one after another until the end of the image or the first
finding, and each one updates what is known of the stream. -/
namespace ImageAudit.Jpeg

structure Stream where
  /-- Part of another file; bytes behind its end do not matter. -/
  embedded : Bool
  identified : Bool
  /-- In stream order, the start of the image first. -/
  markers : Array Marker
  frame : Option Frame
  huffman : Huffman.Tables
  quantization : Slots Quantization.Table
  /-- Units between restart markers; zero for none. -/
  restartInterval : Nat
  findings : List Finding

namespace Stream

def empty (embedded : Bool) : Stream :=
  ⟨embedded, false, #[], none, .empty, .empty, 0, []⟩

def report (s : Stream) (finding : Finding) : Stream :=
  { s with findings := s.findings ++ [finding] }

def reportAll (s : Stream) (findings : List Finding) : Stream :=
  { s with findings := s.findings ++ findings }

def isClean (s : Stream) : Bool := s.findings.isEmpty

def numScans (s : Stream) : Nat :=
  match s.frame with
  | none => 0
  | some f => f.scans.length

def restartLength : Nat := 4

def takeFrame (s : Stream) (m : Marker) : Stream × Marker :=
  let (frame, segment, findings) := Frame.read m s.frame
  ({ s with frame }.reportAll findings, { m with segment })

def takeScan (s : Stream) (m : Marker) : Stream × Marker :=
  match s.frame with
  | none => (s.report .scanBeforeFrame, m)
  | some f =>
    let (scan, segment, findings) := Scan.read m f
    let frame := { f with scans := f.scans ++ scan.toList }
    ({ s with frame := some frame }.reportAll findings, { m with segment })

def takeHuffman (s : Stream) (m : Marker) : Stream × Marker :=
  let (huffman, segment, findings) :=
    Huffman.readTables (.ofFrame s.frame) m.segment s.huffman
  ({ s with huffman }.reportAll findings, { m with segment })

def takeQuantization (s : Stream) (m : Marker) : Stream × Marker :=
  let (quantization, segment, findings) := Quantization.readTables m.segment s.quantization
  ({ s with quantization }.reportAll findings, { m with segment })

def takeRestartInterval (s : Stream) (m : Marker) : Stream × Marker :=
  let length := m.length.getD 0
  if length != restartLength then (s.report (.invalidRestartIntervalLength length), m)
  else
    let (restartInterval, segment) := m.segment.uint 2
    ({ s with restartInterval }, { m with segment })

def take (s : Stream) (m : Marker) : Stream × Marker :=
  if MarkerId.isStartOfFrame m.id then s.takeFrame m
  else if m.id == MarkerId.startOfScan then s.takeScan m
  else if m.id == MarkerId.defineHuffman then s.takeHuffman m
  else if m.id == MarkerId.defineQuantization then s.takeQuantization m
  else if m.id == MarkerId.defineRestart then s.takeRestartInterval m
  else (s, m)

def checkScanData (s : Stream) (data : ByteArray) (offset : Nat) : Stream :=
  match s.frame with
  | some f =>
    if f.isSequentialHuffman then
      s.reportAll (ScanData.check f s.huffman s.restartInterval data offset s.numScans)
    else s
  | none => s

end Stream

inductive Found where
  | fill
  /-- A marker and the offset behind its payload. -/
  | marker (m : Marker) (next : Nat)

namespace Marker

def readWord (source : Source) (offset : Nat) : Except Finding Nat :=
  if !source.hasSection offset markerSize then
    .error (.unexpectedEnd offset markerSize source.length)
  else match source.read offset markerSize with
    | .error e => .error (.readingError e)
    | .ok bytes => .ok (ByteOrder.bigEndian.decode bytes.data.toList)

/-- Reads a payload of `count` bytes; nothing is asked of the source for an empty one. -/
def readPayload (source : Source) (offset count : Nat) : Except Finding Segment :=
  if !source.hasSection offset count then .error (.unexpectedEnd offset count source.length)
  else if count = 0 then .ok (.empty offset)
  else match source.read offset count with
    | .error e => .error (.readingError e)
    | .ok data => .ok ⟨offset, data, .bigEndian, 0⟩

def readSegment (source : Source) (id offset number : Nat) : Except Finding Found :=
  let start := offset + markerSize
  match readWord source start with
  | .error finding => .error finding
  | .ok length =>
    if length < markerSize then .error (.invalidMarkerLength (MarkerId.name id) offset length)
    else
      let payload := length - markerSize
      match readPayload source (start + markerSize) payload with
      | .error finding => .error finding
      | .ok segment =>
        .ok (.marker ⟨id, some length, offset, number, segment⟩ (start + markerSize + payload))

def readMarker (source : Source) (id offset number : Nat) : Except Finding Found :=
  if !MarkerId.isMarker id || id == MarkerId.stuffing then
    .error (.invalidMarker (MarkerId.name id) offset)
  else if id = MarkerId.startOfImage then .error (.startNotFirst offset)
  else if MarkerId.hasLength id then readSegment source id offset number
  else
    .ok (.marker ⟨id, none, offset, number, .empty (offset + markerSize)⟩ (offset + markerSize))

def readAt (source : Source) (offset number : Nat) : Except Finding Found :=
  match readWord source offset with
  | .error finding => .error finding
  | .ok id => if id = MarkerId.fill then .ok .fill else readMarker source id offset number

end Marker

structure Scanner where
  offset : Nat
  /-- Number of the next marker. -/
  number : Nat
  stream : Stream

inductive Outcome where
  | advance (s : Scanner)
  | finish (s : Stream)

namespace Scanner

/-- Fetches and checks the data behind a scan header that is free of findings. Gives the number of
bytes that belong to the scan. -/
def takeScanData (source : Source) (s : Stream) (offset : Nat) : Except ReadError (Stream × Nat) :=
  (EntropyData.read source offset).map fun data => (s.checkScanData data offset, data.size)

def leave (source : Source) (s : Stream) (m : Marker) (next : Nat) : Outcome :=
  let s := { s with markers := s.markers.push m }
  if !s.isClean then .finish s
  else if m.id = MarkerId.endOfImage then
    if !s.embedded && next != source.length then
      .finish (s.report (.dataAfterEnd next source.length))
    else .finish s
  else .advance ⟨next, m.number + 1, s⟩

def enter (source : Source) (s : Stream) (m : Marker) (next : Nat) : Outcome :=
  let (s, m) := s.take m
  if m.id = MarkerId.startOfScan ∧ s.isClean then
    match takeScanData source s next with
    | .error e => .finish (s.report (.readingError e))
    | .ok (s, count) => leave source s m (next + count)
  else leave source s m next

def step (source : Source) (s : Scanner) : Outcome :=
  match Marker.readAt source s.offset s.number with
  | .error finding => .finish (s.stream.report finding)
  | .ok .fill => .advance { s with offset := s.offset + 1 }
  | .ok (.marker m next) => enter source s.stream m next

end Scanner
end ImageAudit.Jpeg
