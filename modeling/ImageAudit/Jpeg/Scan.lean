import ImageAudit.Jpeg.Frame

/-! Scan headers. A start-of-scan segment holds the number of components, two bytes for each, and
three bytes with spectral selection and approximation. -/
namespace ImageAudit.Jpeg.Scan

def minComponents : Nat := 1

def maxComponents : Nat := 4

def readComponent (cursor : Segment) : ScanComponent × Segment :=
  let (id, cursor) := cursor.uint 1
  let (tables, cursor) := cursor.uint 1
  (⟨id, tables / 16, tables % 16⟩, cursor)

def readComponents : (count : Nat) → Segment → List ScanComponent × Segment
  | 0, cursor => ([], cursor)
  | count + 1, cursor =>
    let (c, cursor) := readComponent cursor
    let (rest, cursor) := readComponents count cursor
    (c :: rest, cursor)

/-- Every component must be one of the frame and be listed once; `seen` holds the ids before. -/
def componentFindings (f : Frame) (seen : List Nat) : List ScanComponent → List Finding
  | [] => []
  | c :: rest =>
    (if (f.find? c.id).isNone then [.scanComponentUndefined c.id] else []) ++
    (if seen.contains c.id then [.scanComponentTwice c.id] else []) ++
    componentFindings f (c.id :: seen) rest

/-- Only progressive and lossless frames may select spectral bands or approximate. -/
def parameterFindings (f : Frame) (s : Scan) : List Finding :=
  if !f.isProgressive && !f.isLossless && !s.isSequential then
    [.invalidSequentialParameters s.spectralStart s.spectralEnd s.approxHigh s.approxLow]
  else []

/-- Reads a start-of-scan marker for frame `f`. Without a fitting component count and length there
is no scan; other faults leave it in place. -/
def read (m : Marker) (f : Frame) : Option Scan × Segment × List Finding :=
  let (count, cursor) := m.segment.uint 1
  let length := m.length.getD 0
  let expected := markerSize + 4 + 2 * count
  if count < minComponents || maxComponents < count then
    (none, cursor, [.invalidScanComponentCount count minComponents maxComponents])
  else if length != expected then
    (none, cursor, [.invalidScanLength count expected length])
  else
    let (components, cursor) := readComponents count cursor
    let (spectralStart, cursor) := cursor.uint 1
    let (spectralEnd, cursor) := cursor.uint 1
    let (approximation, cursor) := cursor.uint 1
    let scan : Scan :=
      ⟨components, spectralStart, spectralEnd, approximation / 16, approximation % 16⟩
    (some scan, cursor, componentFindings f [] components ++ parameterFindings f scan)

end ImageAudit.Jpeg.Scan
