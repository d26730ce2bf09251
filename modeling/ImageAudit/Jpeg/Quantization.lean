import ImageAudit.Jpeg.Marker
import ImageAudit.Jpeg.Slots

/-! Quantization table segments. Each definition is a byte with precision and destination and 64
elements of one or two bytes; a segment holds any number of them. -/
namespace ImageAudit.Jpeg.Quantization

def blockSize : Nat := 64

def maxDestination : Nat := 3

structure Table where
  id : Nat
  /-- 0 for one byte an element, 1 for two. -/
  precision : Nat
  /-- In zig-zag order. -/
  values : List Nat
deriving DecidableEq, Repr

def elementSize? : (precision : Nat) → Option Nat
  | 0 => some 1
  | 1 => some 2
  | _ => none

def elements (size : Nat) (data : ByteArray) : List Nat :=
  (List.range blockSize).map fun i =>
    ByteOrder.bigEndian.decode (data.extract (i * size) (i * size + size)).data.toList

def destinationFindings (id : Nat) : List Finding :=
  if maxDestination < id then [.invalidQuantizationDestination id maxDestination] else []

def readDefinition (cursor : Segment) : Except (List Finding) Table × Segment :=
  let (value, cursor) := cursor.uint 1
  let precision := value / 16
  let id := value % 16
  let faults := destinationFindings id
  match elementSize? precision with
  | none => (.error (faults ++ [.invalidQuantizationPrecision precision]), cursor)
  | some size =>
    let needed := blockSize * size
    if !faults.isEmpty then (.error faults, cursor)
    else if cursor.left < needed then
      (.error [.quantizationTableTooShort cursor.left needed], cursor)
    else
      let (data, cursor) := cursor.getData needed
      (.ok ⟨id, precision, elements size data⟩, cursor)

theorem left_readDefinition (cursor : Segment) (h : cursor.left ≠ 0) :
    (readDefinition cursor).2.left < cursor.left := by
  simp only [readDefinition]
  split
  · simp only [Segment.left_uint]
    omega
  · split
    · simp only [Segment.left_uint]
      omega
    · split <;> simp only [Segment.left_uint, Segment.left_getData] <;> omega

def readTables (cursor : Segment) (tables : Slots Table) :
    Slots Table × Segment × List Finding :=
  if h : cursor.left = 0 then (tables, cursor, [])
  else
    have := left_readDefinition cursor h
    match (readDefinition cursor).1 with
    | .error findings => (tables, (readDefinition cursor).2, findings)
    | .ok table => readTables (readDefinition cursor).2 (tables.set table.id table)
termination_by cursor.left

end ImageAudit.Jpeg.Quantization
