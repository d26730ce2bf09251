import ImageAudit.Jpeg.Frame
import ImageAudit.Jpeg.Huffman.Table
import ImageAudit.Jpeg.Slots

/-! Huffman table segments. Each definition is a byte with class and destination, sixteen counts
and the symbols; a segment holds any number of them. -/
namespace ImageAudit.Jpeg.Huffman

structure Tables where
  dc : Slots Table
  ac : Slots Table

namespace Tables

def empty : Tables := ⟨.empty, .empty⟩

def slots (t : Tables) : TableClass → Slots Table
  | .dc => t.dc
  | .ac => t.ac

def get? (t : Tables) (c : TableClass) (id : Nat) : Option Table := (t.slots c).get? id

def store (t : Tables) (table : Table) : Tables :=
  match TableClass.ofIndex? table.tableClass with
  | some .dc => { t with dc := t.dc.set table.id table }
  | some .ac => { t with ac := t.ac.set table.id table }
  | none => t

end Tables

structure Limits where
  tableClass : Nat
  destination : Nat
deriving DecidableEq, Repr

/-- Lossless frames have no AC tables and baseline frames two destinations; as long as there is no
frame the larger limits hold. -/
def Limits.ofFrame : Option Frame → Limits
  | none => ⟨1, 3⟩
  | some f => ⟨if f.isLossless then 0 else 1, if f.isBaseline then 1 else 3⟩

def BuildError.finding : BuildError → Finding
  | .tooManyCodes count => .tooManyHuffmanCodes count
  | .invalidCodeLengths length => .invalidHuffmanCodeLengths length

def limitFindings (limits : Limits) (tableClass id : Nat) : List Finding :=
  (if limits.tableClass < tableClass then
    [.invalidHuffmanClass tableClass limits.tableClass] else []) ++
  (if limits.destination < id then
    [.invalidHuffmanDestination id limits.destination] else [])

def readDefinition (limits : Limits) (cursor : Segment) :
    Except (List Finding) Table × Segment :=
  let (value, cursor) := cursor.uint 1
  let tableClass := value / 16
  let id := value % 16
  let faults := limitFindings limits tableClass id
  if !faults.isEmpty then (.error faults, cursor)
  else if cursor.left < maxLength then
    (.error [.huffmanTableTooShort maxLength cursor.left], cursor)
  else
    let (counts, cursor) := cursor.getData maxLength
    let counts := counts.data.toList.map UInt8.toNat
    let count := total counts
    if count ≤ maxSymbols ∧ cursor.left < count then
      (.error [.huffmanTableTooShort count cursor.left], cursor)
    else
      let (symbols, cursor) := cursor.getData count
      match Table.build tableClass id counts symbols.data with
      | .ok table => (.ok table, cursor)
      | .error e => (.error [e.finding], cursor)

theorem left_readDefinition (limits : Limits) (cursor : Segment) (h : cursor.left ≠ 0) :
    (readDefinition limits cursor).2.left < cursor.left := by
  simp only [readDefinition]
  split
  · simp only [Segment.left_uint]
    omega
  · split
    · simp only [Segment.left_uint]
      omega
    · split
      · simp only [Segment.left_uint, Segment.left_getData]
        omega
      · split <;> simp only [Segment.left_uint, Segment.left_getData] <;> omega

def readTables (limits : Limits) (cursor : Segment) (tables : Tables) :
    Tables × Segment × List Finding :=
  if h : cursor.left = 0 then (tables, cursor, [])
  else
    have := left_readDefinition limits cursor h
    match (readDefinition limits cursor).1 with
    | .error findings => (tables, (readDefinition limits cursor).2, findings)
    | .ok table => readTables limits (readDefinition limits cursor).2 (tables.store table)
termination_by cursor.left

end ImageAudit.Jpeg.Huffman
