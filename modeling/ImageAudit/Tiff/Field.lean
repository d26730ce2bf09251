import ImageAudit.Bytes.Segment
import ImageAudit.Bytes.Source
import ImageAudit.Tiff.Budget
import ImageAudit.Tiff.Finding
import ImageAudit.Tiff.Schema

/-! Fields. A directory entry holds tag, type, count and a value area with the values themselves
or, when they do not fit, the offset of the window that holds them. -/
namespace ImageAudit.Tiff

structure Encoding where
  order : ByteOrder
  /-- Eight-byte offsets and counts. -/
  big : Bool
deriving DecidableEq, Repr

structure Entry where
  tag : Nat
  typeId : Nat
  count : Nat
  valueArea : ByteArray

structure Field where
  tag : Nat
  typeId : Nat
  /-- Number of values that the entry announces. -/
  count : Nat
  /-- Offset of the values, unless the entry holds them. -/
  valueOffset : Option Nat
  /-- The stored values; empty if they could not be loaded. -/
  raw : ByteArray
  values : List Value

namespace Field

def fieldType? (f : Field) : Option FieldType := FieldType.ofId? f.typeId

def isInline (f : Field) : Bool := f.valueOffset.isNone

def first? (f : Field) : Option Nat := f.values.head?.bind Value.word?

def words (f : Field) : List Nat := f.values.filterMap Value.word?

def text (f : Field) : String :=
  String.ofList
    (((f.values.filterMap Value.char?).takeWhile (· != 0)).map fun c => Char.ofNat c.toNat)

def name (f : Field) : String := Schema.tagName f.tag

end Field

namespace FieldType

def elements (t : FieldType) (raw : ByteArray) : List (List UInt8) :=
  (List.range (raw.size / t.size)).map fun i =>
    (raw.extract (i * t.size) (i * t.size + t.size)).data.toList

/-- The finding for a rational with denominator zero; `0/0` stands for an unknown value. -/
def ratioFinding? (t : FieldType) (order : ByteOrder) (tag : Nat) (bytes : List UInt8) :
    Option Finding :=
  match t.ratio? order bytes with
  | some (numerator, 0) => if numerator = 0 then none else some (.denominatorZero tag numerator)
  | _ => none

end FieldType

/-- What comes of loading something: a result, the findings on the way and the budget after it. -/
structure Loaded (α : Type) where
  result : Except ReadError α
  findings : List Finding
  budget : Budget

namespace Entry

def size (big : Bool) : Nat := if big then 20 else 12

def read (e : Encoding) (cursor : Segment) : Entry × Segment :=
  let (tag, cursor) := cursor.uint 2
  let (typeId, cursor) := cursor.uint 2
  let (count, cursor) := cursor.offsetValue e.big
  let (valueArea, cursor) := cursor.getData (FieldType.inlineSize e.big)
  (⟨tag, typeId, count, valueArea⟩, cursor)

def decode (entry : Entry) (e : Encoding) (t : FieldType) (valueOffset : Option Nat)
    (raw : ByteArray) : Field × List Finding :=
  let elements := t.elements raw
  (⟨entry.tag, entry.typeId, entry.count, valueOffset, raw, elements.map (t.decode e.order)⟩,
    elements.filterMap (t.ratioFinding? e.order entry.tag))

def shownSize (size : Nat) : String := if size ≤ maxWord then toString size else "more than 2^64"

/-- Loads the stored values from `offset`. They must lie inside the file and be within the limit
for one field and within what remains of the budget. -/
def load (entry : Entry) (t : FieldType) (source : Source) (offset : Nat) (budget : Budget) :
    Loaded (Option ByteArray) :=
  let odd := if offset % 2 = 1 then [Finding.oddFieldOffset entry.tag offset] else []
  let size := t.size * entry.count
  let charge := saturate (t.charge entry.count)
  if !source.hasSection offset size then
    ⟨.ok none, odd ++ [.invalidFieldWindow entry.tag offset (shownSize size) source.length], budget⟩
  else if maxFieldCharge < charge then
    ⟨.ok none, odd ++ [.fieldDataTooLarge entry.tag charge maxFieldCharge], budget⟩
  else match budget.take? charge with
    | none =>
      ⟨.ok none, odd ++ [.budgetExhausted entry.tag charge budget.remaining budget.limit], budget⟩
    | some budget => ⟨(source.read offset size).map some, odd, budget⟩

def resolve (entry : Entry) (e : Encoding) (source : Source) (budget : Budget) : Loaded Field :=
  let bare (valueOffset : Option Nat) (raw : ByteArray) : Field :=
    ⟨entry.tag, entry.typeId, entry.count, valueOffset, raw, []⟩
  match FieldType.ofId? entry.typeId with
  | none =>
    ⟨.ok (bare none entry.valueArea), [.unknownFieldType entry.tag entry.typeId], budget⟩
  | some t =>
    if t.fitsInline entry.count e.big then
      let raw := entry.valueArea.extract 0 (t.size * entry.count)
      let (field, findings) := entry.decode e t none raw
      ⟨.ok field, findings, budget⟩
    else
      let offset := e.order.decode entry.valueArea.data.toList
      let loaded := entry.load t source offset budget
      match loaded.result with
      | .error error => ⟨.error error, loaded.findings, loaded.budget⟩
      | .ok none => ⟨.ok (bare (some offset) .empty), loaded.findings, loaded.budget⟩
      | .ok (some raw) =>
        let (field, findings) := entry.decode e t (some offset) raw
        ⟨.ok field, loaded.findings ++ findings, loaded.budget⟩

end Entry

def Field.read (e : Encoding) (source : Source) (cursor : Segment) (budget : Budget) :
    Loaded Field × Segment :=
  let (entry, cursor) := Entry.read e cursor
  (entry.resolve e source budget, cursor)

end ImageAudit.Tiff
