import ImageAudit.Proofs.Bytes.Overlay
import ImageAudit.Tiff.DirectoryReader

/-! Plans of files. A plan says what a file holds and where, apart from the order of the bytes of
its numbers: header, directories with their entries, values that entries do not hold themselves, and
everything else as bytes. With a byte order a plan makes a file. -/
namespace ImageAudit.Tiff

namespace FieldType

def components : FieldType → Nat
  | .rational | .srational => 2
  | _ => 1

def componentSize : FieldType → Nat
  | .rational | .srational => 4
  | t => t.size

def encode (t : FieldType) (order : ByteOrder) (numbers : List Nat) : List UInt8 :=
  numbers.flatMap (order.encode t.componentSize)

def value (t : FieldType) (numbers : List Nat) : Value :=
  match t, numbers with
  | .ascii, [n] => .char (UInt8.ofNat n)
  | .sbyte, [n] | .sshort, [n] | .slong, [n] | .slong8, [n] => .integer (signed t.size n)
  | .float, [n] => .real (widen n)
  | .double, [n] => .real n
  | .rational, [n, d] => .integer (quotient n d)
  | .srational, [n, d] => .integer (quotient (signed 4 n) (signed 4 d))
  | _, [n] => .integer n
  | _, _ => .integer 0

end FieldType

inductive Place where
  /-- In the entry, in front of bytes without a meaning. -/
  | inline (values : List (List Nat)) (padding : List UInt8)
  /-- In a region of their own. -/
  | region (values : List (List Nat)) (offset : Nat)
  /-- In a window that does not lie in the file. -/
  | nowhere (count offset : Nat)

namespace Place

def values : Place → List (List Nat)
  | inline values _ | region values _ => values
  | nowhere .. => []

def count : Place → Nat
  | inline values _ | region values _ => values.length
  | nowhere count _ => count

end Place

structure PlannedEntry where
  tag : Nat
  type : FieldType
  place : Place

namespace PlannedEntry

def decoded (x : PlannedEntry) : List Value := x.place.values.map x.type.value

def raw (x : PlannedEntry) (order : ByteOrder) : List UInt8 :=
  x.place.values.flatMap (x.type.encode order)

def valueArea (x : PlannedEntry) (order : ByteOrder) (big : Bool) : List UInt8 :=
  match x.place with
  | .inline _ padding => x.raw order ++ padding
  | .region _ offset | .nowhere _ offset => order.encode (Segment.offsetWidth big) offset

def bytes (x : PlannedEntry) (order : ByteOrder) (big : Bool) : List UInt8 :=
  order.encode 2 x.tag ++ (order.encode 2 x.type.id ++
    (order.encode (Segment.offsetWidth big) x.place.count ++ x.valueArea order big))

def regions (x : PlannedEntry) (order : ByteOrder) : List Region :=
  match x.place with
  | .region _ offset => [⟨offset, x.raw order⟩]
  | _ => []

/-- The entry says how its values are stored: their numbers have the right width, those in the entry
fill it, and others have a window, which lies in the file if they have a region. -/
structure Valid (x : PlannedEntry) (big : Bool) (fileLength : Nat) : Prop where
  tag_lt : x.tag < Nat.pow 256 2
  count_lt : x.place.count < Nat.pow 256 (Segment.offsetWidth big)
  numbers : ∀ numbers ∈ x.place.values, numbers.length = x.type.components ∧
    ∀ n ∈ numbers, n < Nat.pow 256 x.type.componentSize
  place : match x.place with
    | .inline values padding =>
      x.type.size * values.length + padding.length = FieldType.inlineSize big
    | .region values offset =>
      x.type.fitsInline values.length big = false ∧ offset < Nat.pow 256 (Segment.offsetWidth big)
    | .nowhere count offset =>
      x.type.fitsInline count big = false ∧ offset < Nat.pow 256 (Segment.offsetWidth big) ∧
        isSection offset (x.type.size * count) fileLength = false

end PlannedEntry

structure PlannedDirectory where
  offset : Nat
  entries : List PlannedEntry
  nextOffset : Nat

namespace PlannedDirectory

def bytes (d : PlannedDirectory) (order : ByteOrder) (big : Bool) : List UInt8 :=
  order.encode (Directory.countSize big) d.entries.length ++
    (d.entries.flatMap (·.bytes order big) ++ order.encode (Segment.offsetWidth big) d.nextOffset)

def regions (d : PlannedDirectory) (order : ByteOrder) (big : Bool) : List Region :=
  ⟨d.offset, d.bytes order big⟩ :: d.entries.flatMap (·.regions order)

def find? (d : PlannedDirectory) (tag : Nat) : Option PlannedEntry :=
  d.entries.find? (·.tag == tag)

def word? (d : PlannedDirectory) (tag : Nat) : Option Nat :=
  (d.find? tag).bind fun x => x.decoded.head?.bind Value.word?

def subOffsets (d : PlannedDirectory) : List Nat :=
  match d.find? Tag.subDirectories with
  | none => []
  | some x => x.decoded.filterMap Value.word?

def references (d : PlannedDirectory) : List Nat :=
  d.nextOffset :: d.subOffsets ++ (d.word? Tag.gpsDirectory).toList

structure Valid (d : PlannedDirectory) (big : Bool) (fileLength : Nat) : Prop where
  entries : ∀ x ∈ d.entries, x.Valid big fileLength
  count_lt : d.entries.length < Nat.pow 256 (Directory.countSize big)
  nextOffset_lt : d.nextOffset < Nat.pow 256 (Segment.offsetWidth big)

end PlannedDirectory

/-- What a file holds. Regions are laid over the background, which shows strips and tiles, streams
and whatever else is not made of numbers. -/
structure Plan where
  big : Bool
  firstOffset : Nat
  directories : List PlannedDirectory
  background : List UInt8

namespace Plan

variable (p : Plan)

def signature : ByteOrder → List UInt8
  | .littleEndian => [0x49, 0x49]
  | .bigEndian => [0x4D, 0x4D]

def version : Nat := if p.big then Header.bigVersion else Header.classicVersion

def layoutBytes (order : ByteOrder) : List UInt8 :=
  if p.big then order.encode 2 Header.bigOffsetSize ++ order.encode 2 0 else []

def headerBytes (order : ByteOrder) : List UInt8 :=
  signature order ++ order.encode 2 p.version ++
    (p.layoutBytes order ++ order.encode (Segment.offsetWidth p.big) p.firstOffset)

def regions (order : ByteOrder) : List Region :=
  ⟨0, p.headerBytes order⟩ :: p.directories.flatMap (·.regions order p.big)

def bytes (order : ByteOrder) : List UInt8 := overlay p.background (p.regions order)

/-- Whether a directory can be looked for at `offset`: there is none, or one is planned there, or
not even the number of its entries lies in the file. -/
def Refers (offset : Nat) : Prop :=
  offset = 0 ∨ (∃ d ∈ p.directories, d.offset = offset) ∨
    p.background.length < offset + Directory.countSize p.big

instance (offset : Nat) : Decidable (p.Refers offset) := inferInstanceAs (Decidable (_ ∨ _ ∨ _))

/-- The regions lie in the file and apart from one another; every reference to a directory is empty,
or finds a directory, or leads out of the file; and what is embedded lies in the background. -/
structure Valid : Prop where
  directories : ∀ d ∈ p.directories, d.Valid p.big p.background.length
  firstOffset_lt : p.firstOffset < Nat.pow 256 (Segment.offsetWidth p.big)
  inside : ∀ order, ∀ r ∈ p.regions order, r.stop ≤ p.background.length
  apart : ∀ order, (p.regions order).Pairwise Region.Apart
  first : p.Refers p.firstOffset
  references : ∀ d ∈ p.directories, ∀ offset ∈ d.references, p.Refers offset
  embedded : ∀ d ∈ p.directories, ∀ offset length, d.word? Tag.embeddedOffset = some offset →
    d.word? Tag.embeddedLength = some length →
    isSection offset length p.background.length = true →
    ∀ order, ∀ r ∈ p.regions order, r.Avoids offset (offset + length)

end Plan
end ImageAudit.Tiff
