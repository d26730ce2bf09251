import ImageAudit.Bytes.Order

/-! A cursor over bytes that were read from one place of a file. A read past the end yields
zero and leaves the cursor at the end, so no read fails. -/
namespace ImageAudit

/-- Bytes together with the file offset they were read from, a cursor and a byte order. -/
structure Segment where
  /-- File offset of the first byte. -/
  offset : Nat
  data : ByteArray
  order : ByteOrder
  index : Nat := 0

namespace Segment

def empty (offset : Nat) : Segment := ⟨offset, .empty, .bigEndian, 0⟩

def length (s : Segment) : Nat := s.data.size

def position (s : Segment) : Nat := s.offset + s.index

def left (s : Segment) : Nat := s.data.size - s.index

def hasBytes (s : Segment) (n : Nat) : Bool := n ≤ s.left

def rest (s : Segment) : List UInt8 := s.data.data.toList.drop s.index

def setIndex (s : Segment) (index : Nat) : Segment := { s with index := min index s.data.size }

def skip (s : Segment) (n : Nat) : Segment := s.setIndex (s.index + n)

def rewind (s : Segment) (n : Nat) : Segment := { s with index := s.index - n }

def setOrder (s : Segment) (order : ByteOrder) : Segment := { s with order }

def append (s : Segment) (more : ByteArray) : Segment := { s with data := s.data ++ more }

/-- The next `n` bytes, fewer at the end. -/
def getData (s : Segment) (n : Nat) : ByteArray × Segment :=
  let stop := min (s.index + n) s.data.size
  (s.data.extract s.index stop, { s with index := stop })

/-- The next `width` bytes as an unsigned integer; zero when fewer are left. -/
def uint (s : Segment) (width : Nat) : Nat × Segment :=
  let (bytes, next) := s.getData width
  (if bytes.size = width then s.order.decode bytes.data.toList else 0, next)

def maxIntegerWidth : Nat := 16

/-- An integer of any width up to `maxIntegerWidth`; a wider one is refused and nothing is read. -/
def bigInt (s : Segment) (width : Nat) : Option Nat × Segment :=
  if maxIntegerWidth < width then (none, s)
  else
    let (value, next) := s.uint width
    (some value, next)

def offsetWidth (big : Bool) : Nat := if big then 8 else 4

def offsetValue (s : Segment) (big : Bool) : Nat × Segment := s.uint (offsetWidth big)

def equalsAt (s : Segment) (start : Nat) (pattern : List UInt8) : Bool :=
  start + pattern.length ≤ s.data.size &&
    (s.data.extract start (start + pattern.length)).data.toList == pattern

inductive Operation where
  | uint (width : Nat)
  | bigInt (width : Nat)
  | offsetValue (big : Bool)
  | getData (n : Nat)
  | skip (n : Nat)
  | rewind (n : Nat)
  | setIndex (index : Nat)
  | append (more : ByteArray)
  | setOrder (order : ByteOrder)

inductive Answer where
  | done
  | number (value : Nat)
  | refused
  | bytes (data : ByteArray)

def apply (s : Segment) : Operation → Answer × Segment
  | .uint width => let (v, t) := s.uint width; (.number v, t)
  | .bigInt width =>
    match s.bigInt width with
    | (some v, t) => (.number v, t)
    | (none, t) => (.refused, t)
  | .offsetValue big => let (v, t) := s.offsetValue big; (.number v, t)
  | .getData n => let (b, t) := s.getData n; (.bytes b, t)
  | .skip n => (.done, s.skip n)
  | .rewind n => (.done, s.rewind n)
  | .setIndex i => (.done, s.setIndex i)
  | .append more => (.done, s.append more)
  | .setOrder order => (.done, s.setOrder order)

def Valid (s : Segment) : Prop := s.index ≤ s.data.size

theorem left_getData (s : Segment) (n : Nat) : (s.getData n).2.left = s.left - n := by
  simp only [getData, left]
  omega

theorem left_uint (s : Segment) (width : Nat) : (s.uint width).2.left = s.left - width :=
  left_getData s width

end Segment
end ImageAudit
