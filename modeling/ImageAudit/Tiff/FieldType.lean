import ImageAudit.Bytes.Arithmetic
import ImageAudit.Bytes.Order

/-! Field types: how many bytes a value takes and what they stand for. -/
namespace ImageAudit.Tiff

inductive FieldType where
  | byte
  | ascii
  | short
  | long
  | rational
  | sbyte
  | undefined
  | sshort
  | slong
  | srational
  | float
  | double
  | ifd
  | long8
  | slong8
  | ifd8
deriving DecidableEq, Repr

inductive Value where
  /-- An integer, or the quotient of a rational. -/
  | integer (value : Int)
  /-- The bits of a double-precision number. -/
  | real (bits : Nat)
  | char (code : UInt8)
deriving DecidableEq, Repr

namespace Value

def word? : Value → Option Nat
  | .integer v => if 0 ≤ v ∧ v ≤ maxWord then some v.toNat else none
  | _ => none

def char? : Value → Option UInt8
  | .char c => some c
  | _ => none

end Value

/-- The double-precision bits of the number with the single-precision bits `bits`. -/
def widen (bits : Nat) : Nat :=
  let sign := bits >>> 31 <<< 63
  let exponent := bits >>> 23 % 0x100
  let fraction := bits % 0x800000
  if exponent = 255 then sign + 2047 <<< 52 + fraction <<< 29
  else if exponent ≠ 0 then sign + (exponent + 896) <<< 52 + fraction <<< 29
  else if fraction = 0 then sign
  else
    let top := fraction.log2
    sign + (top + 874) <<< 52 + (fraction - 1 <<< top) <<< (52 - top)

def signed (width n : Nat) : Int :=
  if n < 1 <<< (8 * width - 1) then n else (n : Int) - (1 <<< (8 * width) : Nat)

/-- The quotient without its fraction; zero over a zero denominator. -/
def quotient (numerator denominator : Int) : Int :=
  if denominator = 0 then 0 else numerator.tdiv denominator

namespace FieldType

def all : List FieldType :=
  [.byte, .ascii, .short, .long, .rational, .sbyte, .undefined, .sshort, .slong, .srational,
    .float, .double, .ifd, .long8, .slong8, .ifd8]

def id : FieldType → Nat
  | .byte => 1
  | .ascii => 2
  | .short => 3
  | .long => 4
  | .rational => 5
  | .sbyte => 6
  | .undefined => 7
  | .sshort => 8
  | .slong => 9
  | .srational => 10
  | .float => 11
  | .double => 12
  | .ifd => 13
  | .long8 => 16
  | .slong8 => 17
  | .ifd8 => 18

def ofId? (id : Nat) : Option FieldType := all.find? (·.id == id)

def name : FieldType → String
  | .byte => "BYTE"
  | .ascii => "ASCII"
  | .short => "SHORT"
  | .long => "LONG"
  | .rational => "RATIONAL"
  | .sbyte => "SBYTE"
  | .undefined => "UNDEFINED"
  | .sshort => "SSHORT"
  | .slong => "SLONG"
  | .srational => "SRATIONAL"
  | .float => "FLOAT"
  | .double => "DOUBLE"
  | .ifd => "IFD"
  | .long8 => "LONG8"
  | .slong8 => "SLONG8"
  | .ifd8 => "IFD8"

def size : FieldType → Nat
  | .byte | .ascii | .sbyte | .undefined => 1
  | .short | .sshort => 2
  | .long | .slong | .float | .ifd => 4
  | .rational | .srational | .double | .long8 | .slong8 | .ifd8 => 8

theorem size_pos (t : FieldType) : 0 < t.size := by cases t <;> decide

def isSigned : FieldType → Bool
  | .sbyte | .sshort | .slong | .srational | .slong8 => true
  | _ => false

def inlineSize (big : Bool) : Nat := if big then 8 else 4

def fitsInline (t : FieldType) (count : Nat) (big : Bool) : Bool := t.size * count ≤ inlineSize big

/-- Bytes charged for a decoded value in addition to its stored form. -/
def valueCharge : Nat := 32

def charge (t : FieldType) (count : Nat) : Nat := count * (t.size + valueCharge)

def ratio? (t : FieldType) (order : ByteOrder) (bytes : List UInt8) : Option (Int × Int) :=
  let numerator := order.decode (bytes.take 4)
  let denominator := order.decode (bytes.drop 4)
  match t with
  | .rational => some (numerator, denominator)
  | .srational => some (signed 4 numerator, signed 4 denominator)
  | _ => none

def decode (t : FieldType) (order : ByteOrder) (bytes : List UInt8) : Value :=
  match t with
  | .ascii => .char (UInt8.ofNat (order.decode bytes))
  | .byte | .undefined | .short | .long | .ifd | .long8 | .ifd8 => .integer (order.decode bytes)
  | .sbyte | .sshort | .slong | .slong8 => .integer (signed t.size (order.decode bytes))
  | .float => .real (widen (order.decode bytes))
  | .double => .real (order.decode bytes)
  | .rational | .srational =>
    match t.ratio? order bytes with
    | some (numerator, denominator) => .integer (quotient numerator denominator)
    | none => .integer 0

end FieldType
end ImageAudit.Tiff
