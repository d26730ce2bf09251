import ImageAudit.Bytes.Hex
import ImageAudit.Tiff.Field

/-! File headers: byte order, version and the offset of the first directory. -/
namespace ImageAudit.Tiff

structure Header where
  order : ByteOrder
  version : Nat
deriving DecidableEq, Repr

/-- What keeps a step from being done: a defect of the file, or a read that fails. -/
inductive Obstacle where
  | defect (finding : Finding)
  | failure (cause : ReadError)
deriving DecidableEq, Repr

namespace Header

def classicVersion : Nat := 42

def bigVersion : Nat := 43

def isBig (h : Header) : Bool := h.version == bigVersion

def encoding (h : Header) : Encoding := ⟨h.order, h.isBig⟩

def signatureSize : Nat := 4

def size (h : Header) : Nat := if h.isBig then 16 else 8

def orderOf? : (signature : List UInt8) → Option ByteOrder
  | [0x49, 0x49] => some .littleEndian
  | [0x4D, 0x4D] => some .bigEndian
  | _ => none

def showSignature (bytes : List UInt8) : String :=
  "0x" ++ String.join (bytes.map fun b => Hex.text 2 b.toNat)

def ofBytes (bytes : List UInt8) : Except Finding Header :=
  match orderOf? (bytes.take 2) with
  | none => .error (.invalidByteOrder (showSignature (bytes.take 2)))
  | some order =>
    let version := order.decode (bytes.drop 2)
    if version = classicVersion ∨ version = bigVersion then .ok ⟨order, version⟩
    else .error (.invalidVersion version)

def read (source : Source) : Except Finding Header :=
  match source.read 0 signatureSize with
  | .error cause => .error (.cannotReadHeader cause)
  | .ok bytes => ofBytes bytes.data.toList

def bigOffsetSize : Nat := 8

/-- Takes the announced width of offsets and the zero behind it, which only a big header has. -/
def takeLayout (h : Header) (rest : Segment) : Except Finding Segment :=
  if h.isBig then
    let (size, rest) := rest.uint 2
    let (reserved, rest) := rest.uint 2
    if size ≠ bigOffsetSize then .error (.invalidOffsetSize size)
    else if reserved ≠ 0 then .error (.invalidOffsetZero reserved)
    else .ok rest
  else .ok rest

def takeOffset (h : Header) (rest : Segment) (fileLength : Nat) : Except Finding Nat :=
  match h.takeLayout rest with
  | .error finding => .error finding
  | .ok rest =>
    let offset := (rest.offsetValue h.isBig).1
    if isPosition offset fileLength then .ok offset
    else .error (.invalidFileOffset offset fileLength)

def firstOffset (h : Header) (source : Source) : Except Obstacle Nat :=
  match source.read signatureSize (h.size - signatureSize) with
  | .error cause => .error (.failure cause)
  | .ok bytes =>
    match h.takeOffset ⟨signatureSize, bytes, h.order, 0⟩ source.length with
    | .error finding => .error (.defect finding)
    | .ok offset => .ok offset

end Header
end ImageAudit.Tiff
