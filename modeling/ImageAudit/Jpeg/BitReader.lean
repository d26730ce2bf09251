import ImageAudit.Jpeg.Huffman.Table
import ImageAudit.Jpeg.Marker

/-! Reading bits of entropy-coded data, most significant first. A stuffed `FF 00` counts as the
byte `FF`; no read crosses a marker, and restart markers are taken by `restart` alone. A failed
read keeps the bits it took. -/
namespace ImageAudit.Jpeg

inductive BitError where
  /-- The data ends or a marker follows. -/
  | endOfData
  /-- No code matches. -/
  | invalidCode
deriving DecidableEq, Repr

inductive RestartError where
  | unexpected (found offset expected : Nat)
  | missing (expected offset : Nat)
deriving DecidableEq, Repr

structure BitReader where
  /-- The bytes that have not been fetched. -/
  rest : List UInt8
  /-- File offset of the first of them. -/
  position : Nat
  /-- The unread bits of the byte fetched last. -/
  pending : List Bool
deriving DecidableEq, Repr

namespace BitReader

def ofBytes (data : ByteArray) (offset : Nat) : BitReader := ⟨data.data.toList, offset, []⟩

def bits (b : UInt8) : List Bool := (List.range 8).map fun i => b.toNat.testBit (7 - i)

def nextByte? (r : BitReader) : Option (UInt8 × List UInt8 × Nat) :=
  match r.rest with
  | [] => none
  | b :: rest =>
    if b != 0xFF then some (b, rest, r.position + 1)
    else match rest with
      | 0 :: rest => some (0xFF, rest, r.position + 2)
      | _ => none

def readBit (r : BitReader) : Except BitError Bool × BitReader :=
  match r.pending with
  | bit :: pending => (.ok bit, { r with pending })
  | [] =>
    match r.nextByte? with
    | none => (.error .endOfData, r)
    | some (b, rest, position) =>
      match bits b with
      | bit :: pending => (.ok bit, ⟨rest, position, pending⟩)
      | [] => (.error .endOfData, r)

def receiveFrom : (n value : Nat) → BitReader → Except BitError Nat × BitReader
  | 0, value, r => (.ok value, r)
  | n + 1, value, r =>
    match r.readBit with
    | (.ok bit, r) => receiveFrom n (2 * value + bit.toNat) r
    | (.error e, r) => (.error e, r)

/-- The next `n` bits as a number of sixteen bits; higher ones are lost. -/
def receive (n : Nat) (r : BitReader) : Except BitError Nat × BitReader :=
  let (result, r) := receiveFrom n 0 r
  (result.map (· % 0x10000), r)

def lookup (t : Huffman.Table) (length code : Nat) : Except BitError UInt8 :=
  match t.symbol? length code with
  | some symbol => .ok symbol
  | none => .error .invalidCode

/-- Looks for the code of which `code` are the first `length` bits; `more` further bits may be
read. -/
def decodeFrom (t : Huffman.Table) (more length code : Nat) (r : BitReader) :
    Except BitError UInt8 × BitReader :=
  if (code : Int) ≤ t.maxCode length then (lookup t length code, r)
  else match more with
    | 0 => (.error .invalidCode, r)
    | more + 1 =>
      match r.readBit with
      | (.ok bit, r) => decodeFrom t more (length + 1) (2 * code + bit.toNat) r
      | (.error e, r) => (.error e, r)

def decode (t : Huffman.Table) (r : BitReader) : Except BitError UInt8 × BitReader :=
  match r.readBit with
  | (.ok bit, r) => decodeFrom t (Huffman.maxLength - 1) 1 bit.toNat r
  | (.error e, r) => (.error e, r)

/-- Drops the unread bits of the last byte and takes the restart marker `expected`. -/
def restart (expected : Nat) (r : BitReader) : Except RestartError Unit × BitReader :=
  let r := { r with pending := [] }
  match r.rest with
  | 0xFF :: second :: rest =>
    if MarkerId.isRestart (0xFF00 + second.toNat) then
      let found := second.toNat - 0xD0
      if found = expected then (.ok (), { r with rest, position := r.position + 2 })
      else (.error (.unexpected found r.position expected), r)
    else (.error (.missing expected r.position), r)
  | _ => (.error (.missing expected r.position), r)

end BitReader

/-- The signed value that a magnitude of `size` bits stands for: without its top bit it is
negative. -/
def extend (value size : Nat) : Int :=
  if size = 0 then 0
  else if value < 1 <<< (size - 1) then (value : Int) - (1 <<< size : Nat) + 1
  else value

end ImageAudit.Jpeg
