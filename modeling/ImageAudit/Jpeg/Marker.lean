import ImageAudit.Bytes.Hex
import ImageAudit.Bytes.Segment
import ImageAudit.Jpeg.Finding

/-! JPEG markers. A marker is `0xFF` and a second byte; all but the standalone ones are followed
by a big-endian length that counts itself. -/
namespace ImageAudit.Jpeg

def markerSize : Nat := 2

namespace MarkerId

def temporary : Nat := 0xFF01
def defineHuffman : Nat := 0xFFC4
def firstRestart : Nat := 0xFFD0
def lastRestart : Nat := 0xFFD7
def startOfImage : Nat := 0xFFD8
def endOfImage : Nat := 0xFFD9
def startOfScan : Nat := 0xFFDA
def defineQuantization : Nat := 0xFFDB
def defineRestart : Nat := 0xFFDD
def firstApplication : Nat := 0xFFE0
def lastApplication : Nat := 0xFFEF

def fill : Nat := 0xFFFF

def stuffing : Nat := 0xFF00

def isMarker (id : Nat) : Bool := id / 256 % 256 == 0xFF

def isRestart (id : Nat) : Bool := firstRestart ≤ id && id ≤ lastRestart

theorem isRestart_iff {second : Nat} :
    isRestart (0xFF00 + second) = true ↔ 0xD0 ≤ second ∧ second ≤ 0xD7 := by
  rw [isRestart, firstRestart, lastRestart]
  rw [Bool.and_eq_true, decide_eq_true_iff, decide_eq_true_iff]
  omega

/-- The start-of-frame ids: C0 to CF without the table definitions C4 and CC and the reserved C8. -/
def isStartOfFrame (id : Nat) : Bool :=
  0xFFC0 ≤ id && id ≤ 0xFFCF && id != 0xFFC4 && id != 0xFFC8 && id != 0xFFCC

def hasLength (id : Nat) : Bool :=
  !(id == startOfImage || id == endOfImage || id == temporary || isRestart id)

def mnemonics : List (Nat × String) := [
  (0xFF01, "TEM"), (0xFFC0, "SOF0"), (0xFFC1, "SOF1"), (0xFFC2, "SOF2"), (0xFFC3, "SOF3"),
  (0xFFC4, "DHT"), (0xFFC5, "SOF5"), (0xFFC6, "SOF6"), (0xFFC7, "SOF7"), (0xFFC8, "JPG"),
  (0xFFC9, "SOF9"), (0xFFCA, "SOF10"), (0xFFCB, "SOF11"), (0xFFCC, "DAC"), (0xFFCD, "SOF13"),
  (0xFFCE, "SOF14"), (0xFFCF, "SOF15"), (0xFFD8, "SOI"), (0xFFD9, "EOI"), (0xFFDA, "SOS"),
  (0xFFDB, "DQT"), (0xFFDC, "DNL"), (0xFFDD, "DRI"), (0xFFFE, "COM")]

def name (id : Nat) : String :=
  match mnemonics.lookup id with
  | some name => name
  | none =>
    if isRestart id then "RST" ++ toString (id - firstRestart)
    else if firstApplication ≤ id && id ≤ lastApplication then
      "APP" ++ toString (id - firstApplication)
    else "0x" ++ Hex.text 4 id

end MarkerId

structure Marker where
  id : Nat
  /-- The stored length, which counts itself; absent for a standalone marker. -/
  length : Option Nat
  /-- Offset of the first id byte. -/
  offset : Nat
  /-- Position in the stream, counted from one. -/
  number : Nat
  /-- The payload, with the cursor where its reader left it. -/
  segment : Segment

namespace Marker

def name (m : Marker) : String := MarkerId.name m.id

def payloadLength (m : Marker) : Nat := (m.length.getD markerSize) - markerSize

end Marker
end ImageAudit.Jpeg
