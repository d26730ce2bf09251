import ImageAudit.Jpeg.Marker

/-! Entropy-coded data. It runs from behind a scan header to the first `0xFF` that is followed by
neither a zero nor the second byte of a restart marker. It is fetched in chunks, and the search
goes on where the last chunk left it. -/
namespace ImageAudit.Jpeg.EntropyData

def chunkSize : Nat := 64 * 1024

def continues (second : UInt8) : Bool := second == 0 || MarkerId.isRestart (0xFF00 + second.toNat)

inductive Search where
  /-- The data ends here. -/
  | found (stop : Nat)
  /-- The search goes on from here, with more bytes. -/
  | resume (index : Nat)
deriving DecidableEq, Repr

/-- Searches `data` from `index` on. An `0xFF` in the last place is looked at again later. -/
def search (data : ByteArray) (index : Nat) : Search :=
  if _ : index < data.size then
    if data[index] != 0xFF then search data (index + 1)
    else if _ : index + 1 < data.size then
      if continues data[index + 1] then search data (index + 1) else .found index
    else .resume index
  else .resume index
termination_by data.size - index

def readFrom (source : Source) (position : Nat) (data : ByteArray) (index : Nat) :
    Except ReadError ByteArray :=
  if _ : position < source.length then
    let count := min (source.length - position) chunkSize
    match source.read position count with
    | .error e => .error e
    | .ok chunk =>
      let data := data ++ chunk
      match search data index with
      | .found stop => .ok (data.extract 0 stop)
      | .resume index => readFrom source (position + count) data index
  else .ok data
termination_by source.length - position
decreasing_by
  have : 0 < chunkSize := by decide
  omega

def read (source : Source) (offset : Nat) : Except ReadError ByteArray :=
  readFrom source offset .empty 0

end ImageAudit.Jpeg.EntropyData
