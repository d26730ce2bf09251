import ImageAudit.Jpeg.BitReader
import ImageAudit.Jpeg.Huffman.Definition
import ImageAudit.Jpeg.Layout

/-! Decoding the entropy-coded data of a sequential scan, block by block. Only its form is checked;
coefficients are not kept. -/
namespace ImageAudit.Jpeg.ScanData

structure Coding where
  dc : Huffman.Table
  ac : Huffman.Table
deriving DecidableEq, Repr

inductive BlockError where
  | bits (e : BitError)
  /-- The coefficients do not fit a block. -/
  | overflow
deriving DecidableEq, Repr

def blockSize : Nat := 64

def maxCategory : Nat := 16

def readCoefficient (size : Nat) (r : BitReader) : Except BitError Int × BitReader :=
  let (result, r) := r.receive size
  (result.map (extend · size), r)

def decodeDc (t : Huffman.Table) (r : BitReader) : Except BlockError Unit × BitReader :=
  match r.decode t with
  | (.error e, r) => (.error (.bits e), r)
  | (.ok category, r) =>
    if maxCategory < category.toNat then (.error (.bits .invalidCode), r)
    else match readCoefficient category.toNat r with
      | (.error e, r) => (.error (.bits e), r)
      | (.ok _, r) => (.ok (), r)

/-- Decodes the AC coefficients from index `k` on. A symbol holds a run of zeros and a category;
category zero ends the block, or with run 15 stands for sixteen zeros. -/
def decodeAc (t : Huffman.Table) (k : Nat) (r : BitReader) : Except BlockError Unit × BitReader :=
  if k < blockSize then
    match r.decode t with
    | (.error e, r) => (.error (.bits e), r)
    | (.ok symbol, r) =>
      let run := symbol.toNat / 16
      let category := symbol.toNat % 16
      if category = 0 then
        if run = 15 then
          if blockSize < k + 16 then (.error .overflow, r) else decodeAc t (k + 16) r
        else (.ok (), r)
      else if blockSize ≤ k + run then (.error .overflow, r)
      else match readCoefficient category r with
        | (.error e, r) => (.error (.bits e), r)
        | (.ok _, r) => decodeAc t (k + run + 1) r
  else (.ok (), r)
termination_by blockSize - k

def decodeBlock (c : Coding) (r : BitReader) : Except BlockError Unit × BitReader :=
  match decodeDc c.dc r with
  | (.error e, r) => (.error e, r)
  | (.ok (), r) => decodeAc c.ac 1 r

def decodeUnit : (blocks : List Coding) → BitReader → Except BlockError Unit × BitReader
  | [], r => (.ok (), r)
  | c :: rest, r =>
    match decodeBlock c r with
    | (.error e, r) => (.error e, r)
    | (.ok (), r) => decodeUnit rest r

structure Progress where
  /-- Index of the next unit. -/
  unit : Nat
  /-- The restart marker that is due next. -/
  expected : Nat
  reader : BitReader

structure Plan where
  /-- The tables for each block of a unit. -/
  blocks : List Coding
  /-- Number of units. -/
  units : Nat
  /-- Units between restart markers; zero for none. -/
  interval : Nat
  /-- Number of the scan, for findings. -/
  number : Nat

namespace Plan

def restartsAt (p : Plan) (unit : Nat) : Bool :=
  0 < p.interval && 0 < unit && unit % p.interval == 0

def restartFinding : RestartError → Finding
  | .unexpected found offset expected => .unexpectedRestart found offset expected
  | .missing expected offset => .missingRestart expected offset

def blockFinding (p : Plan) (unit : Nat) : BlockError → Finding
  | .bits .endOfData => .prematureScanEnd p.number unit p.units
  | .bits .invalidCode => .invalidHuffmanCode unit p.number
  | .overflow => .coefficientOverflow unit p.number

def sync (p : Plan) (s : Progress) : Except Finding Progress :=
  if p.restartsAt s.unit then
    match s.reader.restart s.expected with
    | (.ok (), r) => .ok { s with reader := r, expected := (s.expected + 1) % 8 }
    | (.error e, _) => .error (restartFinding e)
  else .ok s

def step (p : Plan) (s : Progress) : Except Finding Progress :=
  match p.sync s with
  | .error f => .error f
  | .ok s =>
    match decodeUnit p.blocks s.reader with
    | (.ok (), r) => .ok { s with reader := r, unit := s.unit + 1 }
    | (.error e, _) => .error (p.blockFinding s.unit e)

def run (p : Plan) : (count : Nat) → Progress → Except Finding Progress
  | 0, s => .ok s
  | count + 1, s =>
    match p.step s with
    | .error f => .error f
    | .ok s => p.run count s

end Plan

def coding (tables : Huffman.Tables) (c : ScanComponent) : Except (List Finding) Coding :=
  match tables.get? .dc c.dcSelector, tables.get? .ac c.acSelector with
  | some dc, some ac => .ok ⟨dc, ac⟩
  | dc, ac => .error <|
    (if dc.isNone then [.undefinedHuffmanTable c.id .dc c.dcSelector] else []) ++
    (if ac.isNone then [.undefinedHuffmanTable c.id .ac c.acSelector] else [])

def missingTables (tables : Huffman.Tables) (components : List ScanComponent) : List Finding :=
  components.flatMap fun c =>
    match coding tables c with
    | .ok _ => []
    | .error findings => findings

def codings (tables : Huffman.Tables) (components : List ScanComponent) : List Coding :=
  components.filterMap fun c => (coding tables c).toOption

def check (f : Frame) (tables : Huffman.Tables) (interval : Nat) (data : ByteArray)
    (offset number : Nat) : List Finding :=
  match f.scans.getLast? with
  | none => []
  | some scan =>
    let missing := missingTables tables scan.components
    if !missing.isEmpty then missing
    else match Layout.ofScan? f scan.components with
      | none => []
      | some layout =>
        let blocks := ((codings tables scan.components).zip layout.blocks).flatMap
          fun (c, n) => List.replicate n c
        let plan : Plan := ⟨blocks, layout.units, interval, number⟩
        match plan.run layout.units ⟨0, 0, .ofBytes data offset⟩ with
        | .ok _ => []
        | .error finding => [finding]

end ImageAudit.Jpeg.ScanData
