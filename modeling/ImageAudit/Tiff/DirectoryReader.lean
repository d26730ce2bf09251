import ImageAudit.Tiff.DirectoryRules
import ImageAudit.Tiff.EmbeddedData
import ImageAudit.Tiff.FieldRules
import ImageAudit.Tiff.Header

/-! Reading one directory: the number of its entries, then all entries and the offset of the next
directory. Whatever is read is checked against the rules. -/
namespace ImageAudit.Tiff

structure Context where
  source : Source
  settings : Settings
  encoding : Encoding

namespace Directory

def countSize (big : Bool) : Nat := if big then 8 else 2

def minTags : Nat := 1

def bodySize (big : Bool) (count : Nat) : Nat := count * Entry.size big + Segment.offsetWidth big

def readPart (source : Source) (offset start count : Nat) : Except Obstacle ByteArray :=
  if !source.hasSection start count then
    .error (.defect (.invalidFileOffset offset source.length))
  else match source.read start count with
    | .error cause => .error (.failure cause)
    | .ok bytes => .ok bytes

def readBytes (e : Encoding) (source : Source) (offset : Nat) : Except Obstacle (Nat × Segment) :=
  match readPart source offset offset (countSize e.big) with
  | .error obstacle => .error obstacle
  | .ok bytes =>
    let (count, raw) := Segment.uint ⟨offset, bytes, e.order, 0⟩ (countSize e.big)
    if count < minTags then .error (.defect (.tooFewTags offset count minTags))
    else match readPart source offset (offset + countSize e.big) (bodySize e.big count) with
      | .error obstacle => .error obstacle
      | .ok body => .ok (count, raw.append body)

end Directory

structure Intake where
  cursor : Segment
  budget : Budget
  fields : Array Field
  findings : Array Finding

namespace Intake

def start (cursor : Segment) (budget : Budget) : Intake := ⟨cursor, budget, #[], #[]⟩

def accept (s : Intake) (f : Field) : Intake :=
  { s with
    fields := s.fields.push f
    findings := s.findings ++
      (FieldRules.orderFindings (s.fields.back?.map (·.tag)) f.tag ++ FieldRules.check f) }

def step (c : Context) (s : Intake) : Except ReadError Unit × Intake :=
  let (loaded, cursor) := Field.read c.encoding c.source s.cursor s.budget
  let s := { s with cursor, budget := loaded.budget, findings := s.findings ++ loaded.findings }
  match loaded.result with
  | .error cause => (.error cause, s)
  | .ok field => (.ok (), s.accept field)

def run (c : Context) : (count : Nat) → Intake → Except ReadError Unit × Intake
  | 0, s => (.ok (), s)
  | count + 1, s =>
    match s.step c with
    | (.error cause, s) => (.error cause, s)
    | (.ok (), s) => run c count s

def directory (s : Intake) (big : Bool) (offset : Nat) : Directory :=
  ⟨offset, s.fields.toList, (s.cursor.offsetValue big).1⟩

end Intake

structure DirectoryReading where
  result : Except ReadError (Option Directory)
  findings : List ImageAudit.Finding
  budget : Budget

namespace Directory

def rulesFindings (c : Context) (kind : DirectoryKind) (index : Nat) (d : Directory) :
    List ImageAudit.Finding :=
  (DirectoryRules.check d kind index c.source.length).map .tiff ++
    EmbeddedData.check c.settings c.source d

def parityFindings (offset : Nat) : List Finding :=
  if offset % 2 = 1 then [.oddDirectoryOffset offset] else []

def read (c : Context) (kind : DirectoryKind) (index offset : Nat) (budget : Budget) :
    DirectoryReading :=
  let parity := parityFindings offset
  match readBytes c.encoding c.source offset with
  | .error (.defect finding) => ⟨.ok none, (parity ++ [finding]).map .tiff, budget⟩
  | .error (.failure cause) => ⟨.error cause, parity.map .tiff, budget⟩
  | .ok (count, raw) =>
    let (result, s) := (Intake.start raw budget).run c count
    let findings := (parity ++ s.findings.toList).map ImageAudit.Finding.tiff
    match result with
    | .error cause => ⟨.error cause, findings, s.budget⟩
    | .ok () =>
      let d := s.directory c.encoding.big offset
      ⟨.ok (some d), findings ++ rulesFindings c kind index d, s.budget⟩

end Directory
end ImageAudit.Tiff
