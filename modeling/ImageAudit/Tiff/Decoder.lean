import ImageAudit.Tiff.Baseline
import ImageAudit.Tiff.Chain

/-! The decoder of the TIFF family. Digital negatives and Canon raw files are TIFF files whose
directories hold certain tags. -/
namespace ImageAudit.Tiff

structure Description where
  header : Option Header
  survey : Survey
  isDng : Bool
  isCr2 : Bool

namespace Description

def empty (budget : Budget) : Description := ⟨none, .start budget, false, false⟩

def report (d : Description) (finding : Finding) : Description :=
  { d with survey := d.survey.report finding }

def findings (d : Description) : List ImageAudit.Finding := d.survey.findings.toList

/-- Reporting adds to the findings and changes nothing else. -/
theorem foldl_report (found : List Finding) (d : Description) :
    found.foldl report d = { d with survey := { d.survey with
      findings := d.survey.findings ++ (found.map ImageAudit.Finding.tiff).toArray } } := by
  induction found generalizing d with
  | nil => simp
  | cons finding found ih =>
    rw [List.foldl_cons, ih]
    simp [report, Survey.report]

theorem findings_foldl_report (found : List Finding) (d : Description) :
    (found.foldl report d).findings = d.findings ++ found.map .tiff := by
  rw [foldl_report]
  simp [findings]

def mainDirectories (d : Description) : List Directory :=
  d.survey.directories.toList.map (·.directory)

def order? (d : Description) : Option ByteOrder := d.header.map Header.order

def isBig (d : Description) : Bool := d.header.any Header.isBig

def cr2Directories : Nat := 4

def setFlavour (d : Description) : Description :=
  let chain := d.mainDirectories
  { d with
    isDng := chain.head?.any (·.contains Tag.dngVersion)
    isCr2 := chain.length == cr2Directories &&
      chain.getLast?.any (·.contains Tag.cr2Slices) }

/-- Follows the chain that starts at `offset`. The flavour is told if all of it could be read. -/
def walk (d : Description) (c : Context) (offset : Nat) : Except ReadError Unit × Description :=
  match d.survey.walk c offset with
  | .error cause survey => (.error cause, { d with survey })
  | .ok () survey => (.ok (), { d with survey }.setFlavour)

def checkBaseline (d : Description) : Description :=
  match d.mainDirectories.head? with
  | none => d
  | some first => (Baseline.check first).foldl report d

def readHeader (d : Description) (source : Source) : Description :=
  match Header.read source with
  | .error finding => d.report finding
  | .ok header => { d with header := some header }

def check (d : Description) (settings : Settings) (header : Header) (source : Source) :
    Description :=
  match header.firstOffset source with
  | .error (.defect finding) => d.report finding
  | .error (.failure cause) => d.report (.readingError cause)
  | .ok offset =>
    match d.walk ⟨source, settings, header.encoding⟩ offset with
    | (.error cause, d) => d.report (.readingError cause)
    | (.ok (), d) => if settings.baseline then d.checkBaseline else d

end Description

structure Decoder where
  settings : Settings
  description : Description

namespace Decoder

def new (settings : Settings) : Decoder := ⟨settings, .empty .default⟩

def reset (d : Decoder) : Decoder := .new d.settings

def isIdentified (d : Decoder) : Bool := d.description.header.isSome

def identify (d : Decoder) (source : Source) : Decoder :=
  { d with description := d.reset.description.readHeader source }

def process (d : Decoder) (source : Source) : Decoder :=
  let d := d.identify source
  match d.description.header with
  | none => d
  | some header =>
    if d.settings.isIdentify then d
    else { d with description := d.description.check d.settings header source }

def shortName (d : Decoder) : String :=
  if d.description.isDng then "DNG"
  else if d.description.isCr2 then "CR2"
  else "TIFF"

def longName (d : Decoder) : String :=
  if d.description.isDng then "Digital Negative"
  else if d.description.isCr2 then "Canon Raw"
  else "Tagged Image File Format"

def extensions : List String := ["tif", "tiff", "dng", "cr2"]

end Decoder
end ImageAudit.Tiff
