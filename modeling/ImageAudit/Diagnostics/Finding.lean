import ImageAudit.Diagnostics.Log
import ImageAudit.Jpeg.Finding
import ImageAudit.Tiff.Finding
import ImageAudit.Xmp.Packet

/-! Findings of all formats as events with English texts. -/
namespace ImageAudit

inductive Finding where
  | tiff (finding : Tiff.Finding)
  | xmp (finding : Xmp.Finding)
  | jpeg (finding : Jpeg.Finding)
deriving DecidableEq, Repr

namespace Finding

def severity : Finding → Severity
  | .tiff f => f.severity
  | .xmp f => f.severity
  | .jpeg f => f.severity

def key : Finding → String
  | .tiff f => f.key
  | .xmp f => f.key
  | .jpeg f => f.key

def args : Finding → List String
  | .tiff f => f.args
  | .xmp _ => []
  | .jpeg f => f.args

def event (f : Finding) : Event := ⟨f.severity, f.key, Catalog.english.text f.key f.args⟩

end Finding
end ImageAudit
