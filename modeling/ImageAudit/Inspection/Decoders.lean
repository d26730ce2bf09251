import ImageAudit.Inspection.Report
import ImageAudit.Jpeg.Decoder
import ImageAudit.Tiff.Decoder

/-! Inspecting a file. It is offered to the TIFF decoder and then to the JPEG decoder; the first
one that recognises it judges it. -/
namespace ImageAudit

structure Verdict where
  identified : Bool
  shortName : String
  longName : String
  extensions : List String
  log : Log
deriving DecidableEq, Repr

def Tiff.Decoder.verdict (d : Tiff.Decoder) : Verdict where
  identified := d.isIdentified
  shortName := d.shortName
  longName := d.longName
  extensions := Tiff.Decoder.extensions
  log := d.description.findings.map Finding.event

def Jpeg.Decoder.verdict (d : Jpeg.Decoder) : Verdict where
  identified := d.stream.identified
  shortName := Jpeg.Decoder.shortName
  longName := Jpeg.Decoder.longName
  extensions := Jpeg.Decoder.extensions
  log := d.stream.findings.map fun f => (Finding.jpeg f).event

structure Decoders where
  tiff : Tiff.Decoder
  jpeg : Jpeg.Decoder

namespace Decoders

def new (settings : Settings) : Decoders := ⟨.new settings, .new settings false⟩

def inspect (d : Decoders) (source : Source) : Report × Decoders :=
  let tiff := d.tiff.process source
  if tiff.isIdentified then
    (.identified source.name tiff.shortName tiff.verdict.log, { d with tiff })
  else
    let jpeg := d.jpeg.process source
    let report := if jpeg.stream.identified then
        .identified source.name Jpeg.Decoder.shortName jpeg.verdict.log
      else .unidentified source.name
    (report, ⟨tiff, jpeg⟩)

end Decoders
end ImageAudit
