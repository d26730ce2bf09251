import ImageAudit.Diagnostics.Finding
import ImageAudit.Jpeg.Decoder
import ImageAudit.Tiff.Directory

/-! Data of other formats inside a TIFF file: XMP packets and JPEG streams. -/
namespace ImageAudit.Tiff.EmbeddedData

/-- A packet is checked if each of its values is a byte. -/
def packetFindings (d : Directory) : List Xmp.Finding :=
  match d.find? Tag.xmp with
  | some f => if f.raw.size = f.count then Xmp.check f.raw.data.toList else []
  | none => []

/-- A stream is checked inside the window that the directory gives for it. -/
def streamFindings (settings : Settings) (source : Source) (d : Directory) :
    List ImageAudit.Finding :=
  match d.word? Tag.embeddedOffset, d.word? Tag.embeddedLength with
  | some offset, some length =>
    if source.hasSection offset length then
      let decoder := Jpeg.Decoder.new settings true
      (decoder.process (source.window offset length)).stream.findings.map .jpeg
    else [.tiff (.embeddedStreamOutsideFile offset length)]
  | _, _ => []

def check (settings : Settings) (source : Source) (d : Directory) : List ImageAudit.Finding :=
  (packetFindings d).map .xmp ++ streamFindings settings source d

end ImageAudit.Tiff.EmbeddedData
