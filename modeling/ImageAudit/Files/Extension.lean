import ImageAudit.Files.Path
import ImageAudit.Inspection.Decoders

/-! File name extensions that the supported formats use. -/
namespace ImageAudit.Extension

def known : List String :=
  (Tiff.Decoder.extensions ++ Jpeg.Decoder.extensions).mergeSort fun a b => decide (a ≤ b)

def isKnown (path : String) : Bool :=
  match Path.extension? path with
  | none => false
  | some extension => known.contains (extension.map Char.toLower)

end ImageAudit.Extension
