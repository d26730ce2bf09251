import ImageAudit.Files.Tree
import ImageAudit.Main
import ImageAudit.Proofs.Jpeg.SequentialScan
import ImageAudit.Proofs.Jpeg.MarkerRoundTrip
import ImageAudit.Proofs.Tiff.Verdict
import ImageAudit.Proofs.Tiff.CycleGuard
import ImageAudit.Proofs.Tiff.Conservation
import ImageAudit.Proofs.Tiff.OrderTransparency
import ImageAudit.Proofs.Checked.Inspection
import ImageAudit.Proofs.Jpeg.TrailingData
import ImageAudit.Proofs.Tiff.EmbeddedStream
import ImageAudit.Proofs.Inspection.Pool
import ImageAudit.Proofs.Jpeg.NumericFindings
import ImageAudit.Proofs.Text.Tidy
import ImageAudit.Proofs.Tiff.PlainFindings
import ImageAudit.Proofs.Traced.Tiff
import ImageAudit.Proofs.Traced.Jpeg
import ImageAudit.Proofs.Inspection.ReadFailures
import ImageAudit.Proofs.Tiff.Flavour
import ImageAudit.Proofs.Inspection.TidyFindings
import ImageAudit.Proofs.Inspection.ResultLine
import ImageAudit.Proofs.Jpeg.FilledStream
import ImageAudit.Proofs.Jpeg.Huffman.CanonicalCode
import ImageAudit.Proofs.Jpeg.SymbolDecoding
import ImageAudit.Proofs.Tiff.FieldRoundTrip
import ImageAudit.Proofs.Tiff.SpareBudget
import ImageAudit.Proofs.Jpeg.ScanEnd
import ImageAudit.Proofs.Jpeg.BitQueue
import ImageAudit.Proofs.Jpeg.QuantizationSegment
import ImageAudit.Proofs.Jpeg.HuffmanSegment
import ImageAudit.Proofs.Jpeg.UnitGrid
import ImageAudit.Proofs.Jpeg.FrameHeader
import ImageAudit.Proofs.Tiff.ImageBlocks
import ImageAudit.Proofs.Tiff.BaselineProfile
import ImageAudit.Proofs.Message.Substitution
import ImageAudit.Proofs.Calendar.StrictReading
import ImageAudit.Proofs.Bytes.CursorLaws
