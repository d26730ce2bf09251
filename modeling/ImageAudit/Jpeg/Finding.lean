import ImageAudit.Bytes.Source
import ImageAudit.Diagnostics.Event

/-! What can be wrong with a JPEG stream. Marker names stand in findings as they are shown. -/
namespace ImageAudit.Jpeg

inductive TableClass where
  | dc
  | ac
deriving DecidableEq, Repr

namespace TableClass

def index : TableClass → Nat
  | .dc => 0
  | .ac => 1

def ofIndex? : Nat → Option TableClass
  | 0 => some .dc
  | 1 => some .ac
  | _ => none

def name : TableClass → String
  | .dc => "DC"
  | .ac => "AC"

end TableClass

inductive Finding where
  | cannotReadHeader (cause : ReadError)
  | readingError (cause : ReadError)
  | invalidMarker (name : String) (offset : Nat)
  | invalidMarkerLength (name : String) (offset length : Nat)
  | firstMarkerNotStart (name : String)
  | startNotFirst (offset : Nat)
  | dataAfterEnd (offset fileLength : Nat)
  | unexpectedEnd (offset needed fileLength : Nat)
  | precisionBaseline (precision : Nat)
  | precisionExtended (precision : Nat)
  | precisionProgressive (precision : Nat)
  | precisionLossless (precision : Nat)
  | multipleFrames
  | widthZero
  | noComponents
  | tooManyProgressiveComponents (count : Nat)
  | invalidFrameLength (components expected found : Nat)
  | frameLengthTooSmall (length least : Nat)
  | invalidHorizontalSampling (factor component least most : Nat)
  | invalidVerticalSampling (factor component least most : Nat)
  | invalidQuantizationSelector (component selector most : Nat)
  | duplicateFrameComponent (component : Nat)
  | scanBeforeFrame
  | invalidScanComponentCount (count least most : Nat)
  | invalidScanLength (components expected found : Nat)
  | scanComponentTwice (component : Nat)
  | scanComponentUndefined (component : Nat)
  | invalidSequentialParameters (spectralStart spectralEnd approxHigh approxLow : Nat)
  | invalidHuffmanClass (found most : Nat)
  | invalidHuffmanDestination (found most : Nat)
  | huffmanTableTooShort (needed left : Nat)
  | tooManyHuffmanCodes (count : Nat)
  | invalidHuffmanCodeLengths (length : Nat)
  | invalidQuantizationDestination (found most : Nat)
  | invalidQuantizationPrecision (precision : Nat)
  | quantizationTableTooShort (left needed : Nat)
  | invalidRestartIntervalLength (length : Nat)
  | undefinedHuffmanTable (component : Nat) (tableClass : TableClass) (selector : Nat)
  | invalidHuffmanCode (mcu scan : Nat)
  | coefficientOverflow (mcu scan : Nat)
  | unexpectedRestart (found offset expected : Nat)
  | missingRestart (expected offset : Nat)
  | prematureScanEnd (scan mcu total : Nat)
deriving DecidableEq, Repr

namespace Finding

/-- Data after the end of a stream is suspicious; all else is an error. -/
def severity : Finding → Severity
  | .dataAfterEnd .. => .warning
  | _ => .error

def key : Finding → String
  | .cannotReadHeader _ => "jpeg.error.cannot_read_header"
  | .readingError _ => "jpeg.error.reading_error"
  | .invalidMarker .. => "jpeg.error.invalid_marker"
  | .invalidMarkerLength .. => "jpeg.error.invalid_marker_length"
  | .firstMarkerNotStart _ => "jpeg.error.first_marker_not_soi"
  | .startNotFirst _ => "jpeg.error.soi_first_marker_only"
  | .dataAfterEnd .. => "jpeg.warn.extraneous_data_after_end_of_stream"
  | .unexpectedEnd .. => "jpeg.error.unexpected_end_of_input"
  | .precisionBaseline _ => "jpeg.error.invalid_sample_precision_baseline"
  | .precisionExtended _ => "jpeg.error.invalid_sample_precision_extended"
  | .precisionProgressive _ => "jpeg.error.invalid_sample_precision_progressive"
  | .precisionLossless _ => "jpeg.error.invalid_sample_precision_lossless"
  | .multipleFrames => "jpeg.error.multiple_frames"
  | .widthZero => "jpeg.error.width_zero"
  | .noComponents => "jpeg.error.at_least_one_component"
  | .tooManyProgressiveComponents _ => "jpeg.error.progressive_invalid_number_of_components"
  | .invalidFrameLength .. => "jpeg.error.invalid_frame_length"
  | .frameLengthTooSmall .. => "jpeg.error.frame_length_too_small"
  | .invalidHorizontalSampling .. => "jpeg.error.invalid_horizontal_component_sampling_factor"
  | .invalidVerticalSampling .. => "jpeg.error.invalid_vertical_component_sampling_factor"
  | .invalidQuantizationSelector .. => "jpeg.error.invalid_quantization_table"
  | .duplicateFrameComponent _ => "jpeg.error.duplicate_frame_component"
  | .scanBeforeFrame => "jpeg.error.scan_before_frame"
  | .invalidScanComponentCount .. => "jpeg.error.invalid_number_of_scan_components"
  | .invalidScanLength .. => "jpeg.error.invalid_scan_marker_length"
  | .scanComponentTwice _ => "jpeg.error.scan_component_twice"
  | .scanComponentUndefined _ => "jpeg.error.scan_component_undefined"
  | .invalidSequentialParameters .. => "jpeg.error.invalid_sequential_scan_parameters"
  | .invalidHuffmanClass .. => "jpeg.error.invalid_huffman_table_class"
  | .invalidHuffmanDestination .. => "jpeg.error.invalid_huffman_table_destination"
  | .huffmanTableTooShort .. => "jpeg.error.huffman_table_too_short"
  | .tooManyHuffmanCodes _ => "jpeg.error.too_many_huffman_codes"
  | .invalidHuffmanCodeLengths _ => "jpeg.error.invalid_huffman_code_lengths"
  | .invalidQuantizationDestination .. => "jpeg.error.invalid_quantization_table_destination"
  | .invalidQuantizationPrecision _ => "jpeg.error.invalid_quantization_table_precision"
  | .quantizationTableTooShort .. => "jpeg.error.not_enough_data_for_quantization_table"
  | .invalidRestartIntervalLength _ => "jpeg.error.invalid_restart_interval_length"
  | .undefinedHuffmanTable .. => "jpeg.error.undefined_huffman_table"
  | .invalidHuffmanCode .. => "jpeg.error.invalid_huffman_code"
  | .coefficientOverflow .. => "jpeg.error.ac_coefficient_overflow"
  | .unexpectedRestart .. => "jpeg.error.unexpected_restart_marker"
  | .missingRestart .. => "jpeg.error.missing_restart_marker"
  | .prematureScanEnd .. => "jpeg.error.premature_end_of_scan_data"

def args : Finding → List String
  | .cannotReadHeader e | .readingError e => [e.message]
  | .invalidMarker name offset => [name, toString offset]
  | .invalidMarkerLength name offset length => [name, toString offset, toString length]
  | .firstMarkerNotStart name => [name]
  | .multipleFrames | .widthZero | .noComponents | .scanBeforeFrame => []
  | .startNotFirst n | .precisionBaseline n | .precisionExtended n | .precisionProgressive n
  | .precisionLossless n | .tooManyProgressiveComponents n | .duplicateFrameComponent n
  | .scanComponentTwice n | .scanComponentUndefined n | .tooManyHuffmanCodes n
  | .invalidHuffmanCodeLengths n | .invalidQuantizationPrecision n
  | .invalidRestartIntervalLength n => [toString n]
  | .dataAfterEnd a b | .frameLengthTooSmall a b | .invalidHuffmanClass a b
  | .invalidHuffmanDestination a b | .huffmanTableTooShort a b
  | .invalidQuantizationDestination a b | .quantizationTableTooShort a b
  | .invalidHuffmanCode a b | .coefficientOverflow a b | .missingRestart a b =>
    [toString a, toString b]
  | .unexpectedEnd a b c | .invalidFrameLength a b c | .invalidQuantizationSelector a b c
  | .invalidScanComponentCount a b c | .invalidScanLength a b c | .unexpectedRestart a b c
  | .prematureScanEnd a b c => [toString a, toString b, toString c]
  | .invalidHorizontalSampling a b c d | .invalidVerticalSampling a b c d
  | .invalidSequentialParameters a b c d => [toString a, toString b, toString c, toString d]
  | .undefinedHuffmanTable component tableClass selector =>
    [toString component, tableClass.name, toString selector]

end Finding
end ImageAudit.Jpeg
