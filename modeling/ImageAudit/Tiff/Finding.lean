import ImageAudit.Bytes.Source
import ImageAudit.Diagnostics.Event

/-! What can be wrong with a TIFF file. Directories of the main chain are named by their index,
others by the index of the main directory above them. -/
namespace ImageAudit.Tiff

inductive Finding where
  | cannotReadHeader (cause : ReadError)
  | invalidByteOrder (signature : String)
  | invalidVersion (version : Nat)
  | invalidOffsetSize (size : Nat)
  | invalidOffsetZero (found : Nat)
  | invalidFileOffset (offset fileLength : Nat)
  | readingError (cause : ReadError)
  | directoryRepeated (offset : Nat)
  | tooFewTags (offset count least : Nat)
  | nestingTooDeep (offset most : Nat)
  | unknownFieldType (tag typeId : Nat)
  | invalidFieldWindow (tag offset : Nat) (size : String) (fileLength : Nat)
  | fieldDataTooLarge (tag size most : Nat)
  | budgetExhausted (tag size remaining limit : Nat)
  | oddFieldOffset (tag offset : Nat)
  | oddDirectoryOffset (offset : Nat)
  | denominatorZero (tag : Nat) (numerator : Int)
  | incorrectFieldType (tag : Nat) (name found allowed : String)
  | valueTooSmall (tag : Nat) (name : String) (value least : Int)
  | valueTooLarge (tag : Nat) (name : String) (value most : Int)
  | tooFewValues (tag : Nat) (name : String) (count least : Nat)
  | tooManyValues (tag : Nat) (name : String) (count most : Nat)
  | nonAsciiCharacters (tag : Nat) (name : String) (count : Nat)
  | notZeroTerminated (tag : Nat) (name : String)
  | invalidDateTime (tag : Nat) (name value : String)
  | entriesOrder (tag previous : Nat)
  | missingMandatory (directory tag : Nat) (name : String)
  | noStripsOrTiles (directory : Nat)
  | someTileFieldsMissing (directory : Nat)
  | stripAndTileFields (directory : Nat)
  | onlySomeStripFields (directory : Nat)
  | stripCountsDiffer (directory offsets byteCounts : Nat)
  | unexpectedStripCount (directory found expected : Nat)
  | tileWidthNotMultiple (directory width : Nat)
  | tileLengthNotMultiple (directory length : Nat)
  | tileCountsDiffer (directory offsets byteCounts : Nat)
  | unexpectedTileCount (directory found expected : Nat)
  | blockOutsideFile (directory block offset size : Nat)
  | unexpectedSampleCount (directory declared expected : Nat)
  | embeddedStreamOutsideFile (offset length : Nat)
  | baseline
  | baselineTagNotAllowed (tag : Nat)
  | baselineCompression (value : Nat)
  | baselinePhotometric (value : Option Nat)
  | baselineBitsPerSample (bits photometric : Nat)
deriving DecidableEq, Repr

namespace Finding

/-- Odd offsets are suspicious, baseline conformance is good news, all else is an error. -/
def severity : Finding → Severity
  | .oddFieldOffset .. | .oddDirectoryOffset _ => .warning
  | .baseline => .info
  | _ => .error

def key : Finding → String
  | .cannotReadHeader _ => "tiff.error.cannot_read_global_header"
  | .invalidByteOrder _ => "tiff.error.invalid_byte_order"
  | .invalidVersion _ => "tiff.error.invalid_version"
  | .invalidOffsetSize _ => "tiff.error.invalid_big_tiff_offset_size"
  | .invalidOffsetZero _ => "tiff.error.invalid_big_tiff_offset_zero"
  | .invalidFileOffset .. => "tiff.error.invalid_file_offset"
  | .readingError _ => "tiff.error.reading_error"
  | .directoryRepeated _ => "tiff.error.image_file_directory_repeated"
  | .tooFewTags .. => "tiff.error.too_few_tags"
  | .nestingTooDeep .. => "tiff.error.image_file_directory_nesting_too_deep"
  | .unknownFieldType .. => "tiff.error.unknown_field_type"
  | .invalidFieldWindow .. => "tiff.error.invalid_field_offset_and_size"
  | .fieldDataTooLarge .. => "tiff.error.field_data_too_large"
  | .budgetExhausted .. => "tiff.error.field_data_budget_exhausted"
  | .oddFieldOffset .. => "tiff.warn.odd_field_offset"
  | .oddDirectoryOffset _ => "tiff.warn.odd_image_file_directory_offset"
  | .denominatorZero .. => "tiff.error.denominator_zero"
  | .incorrectFieldType .. => "tiff.error.incorrect_field_type"
  | .valueTooSmall .. => "tiff.error.value_smaller_than_minimum"
  | .valueTooLarge .. => "tiff.error.value_larger_than_maximum"
  | .tooFewValues .. => "tiff.error.field_has_too_few_values"
  | .tooManyValues .. => "tiff.error.field_has_too_many_values"
  | .nonAsciiCharacters .. => "tiff.error.non_ascii_characters"
  | .notZeroTerminated .. => "tiff.error.characters_not_zero_terminated"
  | .invalidDateTime .. => "tiff.error.invalid_date_time"
  | .entriesOrder .. => "tiff.error.image_file_directory_entries_order"
  | .missingMandatory .. => "tiff.error.missing_mandatory_field"
  | .noStripsOrTiles _ => "tiff.error.no_strip_or_tile_fields"
  | .someTileFieldsMissing _ => "tiff.error.some_tile_fields_missing"
  | .stripAndTileFields _ => "tiff.error.strip_and_tile_fields"
  | .onlySomeStripFields _ => "tiff.error.only_some_strip_fields"
  | .stripCountsDiffer .. => "tiff.error.number_of_strip_offsets_and_byte_counts_differ"
  | .unexpectedStripCount .. => "tiff.error.unexpected_number_of_strips"
  | .tileWidthNotMultiple .. => "tiff.error.tile_width_not_multiple_of_16"
  | .tileLengthNotMultiple .. => "tiff.error.tile_length_not_multiple_of_16"
  | .tileCountsDiffer .. => "tiff.error.number_of_tile_offsets_and_byte_counts_differ"
  | .unexpectedTileCount .. => "tiff.error.unexpected_number_of_tiles"
  | .blockOutsideFile .. => "tiff.error.image_data_offset_and_size"
  | .unexpectedSampleCount .. => "tiff.error.unexpected_number_of_samples"
  | .embeddedStreamOutsideFile .. => "tiff.error.jpeg_interchange_format_offset_and_size"
  | .baseline => "tiff.info.baseline"
  | .baselineTagNotAllowed _ => "tiff.error.baseline.tag_not_allowed"
  | .baselineCompression _ => "tiff.error.baseline.compression"
  | .baselinePhotometric _ => "tiff.error.baseline.photometric_interpretation"
  | .baselineBitsPerSample .. => "tiff.error.baseline.bits_per_sample"

def args : Finding → List String
  | .cannotReadHeader e | .readingError e => [e.message]
  | .invalidByteOrder signature => [signature]
  | .baseline => []
  | .invalidVersion n | .invalidOffsetSize n | .invalidOffsetZero n | .directoryRepeated n
  | .oddDirectoryOffset n | .noStripsOrTiles n | .someTileFieldsMissing n
  | .stripAndTileFields n | .onlySomeStripFields n | .baselineTagNotAllowed n
  | .baselineCompression n => [toString n]
  | .invalidFileOffset a b | .nestingTooDeep a b | .unknownFieldType a b | .oddFieldOffset a b
  | .entriesOrder a b | .tileWidthNotMultiple a b | .tileLengthNotMultiple a b
  | .embeddedStreamOutsideFile a b | .baselineBitsPerSample a b => [toString a, toString b]
  | .tooFewTags a b c | .fieldDataTooLarge a b c | .stripCountsDiffer a b c
  | .unexpectedStripCount a b c | .tileCountsDiffer a b c | .unexpectedTileCount a b c
  | .unexpectedSampleCount a b c => [toString a, toString b, toString c]
  | .budgetExhausted a b c d | .blockOutsideFile a b c d =>
    [toString a, toString b, toString c, toString d]
  | .invalidFieldWindow tag offset size length =>
    [toString tag, toString offset, size, toString length]
  | .denominatorZero tag numerator => [toString tag, toString numerator]
  | .incorrectFieldType tag name found allowed => [toString tag, name, found, allowed]
  | .valueTooSmall tag name value bound | .valueTooLarge tag name value bound =>
    [toString tag, name, toString value, toString bound]
  | .tooFewValues tag name count bound | .tooManyValues tag name count bound =>
    [toString tag, name, toString count, toString bound]
  | .nonAsciiCharacters tag name count => [toString tag, name, toString count]
  | .notZeroTerminated tag name => [toString tag, name]
  | .invalidDateTime tag name value => [toString tag, name, value]
  | .missingMandatory directory tag name => [toString directory, toString tag, name]
  | .baselinePhotometric none => ["none"]
  | .baselinePhotometric (some value) => [toString value]

end Finding
end ImageAudit.Tiff
