import ImageAudit.Message.Template

/-! Message texts by key. A key without a template is shown together with its arguments, so a
missing template hides nothing. -/
namespace ImageAudit

structure Catalog where
  entries : List (String × String)

namespace Catalog

def template? (catalog : Catalog) (key : String) : Option String := catalog.entries.lookup key

def has (catalog : Catalog) (key : String) : Bool := (catalog.template? key).isSome

def text (catalog : Catalog) (key : String) (args : List String) : String :=
  match catalog.template? key with
  | some template => Template.render template args
  | none => args.foldl (fun out arg => out ++ " " ++ arg) key

def english : Catalog where
  entries := [
    ("processor.result.ok", "OK"),
    ("processor.result.warn", "Warning"),
    ("processor.result.error", "Error"),
    ("tiff.error.cannot_read_global_header", "Cannot read TIFF header: {0}."),
    ("tiff.error.invalid_byte_order", "Invalid byte order signature {0}; expected II or MM."),
    ("tiff.error.invalid_version", "Invalid TIFF version {0}; expected 42 or 43."),
    ("tiff.error.invalid_big_tiff_offset_size", "Invalid BigTIFF offset size {0}; expected 8."),
    ("tiff.error.invalid_big_tiff_offset_zero",
      "BigTIFF header field after the offset size must be 0, found {0}."),
    ("tiff.error.invalid_file_offset",
      "Image file directory offset {0} lies outside of the file (length {1})."),
    ("tiff.error.reading_error", "Read error: {0}."),
    ("tiff.error.image_file_directory_repeated",
      "Image file directory offset {0} was already visited."),
    ("tiff.error.too_few_tags",
      "Image file directory at offset {0} has {1} tags; at least {2} required."),
    ("tiff.error.image_file_directory_nesting_too_deep",
      "Image file directory at offset {0} is nested more than {1} levels deep."),
    ("tiff.error.unknown_field_type", "Tag {0} has unknown field type {1}."),
    ("tiff.error.invalid_field_offset_and_size",
      "Data of tag {0} at offset {1} with {2} bytes lies outside of the file (length {3})."),
    ("tiff.error.field_data_too_large",
      "Tag {0} needs {1} bytes once decoded; at most {2} are allowed per field."),
    ("tiff.error.field_data_budget_exhausted",
      "Tag {0} needs {1} bytes once decoded; only {2} of the {3} bytes allowed per file remain."),
    ("tiff.warn.odd_field_offset", "Data of tag {0} starts at odd offset {1}."),
    ("tiff.warn.odd_image_file_directory_offset", "Image file directory starts at odd offset {0}."),
    ("tiff.error.denominator_zero", "Tag {0} has rational value {1}/0."),
    ("tiff.error.incorrect_field_type", "Tag {0} ({1}) has field type {2}; allowed: {3}."),
    ("tiff.error.value_smaller_than_minimum",
      "Tag {0} ({1}) value {2} is smaller than minimum {3}."),
    ("tiff.error.value_larger_than_maximum", "Tag {0} ({1}) value {2} is larger than maximum {3}."),
    ("tiff.error.field_has_too_few_values", "Tag {0} ({1}) has {2} values; at least {3} required."),
    ("tiff.error.field_has_too_many_values", "Tag {0} ({1}) has {2} values; at most {3} allowed."),
    ("tiff.error.non_ascii_characters", "Tag {0} ({1}) contains {2} non-ASCII characters."),
    ("tiff.error.characters_not_zero_terminated", "Tag {0} ({1}) is not terminated by a zero byte."),
    ("tiff.error.invalid_date_time", "Tag {0} ({1}) value \"{2}\" is not a valid date and time."),
    ("tiff.error.image_file_directory_entries_order",
      "Tag {0} follows tag {1}; tags must be sorted in ascending order."),
    ("tiff.error.missing_mandatory_field",
      "Image file directory {0} lacks mandatory tag {1} ({2})."),
    ("tiff.error.no_strip_or_tile_fields",
      "Image file directory {0} has neither strip nor tile fields."),
    ("tiff.error.some_tile_fields_missing",
      "Image file directory {0} has only some of the tile fields."),
    ("tiff.error.strip_and_tile_fields", "Image file directory {0} has both strip and tile fields."),
    ("tiff.error.only_some_strip_fields",
      "Image file directory {0} has only some of the strip fields."),
    ("tiff.error.number_of_strip_offsets_and_byte_counts_differ",
      "Image file directory {0} has {1} strip offsets but {2} strip byte counts."),
    ("tiff.error.unexpected_number_of_strips",
      "Image file directory {0} has {1} strips; {2} expected."),
    ("tiff.error.tile_width_not_multiple_of_16",
      "Image file directory {0} tile width {1} is not a multiple of 16."),
    ("tiff.error.tile_length_not_multiple_of_16",
      "Image file directory {0} tile length {1} is not a multiple of 16."),
    ("tiff.error.number_of_tile_offsets_and_byte_counts_differ",
      "Image file directory {0} has {1} tile offsets but {2} tile byte counts."),
    ("tiff.error.unexpected_number_of_tiles",
      "Image file directory {0} has {1} tiles; {2} expected."),
    ("tiff.error.image_data_offset_and_size",
      "Image data block {1} of directory {0} at offset {2} with {3} bytes lies outside of the file."),
    ("tiff.error.unexpected_number_of_samples",
      "Image file directory {0} declares {1} samples per pixel; {2} expected."),
    ("tiff.error.jpeg_interchange_format_offset_and_size",
      "Embedded JPEG at offset {0} with {1} bytes lies outside of the file."),
    ("tiff.info.baseline", "First image file directory conforms to the TIFF baseline profile."),
    ("tiff.error.baseline.tag_not_allowed", "Tag {0} is not part of the TIFF baseline profile."),
    ("tiff.error.baseline.compression", "Compression {0} is not allowed in baseline TIFF."),
    ("tiff.error.baseline.photometric_interpretation",
      "Photometric interpretation {0} is not allowed in baseline TIFF."),
    ("tiff.error.baseline.bits_per_sample",
      "Bits per sample {0} is not allowed with photometric interpretation {1} in baseline TIFF."),
    ("xmp.error.unable_to_find_xpacket", "XMP data does not contain an xpacket header."),
    ("xmp.warn.missing_xpacket_end", "XMP packet has no xpacket trailer."),
    ("jpeg.error.cannot_read_header", "Cannot read JPEG header: {0}."),
    ("jpeg.error.reading_error", "Read error: {0}."),
    ("jpeg.error.invalid_marker", "Invalid marker {0} at offset {1}."),
    ("jpeg.error.invalid_marker_length", "Marker {0} at offset {1} has invalid length {2}."),
    ("jpeg.error.first_marker_not_soi", "First marker is {0}; expected start of image."),
    ("jpeg.error.soi_first_marker_only",
      "Start of image marker at offset {0}; it is only allowed as first marker."),
    ("jpeg.warn.extraneous_data_after_end_of_stream",
      "End of image at offset {0} is followed by data; file length is {1}."),
    ("jpeg.error.unexpected_end_of_input",
      "Unexpected end of input: {1} bytes needed at offset {0}; file length is {2}."),
    ("jpeg.error.invalid_sample_precision_baseline",
      "Baseline frame sample precision {0}; must be 8."),
    ("jpeg.error.invalid_sample_precision_extended",
      "Extended frame sample precision {0}; must be 8 or 12."),
    ("jpeg.error.invalid_sample_precision_progressive",
      "Progressive frame sample precision {0}; must be 8 or 12."),
    ("jpeg.error.invalid_sample_precision_lossless",
      "Lossless frame sample precision {0}; must be 2 to 16."),
    ("jpeg.error.multiple_frames", "More than one start of frame marker."),
    ("jpeg.error.width_zero", "Frame width is zero."),
    ("jpeg.error.at_least_one_component", "Frame must have at least one component."),
    ("jpeg.error.progressive_invalid_number_of_components",
      "Progressive frame has {0} components; at most 4 allowed."),
    ("jpeg.error.invalid_frame_length",
      "Frame with {0} components must have length {1}, found {2}."),
    ("jpeg.error.frame_length_too_small", "Frame length {0} is smaller than minimum {1}."),
    ("jpeg.error.invalid_horizontal_component_sampling_factor",
      "Horizontal sampling factor {0} of component {1} not in {2}..{3}."),
    ("jpeg.error.invalid_vertical_component_sampling_factor",
      "Vertical sampling factor {0} of component {1} not in {2}..{3}."),
    ("jpeg.error.invalid_quantization_table",
      "Component {0} references quantization table {1}; maximum is {2}."),
    ("jpeg.error.duplicate_frame_component", "Frame component {0} is defined more than once."),
    ("jpeg.error.scan_before_frame", "Start of scan before start of frame."),
    ("jpeg.error.invalid_number_of_scan_components", "Scan has {0} components; must be {1} to {2}."),
    ("jpeg.error.invalid_scan_marker_length",
      "Scan with {0} components must have length {1}, found {2}."),
    ("jpeg.error.scan_component_twice", "Scan component {0} is listed more than once."),
    ("jpeg.error.scan_component_undefined", "Scan component {0} is not defined in the frame."),
    ("jpeg.error.invalid_sequential_scan_parameters",
      "Sequential scan has spectral selection {0}..{1} and approximation {2}/{3}; expected 0..63 and 0/0."),
    ("jpeg.error.invalid_huffman_table_class", "Huffman table class {0}; maximum is {1}."),
    ("jpeg.error.invalid_huffman_table_destination",
      "Huffman table destination {0}; maximum is {1}."),
    ("jpeg.error.huffman_table_too_short",
      "Huffman table definition needs {0} bytes; only {1} left."),
    ("jpeg.error.too_many_huffman_codes", "Huffman table declares {0} codes; at most 256 allowed."),
    ("jpeg.error.invalid_huffman_code_lengths", "Huffman code lengths overflow at length {0}."),
    ("jpeg.error.invalid_quantization_table_destination",
      "Quantization table destination {0}; maximum is {1}."),
    ("jpeg.error.invalid_quantization_table_precision",
      "Quantization table precision {0}; must be 0 or 1."),
    ("jpeg.error.not_enough_data_for_quantization_table",
      "Quantization table needs {1} bytes; only {0} left."),
    ("jpeg.error.invalid_restart_interval_length", "Restart interval marker length {0}; must be 4."),
    ("jpeg.error.undefined_huffman_table",
      "Scan component {0} references undefined {1} Huffman table {2}."),
    ("jpeg.error.invalid_huffman_code", "Invalid Huffman code in MCU {0} of scan {1}."),
    ("jpeg.error.ac_coefficient_overflow",
      "AC coefficients exceed block size in MCU {0} of scan {1}."),
    ("jpeg.error.unexpected_restart_marker",
      "Restart marker RST{0} at offset {1}; expected RST{2}."),
    ("jpeg.error.missing_restart_marker", "Restart marker RST{0} expected at offset {1}."),
    ("jpeg.error.premature_end_of_scan_data", "Scan {0} data ends after {1} of {2} MCUs.")]

end Catalog
end ImageAudit
