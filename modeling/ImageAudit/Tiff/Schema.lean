import ImageAudit.Tiff.FieldType

/-! What the fields of known tags may hold. Fields of other tags are free. -/
namespace ImageAudit.Tiff

structure Rule where
  tag : Nat
  name : String
  /-- Allowed types. -/
  types : List FieldType
  minValue : Option Int := none
  maxValue : Option Int := none
  minCount : Nat := 1
  /-- The largest count; `maxWord` is no bound. -/
  maxCount : Nat := 1
  defaultValue : Option Int := none
  /-- Whether every directory of the main chain must have it. -/
  mandatory : Bool := false
  /-- Whether it belongs to the baseline profile. -/
  baseline : Bool := false
deriving DecidableEq, Repr

namespace Rule

def allows (r : Rule) (t : FieldType) : Bool := r.types.contains t

def typeNames (r : Rule) : String := "|".intercalate (r.types.map FieldType.name)

end Rule

namespace Schema

def rules : List Rule := [
    { tag := 254, name := "NewSubfileType", types := [.long], minValue := some 0,
      defaultValue := some 0, baseline := true },
    { tag := 255, name := "SubfileType", types := [.short], minValue := some 1,
      maxValue := some 3, baseline := true },
    { tag := 256, name := "ImageWidth", types := [.short, .long], minValue := some 1,
      mandatory := true, baseline := true },
    { tag := 257, name := "ImageLength", types := [.short, .long], minValue := some 1,
      mandatory := true, baseline := true },
    { tag := 258, name := "BitsPerSample", types := [.short], minValue := some 1,
      maxCount := maxWord, defaultValue := some 1, baseline := true },
    { tag := 259, name := "Compression", types := [.short], minValue := some 1, defaultValue := some 1,
      baseline := true },
    { tag := 262, name := "PhotometricInterpretation", types := [.short], minValue := some 0,
      mandatory := true, baseline := true },
    { tag := 263, name := "Threshholding", types := [.short], minValue := some 1,
      maxValue := some 3, defaultValue := some 1, baseline := true },
    { tag := 264, name := "CellWidth", types := [.short], baseline := true },
    { tag := 265, name := "CellLength", types := [.short], baseline := true },
    { tag := 266, name := "FillOrder", types := [.short], minValue := some 1, maxValue := some 2,
      defaultValue := some 1, baseline := true },
    { tag := 270, name := "ImageDescription", types := [.ascii], maxCount := maxWord,
      baseline := true },
    { tag := 271, name := "Make", types := [.ascii], maxCount := maxWord, baseline := true },
    { tag := 272, name := "Model", types := [.ascii], maxCount := maxWord, baseline := true },
    { tag := 273, name := "StripOffsets", types := [.short, .long, .long8], minValue := some 8,
      maxCount := maxWord, baseline := true },
    { tag := 274, name := "Orientation", types := [.short], minValue := some 1,
      maxValue := some 8, defaultValue := some 1, baseline := true },
    { tag := 277, name := "SamplesPerPixel", types := [.short], minValue := some 1,
      defaultValue := some 1, baseline := true },
    { tag := 278, name := "RowsPerStrip", types := [.short, .long, .long8], minValue := some 1,
      defaultValue := some 4294967295, baseline := true },
    { tag := 279, name := "StripByteCounts", types := [.short, .long, .long8], minValue := some 1,
      maxCount := maxWord, baseline := true },
    { tag := 280, name := "MinSampleValue", types := [.short], maxCount := maxWord,
      baseline := true },
    { tag := 281, name := "MaxSampleValue", types := [.short], maxCount := maxWord,
      baseline := true },
    { tag := 282, name := "XResolution", types := [.rational], baseline := true },
    { tag := 283, name := "YResolution", types := [.rational], baseline := true },
    { tag := 284, name := "PlanarConfiguration", types := [.short], minValue := some 1,
      maxValue := some 2, defaultValue := some 1, baseline := true },
    { tag := 288, name := "FreeOffsets", types := [.long], maxCount := maxWord, baseline := true },
    { tag := 289, name := "FreeByteCounts", types := [.long], maxCount := maxWord,
      baseline := true },
    { tag := 290, name := "GrayResponseUnit", types := [.short], minValue := some 1,
      maxValue := some 5, defaultValue := some 2, baseline := true },
    { tag := 291, name := "GrayResponseCurve", types := [.short], maxCount := maxWord,
      baseline := true },
    { tag := 296, name := "ResolutionUnit", types := [.short], minValue := some 1,
      maxValue := some 3, defaultValue := some 2, baseline := true },
    { tag := 305, name := "Software", types := [.ascii], maxCount := maxWord, baseline := true },
    { tag := 306, name := "DateTime", types := [.ascii], minCount := 20, maxCount := 20,
      baseline := true },
    { tag := 315, name := "Artist", types := [.ascii], maxCount := maxWord, baseline := true },
    { tag := 316, name := "HostComputer", types := [.ascii], maxCount := maxWord,
      baseline := true },
    { tag := 317, name := "Predictor", types := [.short], minValue := some 1, maxValue := some 3,
      defaultValue := some 1 },
    { tag := 320, name := "ColorMap", types := [.short], minCount := 3, maxCount := maxWord,
      baseline := true },
    { tag := 322, name := "TileWidth", types := [.short, .long], minValue := some 16 },
    { tag := 323, name := "TileLength", types := [.short, .long], minValue := some 16 },
    { tag := 324, name := "TileOffsets", types := [.long, .long8], minValue := some 8,
      maxCount := maxWord },
    { tag := 325, name := "TileByteCounts", types := [.short, .long, .long8], minValue := some 1,
      maxCount := maxWord },
    { tag := 330, name := "SubIfds", types := [.long, .ifd, .long8, .ifd8], minValue := some 8,
      maxCount := maxWord },
    { tag := 338, name := "ExtraSamples", types := [.short], minValue := some 0,
      maxValue := some 2, minCount := 0, maxCount := maxWord, baseline := true },
    { tag := 339, name := "SampleFormat", types := [.short], minValue := some 1,
      maxValue := some 4, maxCount := maxWord, defaultValue := some 1 },
    { tag := 347, name := "JpegTables", types := [.undefined], maxCount := maxWord },
    { tag := 513, name := "JpegInterchangeFormat", types := [.long], minValue := some 8 },
    { tag := 514, name := "JpegInterchangeFormatLength", types := [.long] },
    { tag := 530, name := "YCbCrSubSampling", types := [.short], minValue := some 1,
      maxValue := some 4, minCount := 2, maxCount := 2 },
    { tag := 700, name := "Xmp", types := [.byte, .undefined], minCount := 0,
      maxCount := maxWord },
    { tag := 33432, name := "Copyright", types := [.ascii], maxCount := maxWord,
      baseline := true },
    { tag := 34665, name := "ExifIfd", types := [.long, .ifd, .long8, .ifd8], minValue := some 8 },
    { tag := 34853, name := "GpsIfd", types := [.long, .ifd, .long8, .ifd8], minValue := some 8 },
    { tag := 36867, name := "DateTimeOriginal", types := [.ascii], minCount := 20,
      maxCount := 20 },
    { tag := 36868, name := "DateTimeDigitized", types := [.ascii], minCount := 20,
      maxCount := 20 },
    { tag := 50706, name := "DngVersion", types := [.byte], minCount := 4, maxCount := 4 },
    { tag := 50707, name := "DngBackwardVersion", types := [.byte], minCount := 4, maxCount := 4 },
    { tag := 50708, name := "UniqueCameraModel", types := [.ascii], maxCount := maxWord },
    { tag := 50719, name := "DefaultCropOrigin", types := [.short, .long, .rational],
      minCount := 2, maxCount := 2 },
    { tag := 50720, name := "DefaultCropSize", types := [.short, .long, .rational], minCount := 2,
      maxCount := 2 },
    { tag := 50752, name := "Cr2SliceInformation", types := [.short], minCount := 3,
      maxCount := 3 },
    { tag := 50829, name := "ActiveArea", types := [.short, .long], minCount := 4, maxCount := 4 }]

def rule? (tag : Nat) : Option Rule := rules.find? (·.tag == tag)

def isBaseline (tag : Nat) : Bool := (rule? tag).any Rule.baseline

def mandatory : List Rule := rules.filter Rule.mandatory

/-- The name of a tag, which for an unknown one shows its number. -/
def tagName (tag : Nat) : String :=
  match rule? tag with
  | some r => r.name
  | none => "Tag" ++ toString tag

end Schema
end ImageAudit.Tiff
