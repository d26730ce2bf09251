/-! Tags that rules name. -/
namespace ImageAudit.Tiff.Tag

def imageWidth : Nat := 256
def imageLength : Nat := 257
def bitsPerSample : Nat := 258
def compression : Nat := 259
def photometricInterpretation : Nat := 262
def stripOffsets : Nat := 273
def samplesPerPixel : Nat := 277
def rowsPerStrip : Nat := 278
def stripByteCounts : Nat := 279
def planarConfiguration : Nat := 284
def dateTime : Nat := 306
def tileWidth : Nat := 322
def tileLength : Nat := 323
def tileOffsets : Nat := 324
def tileByteCounts : Nat := 325
def subDirectories : Nat := 330
def extraSamples : Nat := 338
def embeddedOffset : Nat := 513
def embeddedLength : Nat := 514
def xmp : Nat := 700
def gpsDirectory : Nat := 34853
def dateTimeOriginal : Nat := 36867
def dateTimeDigitized : Nat := 36868
def dngVersion : Nat := 50706
def cr2Slices : Nat := 50752

def moments : List Nat := [dateTime, dateTimeOriginal, dateTimeDigitized]

end ImageAudit.Tiff.Tag
