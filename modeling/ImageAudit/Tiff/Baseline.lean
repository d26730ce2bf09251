import ImageAudit.Tiff.Directory

/-! The baseline profile. -/
namespace ImageAudit.Tiff.Baseline

def compressions : List Nat := [1, 2, 32773]

/-- Bits per sample that go with a photometric interpretation of the profile: grey in either
direction, RGB and palette. -/
def bitsPerSample? : (photometric : Nat) → Option (List Nat)
  | 0 | 1 => some [1, 4, 8]
  | 2 => some [8]
  | 3 => some [4, 8]
  | _ => none

def tagFindings (d : Directory) : List Finding :=
  (d.fields.filter fun f => !Schema.isBaseline f.tag).map fun f => .baselineTagNotAllowed f.tag

def compressionFindings (d : Directory) : List Finding :=
  let compression := (d.word? Tag.compression).getD 1
  if compressions.contains compression then [] else [.baselineCompression compression]

/-- The bits of each sample; one bit where the field is absent. -/
def bitsOf (d : Directory) : List Nat :=
  match d.find? Tag.bitsPerSample with
  | some f => f.words
  | none => [1]

def photometricFindings (d : Directory) : List Finding :=
  match d.word? Tag.photometricInterpretation with
  | none => [.baselinePhotometric none]
  | some value =>
    match bitsPerSample? value with
    | none => [.baselinePhotometric (some value)]
    | some allowed =>
      match (bitsOf d).find? fun bits => !allowed.contains bits with
      | some bits => [.baselineBitsPerSample bits value]
      | none => []

def check (d : Directory) : List Finding :=
  match tagFindings d ++ compressionFindings d ++ photometricFindings d with
  | [] => [.baseline]
  | findings => findings

end ImageAudit.Tiff.Baseline
