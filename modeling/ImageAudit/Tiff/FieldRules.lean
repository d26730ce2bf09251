import ImageAudit.Calendar.Moment
import ImageAudit.Tiff.Directory

/-! Rules for a single field: allowed type, values, count, characters and moments. A field of
unknown type or of a type that its tag does not allow is not looked at further. -/
namespace ImageAudit.Tiff.FieldRules

def valueFindings (r : Rule) : Value → List Finding
  | .integer v =>
    (match r.minValue with
      | some least => if v < least then [.valueTooSmall r.tag r.name v least] else []
      | none => []) ++
    (match r.maxValue with
      | some most => if most < v then [.valueTooLarge r.tag r.name v most] else []
      | none => [])
  | _ => []

def countFindings (r : Rule) (count : Nat) : List Finding :=
  (if count < r.minCount then [.tooFewValues r.tag r.name count r.minCount] else []) ++
  (if r.maxCount < count then [.tooManyValues r.tag r.name count r.maxCount] else [])

/-- All bytes but the last must be ASCII and the last must be zero. -/
def characterFindings (f : Field) : List Finding :=
  let bytes := f.raw.data.toList
  match bytes.getLast? with
  | none => []
  | some last =>
    let foreign := bytes.dropLast.countP (128 ≤ ·)
    (if foreign > 0 then [.nonAsciiCharacters f.tag f.name foreign] else []) ++
    (if last != 0 then [.notZeroTerminated f.tag f.name] else [])

/-- A moment must be spelled in full; fields without data are left alone. -/
def momentFindings (f : Field) : List Finding :=
  if f.raw.isEmpty then []
  else if (Calendar.Moment.parse f.text).isSome then []
  else [.invalidDateTime f.tag f.name f.text]

def textFindings (f : Field) : List Finding :=
  characterFindings f ++ (if Tag.moments.contains f.tag then momentFindings f else [])

def check (f : Field) : List Finding :=
  match f.fieldType? with
  | none => []
  | some t =>
    let text := if t == .ascii then textFindings f else []
    match Schema.rule? f.tag with
    | none => text
    | some r =>
      if r.allows t then f.values.flatMap (valueFindings r) ++ countFindings r f.count ++ text
      else [.incorrectFieldType f.tag r.name t.name r.typeNames]

def orderFindings (previous : Option Nat) (tag : Nat) : List Finding :=
  match previous with
  | some p => if tag ≤ p then [.entriesOrder tag p] else []
  | none => []

end ImageAudit.Tiff.FieldRules
