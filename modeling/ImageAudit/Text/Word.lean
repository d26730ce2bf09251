import ImageAudit.Bytes.Arithmetic

/-! Decimal numbers of 64 bits in text. -/
namespace ImageAudit.Word

def ofDigits (digits : List Char) : Nat :=
  digits.foldl (fun acc c => acc * 10 + (c.toNat - '0'.toNat)) 0

/-- A number of at most 64 bits, with an optional plus sign and any number of leading zeros. -/
def ofText? (text : List Char) : Option Nat :=
  let digits := match text with
    | '+' :: rest => rest
    | _ => text
  if !digits.isEmpty && digits.all Char.isDigit && ofDigits digits ≤ maxWord then
    some (ofDigits digits)
  else none

end ImageAudit.Word
