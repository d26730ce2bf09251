/-! Upper-case hexadecimal digits. -/
namespace ImageAudit.Hex

def digit (n : Nat) : Char := "0123456789ABCDEF".toList.getD n '0'

def pad : (width n : Nat) → List Char
  | 0, _ => []
  | width + 1, n => pad width (n / 16) ++ [digit (n % 16)]

def text (width n : Nat) : String := String.ofList (pad width n)

end ImageAudit.Hex
