import ImageAudit.Bytes.Hex

/-! JSON text without blanks. -/
namespace ImageAudit.Json

/-- A character inside quotes. Quotes, backslashes and control characters are escaped. -/
def escape (c : Char) : List Char :=
  match c with
  | '"' => ['\\', '"']
  | '\\' => ['\\', '\\']
  | '\n' => ['\\', 'n']
  | '\r' => ['\\', 'r']
  | '\t' => ['\\', 't']
  | '\x08' => ['\\', 'b']
  | '\x0c' => ['\\', 'f']
  | _ =>
    if c.toNat < 32 then '\\' :: 'u' :: (Hex.pad 4 c.toNat).map Char.toLower else [c]

def quote (text : String) : String :=
  String.ofList ('"' :: (text.toList.flatMap escape ++ ['"']))

def array (items : List String) : String := "[" ++ ",".intercalate items ++ "]"

def object (members : List (String × String)) : String :=
  "\x7b" ++ ",".intercalate (members.map fun (key, value) => quote key ++ ":" ++ value) ++ "\x7d"

end ImageAudit.Json
