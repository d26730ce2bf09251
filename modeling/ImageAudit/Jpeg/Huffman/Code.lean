/-! Canonical codes. Codes of one length are consecutive numbers; the first code of the next length
is the number after the last one, shifted left by one bit. -/
namespace ImageAudit.Jpeg.Huffman

def maxLength : Nat := 16

def maxSymbols : Nat := 256

inductive BuildError where
  | tooManyCodes (count : Nat)
  | invalidCodeLengths (length : Nat)
deriving DecidableEq, Repr

def BuildError.message : BuildError → String
  | .tooManyCodes count => "table declares " ++ toString count ++ " codes"
  | .invalidCodeLengths length => "code lengths overflow at length " ++ toString length

def total (counts : List Nat) : Nat := counts.foldr (· + ·) 0

def sizes (counts : List Nat) : List Nat :=
  counts.zipIdx.flatMap fun (count, i) => List.replicate count (i + 1)

/-- Assigns codes from `length` bits on, `code` being the next one; `lengths` lengths are left.
A code that does not fit its length or has only one bits is an overflow at that length. -/
def assign : (lengths length code : Nat) → (sizes : List Nat) → Except BuildError (List Nat)
  | 0, _, _, _ => .ok []
  | lengths + 1, length, code, sizes =>
    let count := (sizes.takeWhile (· == length)).length
    if 1 <<< length ≤ code + count then .error (.invalidCodeLengths length)
    else (assign lengths (length + 1) (2 * (code + count)) (sizes.drop count)).map
      (List.range' code count ++ ·)

def codes (sizes : List Nat) : Except BuildError (List Nat) := assign maxLength 1 0 sizes

structure Group where
  count : Nat
  /-- The smallest code. -/
  first : Nat
  /-- Index of its symbol. -/
  start : Nat
deriving DecidableEq, Repr

def groupsFrom (code start : Nat) : (counts : List Nat) → List Group
  | [] => []
  | count :: rest => ⟨count, code, start⟩ :: groupsFrom (2 * (code + count)) (start + count) rest

def groups (counts : List Nat) : List Group := groupsFrom 0 0 counts

end ImageAudit.Jpeg.Huffman
