import ImageAudit.Jpeg.Huffman.Code

/-! Huffman tables with their canonical codes, looked up by length and code. -/
namespace ImageAudit.Jpeg.Huffman

structure Table where
  /-- 0 for DC and lossless coding, 1 for AC. -/
  tableClass : Nat
  id : Nat
  /-- How many codes have length 1, 2, … 16. -/
  counts : List Nat
  /-- In code order. -/
  symbols : Array UInt8
  /-- The code length of every symbol. -/
  sizes : List Nat
  /-- The code of every symbol. -/
  codes : List Nat
  /-- The codes of length 1, 2, … 16. -/
  groups : Array Group
deriving DecidableEq, Repr

namespace Table

/-- Builds a table. There should be as many symbols as `counts` sum to. -/
def build (tableClass id : Nat) (counts : List Nat) (symbols : Array UInt8) :
    Except BuildError Table :=
  if maxSymbols < total counts then .error (.tooManyCodes (total counts))
  else
    let sizes := Huffman.sizes counts
    (Huffman.codes sizes).map fun codes =>
      ⟨tableClass, id, counts, symbols, sizes, codes, (Huffman.groups counts).toArray⟩

def numCodes (t : Table) : Nat := t.codes.length

def group? (t : Table) (length : Nat) : Option Group :=
  if length = 0 then none else t.groups[length - 1]?

def maxCode (t : Table) (length : Nat) : Int :=
  match t.group? length with
  | some g => if g.count = 0 then -1 else (g.first + g.count - 1 : Nat)
  | none => -1

def symbol? (t : Table) (length code : Nat) : Option UInt8 :=
  match t.group? length with
  | some g =>
    if g.first ≤ code ∧ code < g.first + g.count then t.symbols[g.start + (code - g.first)]?
    else none
  | none => none

end Table
end ImageAudit.Jpeg.Huffman
