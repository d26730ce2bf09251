import ImageAudit.Tiff.FieldType

/-! The allowance for field data. All out-of-line fields of a file share one, so that many entries
pointing at the same large window cannot use more memory than it grants. -/
namespace ImageAudit.Tiff

def maxFieldCharge : Nat := 16 * 1024 * 1024

def maxTotalCharge : Nat := 64 * 1024 * 1024

structure Budget where
  limit : Nat
  remaining : Nat
deriving DecidableEq, Repr

namespace Budget

def ofLimit (limit : Nat) : Budget := ⟨limit, limit⟩

def default : Budget := ofLimit maxTotalCharge

def take? (b : Budget) (size : Nat) : Option Budget :=
  if size ≤ b.remaining then some { b with remaining := b.remaining - size } else none

end Budget
end ImageAudit.Tiff
