/-! Four numbered places for table definitions; a later definition replaces an earlier one. -/
namespace ImageAudit.Jpeg

def Slots.count : Nat := 4

structure Slots (α : Type) where
  items : Vector (Option α) Slots.count

namespace Slots

variable {α : Type}

def empty : Slots α := ⟨.replicate count none⟩

def get? (s : Slots α) (i : Nat) : Option α := (s.items[i]?).join

/-- Puts `a` at destination `i`; there is no destination from `count` on. -/
def set (s : Slots α) (i : Nat) (a : α) : Slots α := ⟨s.items.setIfInBounds i (some a)⟩

variable {s : Slots α} {i j : Nat} {a b : α}

theorem get?_empty : (empty : Slots α).get? i = none := by
  rw [get?, empty, Vector.getElem?_replicate]
  split <;> rfl

theorem get?_set (hi : i < count) :
    (s.set i a).get? j = if i = j then some a else s.get? j := by
  rw [get?, set, Vector.getElem?_setIfInBounds, get?, if_pos hi]
  split <;> rfl

/-- A place holds what was put there last, or what it held before. -/
theorem of_get?_set (h : (s.set i a).get? j = some b) : (i = j ∧ a = b) ∨ s.get? j = some b := by
  rw [get?, set, Vector.getElem?_setIfInBounds] at h
  split at h
  · next hij =>
    split at h
    · exact .inl ⟨hij, Option.some.inj h⟩
    · cases h
  · exact .inr h

end Slots
end ImageAudit.Jpeg
