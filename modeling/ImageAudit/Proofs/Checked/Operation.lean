import ImageAudit.Bytes.Arithmetic

/-! Operations that can go wrong. Numbers have a width, an index must lie inside what it indexes, a
divisor must not be zero and a loop has a limited number of turns. An operation that goes wrong
faults, and a fault ends everything. Lists are held in memory, so counting their items is no such
operation. -/
namespace ImageAudit

inductive Fault where
  /-- A number does not fit its width, from above or below. -/
  | overflow
  /-- An index or a slice is not inside. -/
  | outOfRange
  | divisionByZero
  /-- A loop takes more turns than it may. -/
  | endless
deriving DecidableEq, Repr

abbrev Checked (α : Type) := Except Fault α

namespace Checked

def maxByte : Nat := 0xFF

def maxHalf : Nat := 0xFFFF

def maxLong : Nat := 0xFFFFFFFF

def signedLong : Int := 0x80000000

def signedQuad : Int := 0x80000000000000000000000000000000

def fit (most n : Nat) : Checked Nat := if n ≤ most then pure n else throw .overflow

/-- A number without the bits for which a width with the largest number `most` has no room. -/
def cut (most n : Nat) : Checked Nat := pure (n % (most + 1))

def fitSigned (bound n : Int) : Checked Int :=
  if -bound ≤ n ∧ n < bound then pure n else throw .overflow

def add (most a b : Nat) : Checked Nat := fit most (a + b)

def mul (most a b : Nat) : Checked Nat := fit most (a * b)

def sub (a b : Nat) : Checked Nat := if b ≤ a then pure (a - b) else throw .overflow

def div (a b : Nat) : Checked Nat := if b = 0 then throw .divisionByZero else pure (a / b)

def mod (a b : Nat) : Checked Nat := if b = 0 then throw .divisionByZero else pure (a % b)

def quotient (bound a b : Int) : Checked Int :=
  if b = 0 then throw .divisionByZero else fitSigned bound (a.tdiv b)

def ceilDiv (most total size : Nat) : Checked Nat := do
  let parts ← div total size
  let rest ← mod total size
  if 0 < rest then add most parts 1 else pure parts

def power (bits place : Nat) : Checked Nat :=
  if place < bits then pure (1 <<< place) else throw .overflow

def shiftRight (bits n place : Nat) : Checked Nat :=
  if place < bits then pure (n >>> place) else throw .overflow

def get {α : Type} : Option α → Checked α
  | some a => pure a
  | none => throw .outOfRange

def set {α : Type} (items : List α) (i : Nat) (a : α) : Checked (List α) :=
  if i < items.length then pure (items.set i a) else throw .outOfRange

def slice (data : ByteArray) (start stop : Nat) : Checked ByteArray :=
  if start ≤ stop ∧ stop ≤ data.size then pure (data.extract start stop) else throw .outOfRange

/-- Where nothing goes wrong, nothing goes wrong in the first part nor in what follows it. -/
theorem bind_eq_pure {α β : Type} {x : Checked α} {f : α → Checked β} {b : β} :
    x >>= f = pure b ↔ ∃ a, x = pure a ∧ f a = pure b := by
  cases x with
  | error fault => exact iff_of_false (fun h => by cases h) fun ⟨_, h, _⟩ => by cases h
  | ok a => exact ⟨fun h => ⟨a, rfl, h⟩, fun ⟨_, h, hf⟩ => by cases h; exact hf⟩

variable {most a b : Nat}

theorem fit_eq (h : a ≤ most) : fit most a = pure a := if_pos h

theorem fitSigned_eq {bound n : Int} (hlow : -bound ≤ n) (hhigh : n < bound) :
    fitSigned bound n = pure n := if_pos ⟨hlow, hhigh⟩

theorem add_eq (h : a + b ≤ most) : add most a b = pure (a + b) := if_pos h

theorem mul_eq (h : a * b ≤ most) : mul most a b = pure (a * b) := if_pos h

theorem sub_eq (h : b ≤ a) : sub a b = pure (a - b) := if_pos h

theorem div_eq (h : 0 < b) : div a b = pure (a / b) := if_neg (Nat.ne_of_gt h)

theorem mod_eq (h : 0 < b) : mod a b = pure (a % b) := if_neg (Nat.ne_of_gt h)

theorem power_eq {bits place : Nat} (h : place < bits) : power bits place = pure (1 <<< place) :=
  if_pos h

theorem shiftRight_eq {bits place : Nat} (h : place < bits) (n : Nat) :
    shiftRight bits n place = pure (n >>> place) :=
  if_pos h

@[simp] theorem get_some {α : Type} (a : α) : get (some a) = pure a := rfl

theorem set_eq {α : Type} {items : List α} {i : Nat} (h : i < items.length) (a : α) :
    set items i a = pure (items.set i a) := if_pos h

/-- Where nothing goes wrong with any item, nothing goes wrong with the list. -/
theorem mapM_eq {α β : Type} {items : List α} {f : α → Checked β} {g : α → β}
    (h : ∀ a ∈ items, f a = pure (g a)) : items.mapM f = pure (items.map g) := by
  induction items with
  | nil => rfl
  | cons a items ih =>
    rw [List.forall_mem_cons] at h
    rw [List.mapM_cons, h.1, pure_bind, ih h.2, pure_bind, List.map_cons]

theorem slice_eq {data : ByteArray} {start stop : Nat} (hle : start ≤ stop)
    (hstop : stop ≤ data.size) : slice data start stop = pure (data.extract start stop) :=
  if_pos ⟨hle, hstop⟩

/-- A quotient is no larger than what is divided. -/
theorem quotient_eq {bound m n : Int} (hn : n ≠ 0) (hlow : -bound < m) (hhigh : m < bound) :
    quotient bound m n = pure (m.tdiv n) := by
  have hle : (m.tdiv n).natAbs ≤ m.natAbs := by
    rw [Int.natAbs_tdiv]
    exact Nat.div_le_self _ _
  rw [quotient, if_neg hn]
  exact fitSigned_eq (by omega) (by omega)

/-- Parts are counted within the width of the total. -/
theorem ceilDiv_eq (htotal : a ≤ most) (hsize : 0 < b) :
    ceilDiv most a b = pure (ImageAudit.ceilDiv a b) := by
  have hsplit : a / b * b + a % b = a := Nat.div_add_mod' a b
  have hrest := Nat.mod_lt a hsize
  have hle : a / b ≤ a / b * b := Nat.le_mul_of_pos_right _ hsize
  have hparts : ∀ i, i < ImageAudit.ceilDiv a b ↔ i * b < a := fun i => lt_ceilDiv_iff hsize
  rw [ceilDiv, div_eq hsize, mod_eq hsize, pure_bind, pure_bind]
  split
  · next hpos =>
    have hmore : a / b < ImageAudit.ceilDiv a b := (hparts _).mpr (by omega)
    have hlast : ¬ a / b + 1 < ImageAudit.ceilDiv a b := by
      rw [hparts, Nat.add_one_mul]
      omega
    rw [add_eq (by omega)]
    congr 1
    omega
  · next hzero =>
    have hall : ¬ a / b < ImageAudit.ceilDiv a b := by
      rw [hparts]
      omega
    congr 1
    cases hq : a / b with
    | zero => omega
    | succ q =>
      have hmore : q < ImageAudit.ceilDiv a b := by
        rw [hq, Nat.add_one_mul] at hsplit
        exact (hparts q).mpr (by omega)
      omega

end Checked
end ImageAudit
