import ImageAudit.Proofs.Bytes.Cursor
import ImageAudit.Proofs.Checked.Operation

/-! Bytes in memory, seen through windows, and cursors over bytes that were read from them. Windows
are added up and bytes are cut out with operations that can go wrong. None does on data of fewer
than 2^32 bytes. -/
namespace ImageAudit

open Checked

inductive Input where
  | memory (name : String) (data : ByteArray)
  | window (inner : Input) (start length : Nat)

namespace Input

def source : Input → Source
  | memory name data => .ofBytes name data
  | window inner start length => inner.source.window start length

/-- The bytes are fewer than 2^32, and windows lie in what they are windows of. -/
def Valid : Input → Prop
  | memory _ data => data.size ≤ maxLong
  | window inner start length => inner.Valid ∧ inner.source.hasSection start length = true

instance decidableValid : (i : Input) → Decidable i.Valid
  | memory _ data => inferInstanceAs (Decidable (data.size ≤ maxLong))
  | window inner start length =>
    have := decidableValid inner
    inferInstanceAs (Decidable (inner.Valid ∧ inner.source.hasSection start length = true))

def read : Input → (offset count : Nat) → Checked (Except ReadError ByteArray)
  | memory _ data, offset, count =>
    if isSection offset count data.size then do
      let stop ← add maxWord offset count
      let bytes ← slice data offset stop
      pure (.ok bytes)
    else pure (.error (.outOfRange offset count data.size))
  | window inner start length, offset, count =>
    if isSection offset count length then do
      let offset ← add maxWord start offset
      inner.read offset count
    else pure (.error (.outOfRange offset count length))

variable {i : Input}

theorem Valid.length_le (h : i.Valid) : i.source.length ≤ maxLong := by
  induction i with
  | memory name data => exact h
  | window inner start length ih =>
    have hinner := ih h.1
    have hsection := (Source.hasSection_iff.mp h.2).2
    change length ≤ maxLong
    omega

theorem Valid.length_lt_maxWord (h : i.Valid) : i.source.length < maxWord := by
  have hlength := h.length_le
  rw [maxLong] at hlength
  rw [maxWord]
  omega

/-- No sum leaves 64 bits and no slice leaves the bytes. -/
theorem read_eq (h : i.Valid) (offset count : Nat) :
    i.read offset count = pure (i.source.read offset count) := by
  induction i generalizing offset with
  | memory name data =>
    change (if isSection offset count data.size = true then _ else _) =
      pure (if isSection offset count data.size = true then _ else _)
    split
    · next hsection =>
      obtain ⟨hword, hsize⟩ := isSection_iff.mp hsection
      rw [add_eq hword, pure_bind, slice_eq (Nat.le_add_right _ _) hsize, pure_bind]
      rfl
    · rfl
  | window inner start length ih =>
    change (if isSection offset count length = true then _ else _) =
      pure (if isSection offset count length = true then _ else _)
    split
    · next hsection =>
      have hinside := (isSection_iff.mp hsection).2
      have hwindow := (Source.hasSection_iff.mp h.2).1
      rw [add_eq (by omega), pure_bind]
      exact ih h.1 (start + offset)
    · rfl

/-- A window that does not lie in what it is a window of may fault. -/
example : (window (.memory "" .empty) maxWord 2).read 1 1 = throw .overflow := rfl

end Input

namespace Segment

structure Sound (s : Segment) : Prop where
  valid : s.Valid
  size_le : s.data.size ≤ maxWord

def checkedLeft (s : Segment) : Checked Nat := sub s.data.size s.index

def checkedGetData (s : Segment) (n : Nat) : Checked (ByteArray × Segment) := do
  let stop := min (saturate (s.index + n)) s.data.size
  let bytes ← slice s.data s.index stop
  pure (bytes, { s with index := stop })

def checkedUint (s : Segment) (width : Nat) : Checked (Nat × Segment) := do
  let (bytes, next) ← s.checkedGetData width
  pure (if bytes.size = width then s.order.decode bytes.data.toList else 0, next)

def checkedOffsetValue (s : Segment) (big : Bool) : Checked (Nat × Segment) :=
  s.checkedUint (offsetWidth big)

def checkedAppend (s : Segment) (more : ByteArray) : Checked Segment := do
  let _ ← add maxWord s.data.size more.size
  pure (s.append more)

variable {s : Segment}

@[simp] theorem data_getData (s : Segment) (n : Nat) : (s.getData n).2.data = s.data := rfl

@[simp] theorem data_uint (s : Segment) (width : Nat) : (s.uint width).2.data = s.data := rfl

@[simp] theorem data_offsetValue (s : Segment) (big : Bool) :
    (s.offsetValue big).2.data = s.data := rfl

/-- A read leaves the cursor inside the bytes, wherever it was. -/
@[simp] theorem sound_getData (s : Segment) (n : Nat) :
    (s.getData n).2.Sound ↔ s.data.size ≤ maxWord :=
  ⟨Sound.size_le, fun h => ⟨Nat.min_le_right _ _, h⟩⟩

@[simp] theorem sound_uint (s : Segment) (width : Nat) :
    (s.uint width).2.Sound ↔ s.data.size ≤ maxWord :=
  s.sound_getData width

@[simp] theorem sound_offsetValue (s : Segment) (big : Bool) :
    (s.offsetValue big).2.Sound ↔ s.data.size ≤ maxWord :=
  s.sound_uint _

theorem sound_of_size {offset : Nat} {data : ByteArray} {order : ByteOrder}
    (h : data.size ≤ maxWord) : Sound ⟨offset, data, order, 0⟩ :=
  ⟨Nat.zero_le _, h⟩

theorem Sound.append (h : s.Sound) {more : ByteArray}
    (hsize : s.data.size + more.size ≤ maxWord) : (s.append more).Sound where
  valid := by
    have hindex : s.index ≤ s.data.size := h.valid
    change s.index ≤ (s.data ++ more).size
    rw [ByteArray.size_append]
    omega
  size_le := by
    change (s.data ++ more).size ≤ maxWord
    rw [ByteArray.size_append]
    exact hsize

@[simp] theorem checkedLeft_eq (h : s.Sound) : s.checkedLeft = pure s.left := sub_eq h.valid

@[simp] theorem checkedGetData_eq (h : s.Sound) (n : Nat) :
    s.checkedGetData n = pure (s.getData n) := by
  have hindex : s.index ≤ s.data.size := h.valid
  have hstop : min (saturate (s.index + n)) s.data.size = min (s.index + n) s.data.size := by
    have hsize := h.size_le
    rw [saturate]
    omega
  rw [checkedGetData, hstop, slice_eq (by omega) (Nat.min_le_right _ _), pure_bind]
  rfl

@[simp] theorem checkedUint_eq (h : s.Sound) (width : Nat) :
    s.checkedUint width = pure (s.uint width) := by
  rw [checkedUint, checkedGetData_eq h, pure_bind]
  rfl

@[simp] theorem checkedOffsetValue_eq (h : s.Sound) (big : Bool) :
    s.checkedOffsetValue big = pure (s.offsetValue big) :=
  checkedUint_eq h _

theorem checkedAppend_eq {more : ByteArray} (h : s.data.size + more.size ≤ maxWord) :
    s.checkedAppend more = pure (s.append more) := by
  rw [checkedAppend, add_eq h, pure_bind]

theorem uint_lt (s : Segment) (width : Nat) : (s.uint width).1 < Nat.pow 256 width := by
  rw [uint]
  dsimp only
  split
  · next hsize =>
    have hlt := s.order.decode_lt (s.getData width).1.data.toList
    rw [Array.length_toList] at hlt
    rwa [show (s.getData width).1.data.size = width from hsize] at hlt
  · exact Nat.pow_pos (by decide)

theorem uint_le_maxByte (s : Segment) : (s.uint 1).1 ≤ maxByte := Nat.le_of_lt_succ (s.uint_lt 1)

theorem uint_le_maxHalf (s : Segment) : (s.uint 2).1 ≤ maxHalf := Nat.le_of_lt_succ (s.uint_lt 2)

end Segment
end ImageAudit
