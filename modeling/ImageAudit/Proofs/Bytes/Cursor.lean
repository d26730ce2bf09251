import ImageAudit.Bytes.Segment
import ImageAudit.Bytes.Source

/-! What a cursor yields, as a part of the bytes it runs over. -/
namespace ImageAudit

def bytesAt (bytes : List UInt8) (start count : Nat) : List UInt8 := (bytes.drop start).take count

def ByteOrder.intAt (order : ByteOrder) (bytes : List UInt8) (start width : Nat) : Nat :=
  order.decode (bytesAt bytes start width)

namespace Segment

variable (s : Segment)

@[simp] theorem length_rest : s.rest.length = s.left := by
  rw [rest, List.length_drop, Array.length_toList]
  rfl

@[simp] theorem toList_getData (n : Nat) : (s.getData n).1.data.toList = s.rest.take n := by
  have hlength := s.length_rest
  rw [left] at hlength
  rw [getData, rest, ByteArray.data_extract, Array.toList_extract, List.extract_eq_take_drop]
  by_cases h : s.index + n ≤ s.data.size
  · rw [Nat.min_eq_left h, Nat.add_sub_cancel_left]
  · rw [Nat.min_eq_right (by omega), ← hlength, ← rest, List.take_length,
      List.take_of_length_le (by omega)]

@[simp] theorem rest_getData (n : Nat) : (s.getData n).2.rest = s.rest.drop n := by
  have hlength : s.data.data.toList.length = s.data.size := Array.length_toList
  change s.data.data.toList.drop (min (s.index + n) s.data.size) = _
  rw [rest, List.drop_drop]
  by_cases h : s.index + n ≤ s.data.size
  · rw [Nat.min_eq_left h]
  · rw [Nat.min_eq_right (by omega), List.drop_eq_nil_of_le (by omega),
      List.drop_eq_nil_of_le (by omega)]

@[simp] theorem order_getData (n : Nat) : (s.getData n).2.order = s.order := rfl

@[simp] theorem rest_uint (width : Nat) : (s.uint width).2.rest = s.rest.drop width :=
  s.rest_getData width

@[simp] theorem order_uint (width : Nat) : (s.uint width).2.order = s.order := rfl

theorem valid_uint (width : Nat) : (s.uint width).2.Valid := Nat.min_le_right _ _

theorem rest_append (h : s.Valid) (more : ByteArray) :
    (s.append more).rest = s.rest ++ more.data.toList := by
  have hle : s.index ≤ s.data.data.toList.length := h
  rw [rest, rest, append, ByteArray.data_append, Array.toList_append,
    List.drop_append_of_le_length hle]

theorem size_getData {n : Nat} (h : n ≤ s.left) : (s.getData n).1.size = n := by
  change (s.getData n).1.data.size = n
  rw [← Array.length_toList, toList_getData, List.length_take, length_rest, Nat.min_eq_left h]

/-- Where enough bytes are left, an integer is the one that the next bytes store. -/
theorem uint_eq {width : Nat} (h : width ≤ s.left) :
    (s.uint width).1 = s.order.decode (s.rest.take width) := by
  rw [uint]
  simp only [s.size_getData h, reduceIte, toList_getData]

variable {s} {t : Segment} {bytes more : List UInt8} {start width n : Nat} {b : UInt8}

/-- A number that was written at the cursor is read back. -/
theorem uint_of_encode (h : s.rest = s.order.encode width n ++ more) (hn : n < Nat.pow 256 width) :
    (s.uint width).1 = n ∧ (s.uint width).2.rest = more := by
  have hlength := s.order.length_encode width n
  have hleft : width ≤ s.left := by
    rw [← length_rest, h, List.length_append, hlength]
    omega
  constructor
  · rw [uint_eq s hleft, h, List.take_left' hlength]
    exact ByteOrder.decode_encode _ _ _ hn
  · rw [rest_uint, h, List.drop_left' hlength]

/-- The order makes no difference to a single byte. -/
theorem uint_one_of_rest (h : s.rest = b :: more) :
    (s.uint 1).1 = b.toNat ∧ (s.uint 1).2.rest = more := by
  have hb : s.order.encode 1 b.toNat = [b] := by
    have hdigit : UInt8.ofNat b.toNat = b := UInt8.ofNat_toNat
    cases s.order <;> rw [ByteOrder.encode, ByteOrder.toDigits, ByteOrder.toDigits, hdigit] <;> rfl
  exact uint_of_encode (hb.symm ▸ h) b.toNat_lt

/-- Bytes that stand at the cursor are read. -/
theorem getData_of_append (h : s.rest = bytes ++ more) :
    (s.getData bytes.length).1 = ⟨bytes.toArray⟩ ∧ (s.getData bytes.length).2.rest = more := by
  constructor
  · apply ByteArray.ext
    apply Array.toList_inj.mp
    rw [toList_getData, h, List.take_left]
  · rw [rest_getData, h, List.drop_left]

theorem left_of_rest (h : s.rest = bytes.drop start) : s.left = bytes.length - start := by
  rw [← length_rest, h, List.length_drop]

/-- A cursor that stands at a place of `bytes` yields the bytes from there and moves behind
them. -/
theorem getData_of_rest {data : ByteArray} (hget : s.getData width = (data, t))
    (h : s.rest = bytes.drop start) :
    data.data.toList = bytesAt bytes start width ∧ t.order = s.order ∧
      t.rest = bytes.drop (start + width) := by
  have hdata := s.toList_getData width
  have hrest := s.rest_getData width
  have horder := s.order_getData width
  rw [hget] at hdata hrest horder
  refine ⟨hdata.trans ?_, horder, hrest.trans ?_⟩
  · rw [h, bytesAt]
  · rw [h, List.drop_drop]

/-- So it is with integers, where enough bytes are left. -/
theorem uint_of_rest {value : Nat} (hget : s.uint width = (value, t))
    (h : s.rest = bytes.drop start) (hle : start + width ≤ bytes.length) :
    value = s.order.intAt bytes start width ∧ t.order = s.order ∧
      t.rest = bytes.drop (start + width) := by
  have hleft : width ≤ s.left := by
    rw [left_of_rest h]
    omega
  have hvalue := s.uint_eq hleft
  have hrest := s.rest_uint width
  have horder := s.order_uint width
  rw [hget] at hvalue hrest horder
  refine ⟨hvalue.trans ?_, horder, hrest.trans ?_⟩
  · rw [h, ByteOrder.intAt, bytesAt]
  · rw [h, List.drop_drop]

end Segment
end ImageAudit
