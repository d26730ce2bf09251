import ImageAudit.Proofs.Checked.Input
import Mathlib.Data.List.Induction

/-! Laws of a cursor. Whatever was done to it, it stands inside the bytes. Reads take the bytes
behind it one after another, with no gap and none twice, and they answer what these bytes store.
Bytes that are appended leave what was passed as it is. -/
namespace ImageAudit

namespace ByteOrder

def ofDigitsWide (digits : List UInt8) : BitVec 128 :=
  digits.foldl (fun acc d => acc <<< 8 ||| d.toBitVec.setWidth 128) 0

def decodeWide : ByteOrder → List UInt8 → BitVec 128
  | .bigEndian, bytes => ofDigitsWide bytes
  | .littleEndian, bytes => ofDigitsWide bytes.reverse

private theorem toNat_ofDigitsWide {digits : List UInt8} (h : digits.length ≤ 16) :
    (ofDigitsWide digits).toNat = ofDigits digits := by
  induction digits using List.reverseRecOn with
  | nil => rfl
  | append_singleton digits d ih =>
    rw [List.length_append, List.length_singleton] at h
    -- the digits in front leave room for one more, so the shift drops nothing
    have hlt : ofDigits digits < Nat.pow 256 15 :=
      Nat.lt_of_lt_of_le (decode_lt .bigEndian digits) (Nat.pow_le_pow_right (by decide) (by omega))
    have hd : d.toNat < 256 := d.toNat_lt
    have hstep : ofDigitsWide (digits ++ [d]) =
        ofDigitsWide digits <<< 8 ||| d.toBitVec.setWidth 128 := by
      simp [ofDigitsWide]
    have hshift : ofDigits digits <<< 8 = ofDigits digits * 256 := Nat.shiftLeft_eq _ 8
    have hwide : ofDigits digits * 256 < Nat.pow 256 16 :=
      Nat.mul_lt_mul_of_pos_right hlt (by decide)
    rw [hstep, BitVec.toNat_or, BitVec.toNat_shiftLeft, BitVec.toNat_setWidth,
      UInt8.toNat_toBitVec, ih (by omega), ofDigits_append_singleton, ← hshift,
      Nat.shiftLeft_add_eq_or_of_lt hd, Nat.mod_eq_of_lt (hshift ▸ hwide),
      Nat.mod_eq_of_lt (Nat.lt_trans hd (by decide))]

/-- Up to 16 bytes nothing is lost. -/
theorem toNat_decodeWide (order : ByteOrder) {bytes : List UInt8} (h : bytes.length ≤ 16) :
    (order.decodeWide bytes).toNat = order.decode bytes := by
  cases order with
  | bigEndian => exact toNat_ofDigitsWide h
  | littleEndian => exact toNat_ofDigitsWide (by rwa [List.length_reverse])

end ByteOrder

namespace Segment

open Checked

def Operation.integerWidth? : Operation → Option Nat
  | .uint width => some width
  | .bigInt width => if width ≤ maxIntegerWidth then some width else none
  | .offsetValue big => some (offsetWidth big)
  | _ => none

def Operation.isRead : Operation → Bool
  | .getData _ => true
  | op => op.integerWidth?.isSome

def passed (s : Segment) : List UInt8 := s.data.data.toList.take s.index

/-- What a read answers, and the bytes that it takes from those behind the cursor. -/
inductive Reads (s : Segment) : Operation → Answer → List UInt8 → Prop
  | integer {op : Operation} {width : Nat} {chunk : List UInt8}
    (hop : op.integerWidth? = some width) (hnext : chunk <+: s.rest)
    (hlength : chunk.length = width) : Reads s op (.number (s.order.decode chunk)) chunk
  | short {op : Operation} {width : Nat} (hop : op.integerWidth? = some width)
    (hfew : s.rest.length < width) : Reads s op (.number 0) s.rest
  | bytes (n : Nat) : Reads s (.getData n) (.bytes ⟨(s.rest.take n).toArray⟩) (s.rest.take n)

/-- The cursor goes over the bytes that stand behind it, and nothing else changes. -/
structure Consumes (s : Segment) (chunk : List UInt8) (t : Segment) : Prop where
  next : chunk <+: s.rest
  moved : t = { s with index := s.index + chunk.length }

def run : List Operation → Segment → List Answer × Segment
  | [], s => ([], s)
  | op :: ops, s =>
    let (answer, t) := s.apply op
    let (answers, u) := run ops t
    (answer :: answers, u)

inductive ReadsAll : Segment → List Operation → List Answer → List (List UInt8) → Segment → Prop
  | nil (s : Segment) : ReadsAll s [] [] [] s
  | cons {s t u : Segment} {op : Operation} {answer : Answer} {chunk : List UInt8}
    {ops : List Operation} {answers : List Answer} {chunks : List (List UInt8)}
    (h : Reads s op answer chunk) (hmoved : Consumes s chunk t)
    (hrest : ReadsAll t ops answers chunks u) :
    ReadsAll s (op :: ops) (answer :: answers) (chunk :: chunks) u

variable {s t u : Segment} {op : Operation} {chunk other : List UInt8} {width n : Nat}

namespace Consumes

protected theorem refl (s : Segment) : Consumes s [] s := ⟨List.nil_prefix, rfl⟩

/-- The bytes that are left are those behind the ones that were taken. -/
theorem rest_eq (h : Consumes s chunk t) : s.rest = chunk ++ t.rest := by
  obtain ⟨⟨left, hleft⟩, rfl⟩ := h
  have hdrop : s.rest.drop chunk.length = left := by rw [← hleft, List.drop_left]
  rw [rest, List.drop_drop] at hdrop
  rw [← hleft, ← hdrop, rest]

theorem append (h : Consumes s chunk t) (hother : Consumes t other u) :
    Consumes s (chunk ++ other) u where
  next := by
    rw [h.rest_eq]
    exact (List.prefix_append_right_inj chunk).mpr hother.next
  moved := by
    rw [hother.moved, h.moved, List.length_append, Nat.add_assoc]

end Consumes

theorem consumes_getData (h : s.Valid) (n : Nat) :
    Consumes s (s.rest.take n) (s.getData n).2 where
  next := List.take_prefix _ _
  moved := by
    have hindex : s.index ≤ s.data.size := h
    have hstop : min (s.index + n) s.data.size = s.index + min n s.left := by
      rw [left]
      omega
    rw [List.length_take, length_rest, ← hstop]
    rfl

theorem apply_of_integerWidth? (h : op.integerWidth? = some width) (s : Segment) :
    s.apply op = (.number (s.uint width).1, (s.uint width).2) := by
  cases op with
  | uint width => cases h; rfl
  | bigInt n =>
    obtain ⟨hle, hwidth⟩ := Option.ite_none_right_eq_some.mp h
    obtain rfl := Option.some.inj hwidth
    rw [apply, bigInt, if_neg (Nat.not_lt_of_le hle)]
  | offsetValue big => cases h; rfl
  | _ => cases h

/-- An integer is what the next bytes store, or zero where they are too few. -/
theorem reads_uint (hop : op.integerWidth? = some width) :
    Reads s op (.number (s.uint width).1) (s.rest.take width) := by
  rcases Nat.lt_or_ge s.left width with hlt | hle
  · have hfew : s.rest.length < width := by rwa [length_rest]
    have hsize : ¬ (s.getData width).1.size = width := by
      change ¬ (s.getData width).1.data.size = width
      rw [← Array.length_toList, toList_getData, List.length_take]
      omega
    have hzero : (s.uint width).1 = 0 := if_neg hsize
    rw [hzero, List.take_of_length_le (Nat.le_of_lt hfew)]
    exact .short hop hfew
  · rw [uint_eq s hle]
    refine .integer hop (List.take_prefix _ _) ?_
    rw [List.length_take, length_rest, Nat.min_eq_left hle]

theorem apply_reads (h : s.Valid) (hop : op.isRead = true) :
    ∃ chunk, Reads s op (s.apply op).1 chunk ∧ Consumes s chunk (s.apply op).2 := by
  cases hwidth : op.integerWidth? with
  | some width =>
    rw [apply_of_integerWidth? hwidth]
    exact ⟨_, reads_uint hwidth, consumes_getData h width⟩
  | none =>
    cases op with
    | getData n =>
      have hbytes : (s.getData n).1 = ⟨(s.rest.take n).toArray⟩ :=
        ByteArray.ext (Array.toList_inj.mp (s.toList_getData n))
      refine ⟨_, ?_, consumes_getData h n⟩
      change Reads s (.getData n) (.bytes (s.getData n).1) _
      rw [hbytes]
      exact .bytes n
    | _ => simp [Operation.isRead, hwidth] at hop

/-- No operation puts the cursor behind the end. -/
theorem valid_apply (h : s.Valid) (op : Operation) : (s.apply op).2.Valid := by
  have hindex : s.index ≤ s.data.size := h
  cases op with
  | uint width => exact valid_uint s width
  | bigInt width =>
    rw [apply, bigInt]
    by_cases hwide : maxIntegerWidth < width
    · rw [if_pos hwide]
      exact h
    · rw [if_neg hwide]
      exact valid_uint s width
  | offsetValue big => exact valid_uint s _
  | getData n => exact Nat.min_le_right _ _
  | skip n => exact Nat.min_le_right _ _
  | rewind n => exact Nat.le_trans (Nat.sub_le _ _) hindex
  | setIndex index => exact Nat.min_le_right _ _
  | append more =>
    change s.index ≤ (s.data ++ more).size
    rw [ByteArray.size_append]
    exact Nat.le_add_right_of_le hindex
  | setOrder order => exact hindex

theorem valid_run (h : s.Valid) (ops : List Operation) : (run ops s).2.Valid := by
  induction ops generalizing s with
  | nil => exact h
  | cons op ops ih => exact ih (valid_apply h op)

/-- Each read begins where the one in front of it ended. -/
theorem run_reads (h : s.Valid) {ops : List Operation} (hops : ∀ op ∈ ops, op.isRead = true) :
    ∃ chunks, ReadsAll s ops (run ops s).1 chunks (run ops s).2 := by
  induction ops generalizing s with
  | nil => exact ⟨[], .nil s⟩
  | cons op ops ih =>
    rw [List.forall_mem_cons] at hops
    obtain ⟨chunk, hread, hmoved⟩ := apply_reads h hops.1
    obtain ⟨chunks, hchunks⟩ := ih (valid_apply h op) hops.2
    exact ⟨chunk :: chunks, .cons hread hmoved hchunks⟩

/-- Reads take consecutive bytes. -/
theorem ReadsAll.consumes {ops : List Operation} {answers : List Answer}
    {chunks : List (List UInt8)} (h : ReadsAll s ops answers chunks t) :
    Consumes s chunks.flatten t := by
  induction h with
  | nil s => exact .refl s
  | cons _ hmoved _ ih => exact hmoved.append ih

/-- What holds of a cursor at any time. -/
structure CursorLaws (s : Segment) : Prop where
  inside : s.index ≤ s.length
  left : s.checkedLeft = pure s.left
  /-- It makes no difference that the cursor is counted in 64 bits. -/
  words : s.length ≤ maxWord → ∀ n, s.setIndex (saturate (s.index + n)) = s.skip n ∧
    s.checkedGetData n = pure (s.getData n)
  read : ∀ op, op.isRead = true →
    ∃ chunk, Reads s op (s.apply op).1 chunk ∧ Consumes s chunk (s.apply op).2
  /-- An integer keeps its value when it is stored with the width that was read. -/
  fits : ∀ width, (s.uint width).1 < Nat.pow 256 width
  reads : ∀ ops, (∀ op ∈ ops, op.isRead = true) →
    ∃ chunks, ReadsAll s ops (run ops s).1 chunks (run ops s).2 ∧
      Consumes s chunks.flatten (run ops s).2
  append : ∀ more, (s.append more).index = s.index ∧ (s.append more).passed = s.passed ∧
    (s.append more).rest = s.rest ++ more.data.toList

theorem cursorLaws (h : s.Valid) : CursorLaws s where
  inside := h
  left := sub_eq h
  words hsize n := by
    refine ⟨?_, checkedGetData_eq ⟨h, hsize⟩ n⟩
    have hsaturate : min (saturate (s.index + n)) s.data.size = min (s.index + n) s.data.size := by
      change s.data.size ≤ maxWord at hsize
      rw [saturate]
      omega
    rw [skip, setIndex, setIndex, hsaturate]
  read _ hop := apply_reads h hop
  fits := s.uint_lt
  reads ops hops := by
    obtain ⟨chunks, hchunks⟩ := run_reads h hops
    exact ⟨chunks, hchunks, hchunks.consumes⟩
  append more := by
    have hindex : s.index ≤ s.data.data.toList.length := h
    refine ⟨rfl, ?_, rest_append s h more⟩
    rw [passed, passed, append, ByteArray.data_append, Array.toList_append,
      List.take_append_of_le_length hindex]

/-- The laws of a cursor hold whatever was done to it since the bytes were read, and what is decoded
is what was encoded. -/
theorem run_keeps_cursorLaws (offset : Nat) (data : ByteArray) (order : ByteOrder)
    (ops : List Operation) :
    CursorLaws (run ops ⟨offset, data, order, 0⟩).2 ∧
      (∀ width value, width ≤ 16 → value < Nat.pow 256 width →
        order.decode (order.encode width value) = value ∧
          (order.decodeWide (order.encode width value)).toNat = value) ∧
      (∀ bytes, bytes.length ≤ 16 → (order.decodeWide bytes).toNat = order.decode bytes) ∧
      ∀ bytes, ByteOrder.littleEndian.decode bytes = ByteOrder.bigEndian.decode bytes.reverse := by
  refine ⟨cursorLaws (valid_run (Nat.zero_le _) ops), fun width value hwidth hvalue => ?_,
    fun _ => order.toNat_decodeWide, fun _ => rfl⟩
  have hlength : (order.encode width value).length ≤ 16 := by rwa [ByteOrder.length_encode]
  rw [order.toNat_decodeWide hlength]
  exact ⟨order.decode_encode width value hvalue, order.decode_encode width value hvalue⟩

def grown : Segment :=
  (run [.uint 2, .append ⟨#[4, 5]⟩, .rewind 1, .setOrder .littleEndian]
    ⟨100, ⟨#[1, 2, 3]⟩, .bigEndian, 0⟩).2

theorem run_keeps_cursorLaws_grown :
    grown.checkedLeft = pure 4 ∧
      grown.setIndex (saturate (grown.index + maxWord)) = grown.skip maxWord ∧
      (∃ chunk, Reads grown (.uint 2) (.number 0x0302) chunk ∧
        Consumes grown chunk (grown.uint 2).2) ∧
      (∃ chunks, ReadsAll grown [.uint 2, .getData 9, .uint 1]
          [.number 0x0302, .bytes ⟨#[4, 5]⟩, .number 0] chunks
          (run [.uint 2, .getData 9, .uint 1] grown).2 ∧
        Consumes grown chunks.flatten (run [.uint 2, .getData 9, .uint 1] grown).2) ∧
      ByteOrder.bigEndian.decode (ByteOrder.bigEndian.encode 2 0x0102) = 0x0102 ∧
      (ByteOrder.bigEndian.decodeWide [1, 2]).toNat = ByteOrder.bigEndian.decode [1, 2] := by
  obtain ⟨hlaws, hencode, hwide, -⟩ := run_keeps_cursorLaws 100 ⟨#[1, 2, 3]⟩ .bigEndian
    [.uint 2, .append ⟨#[4, 5]⟩, .rewind 1, .setOrder .littleEndian]
  refine ⟨hlaws.left, (hlaws.words (by decide) maxWord).1, hlaws.read (.uint 2) rfl,
    hlaws.reads [.uint 2, .getData 9, .uint 1] (by decide), ?_, hwide [1, 2] (by decide)⟩
  exact (hencode 2 0x0102 (by decide) (by decide)).1

end Segment
end ImageAudit
