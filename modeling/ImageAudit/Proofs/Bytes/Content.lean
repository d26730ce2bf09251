import ImageAudit.Proofs.Bytes.Cursor
import Mathlib.Data.List.Induction

/-! What a source holds, as one list of bytes, and where in it other bytes stand. -/
namespace ImageAudit

namespace ByteOrder

private theorem toDigits_ofDigits (digits : List UInt8) :
    toDigits digits.length (ofDigits digits) = digits := by
  induction digits using List.reverseRecOn with
  | nil => rfl
  | append_singleton digits d ih =>
    have hd := d.toNat_lt
    have hdiv : (ofDigits digits * 256 + d.toNat) / 256 = ofDigits digits := by omega
    have hlast : UInt8.ofNat (ofDigits digits * 256 + d.toNat) = d := by
      apply UInt8.toNat_inj.mp
      rw [UInt8.toNat_ofNat']
      omega
    rw [ofDigits_append_singleton, List.length_append, List.length_singleton, toDigits, hdiv, ih,
      hlast]

/-- Encoding writes back what decoding read, in either order. -/
theorem encode_decode (order : ByteOrder) (bytes : List UInt8) :
    order.encode bytes.length (order.decode bytes) = bytes := by
  cases order with
  | bigEndian => exact toDigits_ofDigits bytes
  | littleEndian =>
    have h := toDigits_ofDigits bytes.reverse
    rw [List.length_reverse] at h
    rw [encode, decode, h, List.reverse_reverse]

end ByteOrder

section

variable {α : Type} {f : α → List UInt8} {l : List α} {size : Nat}

/-- Parts of one size, put together. -/
theorem length_flatMap_of_forall (h : ∀ a ∈ l, (f a).length = size) :
    (l.flatMap f).length = size * l.length := by
  induction l with
  | nil => rfl
  | cons a l ih =>
    rw [List.forall_mem_cons] at h
    rw [List.flatMap_cons, List.length_append, h.1, ih h.2, List.length_cons, Nat.mul_succ,
      Nat.add_comm]

/-- Each of them stands behind the ones before it. -/
theorem take_drop_flatMap (h : ∀ a, (f a).length = size) {i : Nat} (hi : i < l.length) :
    ((l.flatMap f).drop (i * size)).take size = f l[i] := by
  induction l generalizing i with
  | nil => cases hi
  | cons a l ih =>
    rw [List.flatMap_cons]
    cases i with
    | zero => rw [Nat.zero_mul, List.drop_zero, List.take_left' (h a), List.getElem_cons_zero]
    | succ i =>
      rw [Nat.succ_mul, Nat.add_comm, ← List.drop_drop, List.drop_left' (h a),
        ih (Nat.lt_of_succ_lt_succ hi), List.getElem_cons_succ]

/-- Bytes are put together from their parts. -/
theorem flatMap_take_drop (size : Nat) (bytes : List UInt8) (n : Nat) :
    (List.range n).flatMap (fun i => (bytes.drop (i * size)).take size) =
      bytes.take (n * size) := by
  induction n with
  | zero => rw [Nat.zero_mul, List.take_zero, List.range_zero, List.flatMap_nil]
  | succ n ih =>
    rw [List.range_succ, List.flatMap_append, ih, List.flatMap_singleton, Nat.succ_mul,
      List.take_add]

end

theorem length_bytesAt {bytes : List UInt8} {start count : Nat} (h : start + count ≤ bytes.length) :
    (bytesAt bytes start count).length = count := by
  rw [bytesAt, List.length_take, List.length_drop]
  omega

def StandsAt (bytes content : List UInt8) (offset : Nat) : Prop :=
  offset ≤ content.length ∧ bytes <+: content.drop offset

namespace StandsAt

variable {bytes more content : List UInt8} {offset count : Nat}

theorem le (h : StandsAt bytes content offset) : offset + bytes.length ≤ content.length := by
  have hle := h.2.length_le
  rw [List.length_drop] at hle
  have := h.1
  omega

theorem bytesAt_eq (h : StandsAt bytes content offset) :
    bytesAt content offset bytes.length = bytes :=
  (List.prefix_iff_eq_take.mp h.2).symm

/-- Bytes that are cut out of the content stand where they were cut out. -/
theorem of_bytesAt (h : offset + count ≤ content.length) :
    StandsAt (bytesAt content offset count) content offset :=
  ⟨by omega, List.take_prefix _ _⟩

/-- One part stands behind the other. -/
theorem append_iff : StandsAt (bytes ++ more) content offset ↔
    StandsAt bytes content offset ∧ StandsAt more content (offset + bytes.length) := by
  constructor
  · intro h
    have hle := h.le
    rw [List.length_append] at hle
    obtain ⟨hoffset, rest, hrest⟩ := h
    have hdrop : content.drop (offset + bytes.length) = more ++ rest := by
      rw [← List.drop_drop, ← hrest, List.append_assoc, List.drop_left]
    refine ⟨⟨hoffset, more ++ rest, ?_⟩, ⟨by omega, rest, hdrop.symm⟩⟩
    rw [← hrest, List.append_assoc]
  · rintro ⟨hbytes, hmore⟩
    obtain ⟨hoffset, rest, hrest⟩ := hbytes
    obtain ⟨_, last, hlast⟩ := hmore
    rw [← List.drop_drop, ← hrest, List.drop_left] at hlast
    refine ⟨hoffset, last, ?_⟩
    rw [← hrest, ← hlast, List.append_assoc]

theorem zero_iff : StandsAt bytes content 0 ↔ bytes <+: content := by
  simp [StandsAt]

/-- Bytes that stand at the start and reach the end are all there is. -/
theorem eq_content (h : StandsAt bytes content 0) (hle : content.length ≤ bytes.length) :
    bytes = content :=
  (zero_iff.mp h).eq_of_length_le hle

end StandsAt

namespace Source

/-- The source has the length of `content`, and every read inside it succeeds and gives the bytes
that stand there. -/
structure Holds (source : Source) (content : List UInt8) : Prop where
  length_eq : source.length = content.length
  read_eq : ∀ offset count, offset + count ≤ content.length →
    ∃ bytes, source.read offset count = .ok bytes ∧
      bytes.data.toList = bytesAt content offset count

namespace Holds

variable {source : Source} {content : List UInt8} {offset count : Nat}

theorem hasSection_iff (h : source.Holds content) :
    source.hasSection offset count = true ↔ offset + count ≤ content.length := by
  constructor
  · intro hs
    rw [← h.length_eq]
    exact (Source.hasSection_iff.mp hs).2
  · intro hle
    obtain ⟨bytes, hread, _⟩ := h.read_eq offset count hle
    unfold Source.read at hread
    split at hread
    · assumption
    · cases hread

/-- Reading succeeds with the bytes that stand there and in no other way. -/
theorem read_iff (h : source.Holds content) {bytes : ByteArray} :
    source.read offset count = .ok bytes ↔
      bytes.size = count ∧ StandsAt bytes.data.toList content offset := by
  constructor
  · intro hread
    have hle : offset + count ≤ content.length := by
      rw [← h.length_eq]
      exact le_of_read hread
    obtain ⟨found, hfound, hbytes⟩ := h.read_eq offset count hle
    obtain rfl : bytes = found := by simpa [hread] using hfound
    rw [hbytes]
    exact ⟨size_read hread, .of_bytesAt hle⟩
  · rintro ⟨rfl, hstands⟩
    obtain ⟨found, hfound, hbytes⟩ := h.read_eq offset bytes.size hstands.le
    have hsame : bytes.data.toList = found.data.toList :=
      hstands.bytesAt_eq.symm.trans hbytes.symm
    rw [hfound, ByteArray.ext (Array.toList_inj.mp hsame)]

/-- Bytes in memory are held as they are, as far as 64 bits can tell their number. -/
theorem ofBytes (name : String) {data : ByteArray} (h : data.size ≤ maxWord) :
    (Source.ofBytes name data).Holds data.data.toList where
  length_eq := Array.length_toList.symm
  read_eq offset count hle := by
    have hsize : offset + count ≤ data.size := by rwa [Array.length_toList] at hle
    have hsection : (Source.ofBytes name data).hasSection offset count = true :=
      Source.hasSection_iff.mpr ⟨by omega, hsize⟩
    refine ⟨data.extract offset (offset + count), ?_, ?_⟩
    · rw [Source.read, if_pos hsection]
      rfl
    · rw [ByteArray.data_extract, Array.toList_extract, List.extract_eq_take_drop,
        Nat.add_sub_cancel_left, bytesAt]

end Holds
end Source
end ImageAudit
