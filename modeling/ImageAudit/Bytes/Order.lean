/-! The two orders in which the bytes of an unsigned integer may be stored. -/
namespace ImageAudit

inductive ByteOrder where
  | littleEndian
  | bigEndian
deriving DecidableEq, Repr, Inhabited

namespace ByteOrder

/-- The integer whose base-256 digits are `digits`, most significant first. -/
def ofDigits (digits : List UInt8) : Nat :=
  digits.foldl (fun acc d => acc * 256 + d.toNat) 0

def toDigits : (width value : Nat) → List UInt8
  | 0, _ => []
  | width + 1, value => toDigits width (value / 256) ++ [UInt8.ofNat value]

def decode : ByteOrder → List UInt8 → Nat
  | .bigEndian, bytes => ofDigits bytes
  | .littleEndian, bytes => ofDigits bytes.reverse

def encode : ByteOrder → (width value : Nat) → List UInt8
  | .bigEndian, width, value => toDigits width value
  | .littleEndian, width, value => (toDigits width value).reverse

def name : ByteOrder → String
  | .littleEndian => "little-endian"
  | .bigEndian => "big-endian"

@[simp] theorem length_toDigits (width value : Nat) : (toDigits width value).length = width := by
  induction width generalizing value with
  | zero => rfl
  | succ width ih => simp [toDigits, ih]

@[simp] theorem length_encode (order : ByteOrder) (width value : Nat) :
    (order.encode width value).length = width := by
  cases order <;> simp [encode]

theorem ofDigits_append_singleton (digits : List UInt8) (d : UInt8) :
    ofDigits (digits ++ [d]) = ofDigits digits * 256 + d.toNat := by
  simp [ofDigits]

theorem ofDigits_toDigits (width value : Nat) (h : value < Nat.pow 256 width) :
    ofDigits (toDigits width value) = value := by
  induction width generalizing value with
  | zero =>
    have : value = 0 := by simpa using h
    subst this
    rfl
  | succ width ih =>
    have hq : value / 256 < Nat.pow 256 width := by
      have h : value < Nat.pow 256 width * 256 := h
      exact Nat.div_lt_of_lt_mul (by omega)
    rw [toDigits, ofDigits_append_singleton, ih _ hq, UInt8.toNat_ofNat']
    omega

private theorem foldl_lt (digits : List UInt8) (acc : Nat) :
    digits.foldl (fun acc d => acc * 256 + d.toNat) acc <
      (acc + 1) * Nat.pow 256 digits.length := by
  induction digits generalizing acc with
  | nil => simp
  | cons d digits ih =>
    have hd := d.toNat_lt
    have hstep : (acc * 256 + d.toNat + 1) * Nat.pow 256 digits.length ≤
        (acc + 1) * 256 * Nat.pow 256 digits.length := Nat.mul_le_mul_right _ (by omega)
    have hpow : Nat.pow 256 (digits.length + 1) = 256 * Nat.pow 256 digits.length :=
      Nat.pow_succ'
    rw [List.foldl_cons, List.length_cons, hpow, ← Nat.mul_assoc]
    exact Nat.lt_of_lt_of_le (ih _) hstep

/-- A stored integer takes no more than its bytes can hold. -/
theorem decode_lt (order : ByteOrder) (bytes : List UInt8) :
    order.decode bytes < Nat.pow 256 bytes.length := by
  cases order with
  | bigEndian => simpa [decode, ofDigits] using foldl_lt bytes 0
  | littleEndian => simpa [decode, ofDigits] using foldl_lt bytes.reverse 0

/-- Decoding reads back what encoding wrote, in either order. -/
theorem decode_encode (order : ByteOrder) (width value : Nat)
    (h : value < Nat.pow 256 width) :
    order.decode (order.encode width value) = value := by
  cases order <;> simp [decode, encode, ofDigits_toDigits width value h]

end ByteOrder
end ImageAudit
