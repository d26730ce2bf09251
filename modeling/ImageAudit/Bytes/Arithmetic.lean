/-! Counting in 64 bits. -/
namespace ImageAudit

/-- The least number of parts of size `size` that cover `total`. -/
def ceilDiv (total size : Nat) : Nat := (total + size - 1) / size

/-- There are as many parts as begin inside the total. -/
theorem lt_ceilDiv_iff {total size i : Nat} (h : 0 < size) :
    i < ceilDiv total size ↔ i * size < total := by
  rw [ceilDiv, Nat.lt_iff_add_one_le, Nat.le_div_iff_mul_le h, Nat.succ_mul]
  omega

theorem ceilDiv_le_iff {total size n : Nat} (h : 0 < size) :
    ceilDiv total size ≤ n ↔ total ≤ n * size := by
  rw [← Nat.not_lt, lt_ceilDiv_iff h, Nat.not_lt]

theorem ceilDiv_pos {total size : Nat} (htotal : 0 < total) (hsize : 0 < size) :
    0 < ceilDiv total size :=
  (lt_ceilDiv_iff hsize).mpr (by rwa [Nat.zero_mul])

def maxWord : Nat := 0xFFFFFFFFFFFFFFFF

def saturate (n : Nat) : Nat := min n maxWord

/-- A factor that does not fit is lost in the product all the same. -/
theorem saturate_mul (n m : Nat) : saturate (saturate n * m) = saturate (n * m) := by
  rcases Nat.eq_zero_or_pos m with rfl | hpos
  · simp
  · have hfactor : n ≤ n * m := Nat.le_mul_of_pos_right n hpos
    have hmost : maxWord ≤ maxWord * m := Nat.le_mul_of_pos_right maxWord hpos
    rcases Nat.le_total n maxWord with hn | hn
    · rw [saturate, saturate, Nat.min_eq_left hn, saturate]
    · rw [saturate, saturate, saturate, Nat.min_eq_right hn]
      omega

end ImageAudit
