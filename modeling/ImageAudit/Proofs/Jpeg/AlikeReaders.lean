import ImageAudit.Jpeg.ScanData

/-! Readers that are alike. What codes a unit is decoded from single bits, so readers that go on
giving the same bits decode the same, and nothing but a restart marker can tell them apart. -/
namespace ImageAudit.Jpeg

variable {R : BitReader → BitReader → Prop} {r s : BitReader}

/-- The same result, with readers that are still alike. -/
structure Agree {α : Type} (R : BitReader → BitReader → Prop) (x y : α × BitReader) : Prop where
  result : y.1 = x.1
  readers : R x.2 y.2

theorem Agree.exists_eq {α : Type} {x y : α × BitReader} (h : Agree R x y) :
    ∃ a r s, x = (a, r) ∧ y = (a, s) ∧ R r s :=
  ⟨x.1, x.2, y.2, rfl, Prod.ext h.result rfl, h.readers⟩

namespace BitReader

/-- Readers that are alike give the same bit and stay alike. -/
def Alike (R : BitReader → BitReader → Prop) : Prop :=
  ∀ r s, R r s → Agree R r.readBit s.readBit

variable (h : Alike R) (hr : R r s)

include h hr

theorem agree_receiveFrom (n value : Nat) :
    Agree R (receiveFrom n value r) (receiveFrom n value s) := by
  induction n generalizing value r s with
  | zero => exact ⟨rfl, hr⟩
  | succ n ih =>
    obtain ⟨bit, r', s', hfirst, hsecond, hr'⟩ := (h r s hr).exists_eq
    rw [receiveFrom, receiveFrom, hfirst, hsecond]
    cases bit with
    | error e => exact ⟨rfl, hr'⟩
    | ok bit => exact ih hr' _

theorem agree_receive (n : Nat) : Agree R (r.receive n) (s.receive n) := by
  obtain ⟨value, r', s', hfirst, hsecond, hr'⟩ := (agree_receiveFrom h hr n 0).exists_eq
  rw [receive, receive, hfirst, hsecond]
  exact ⟨rfl, hr'⟩

theorem agree_decodeFrom (t : Huffman.Table) (more length code : Nat) :
    Agree R (decodeFrom t more length code r) (decodeFrom t more length code s) := by
  induction more generalizing length code r s with
  | zero =>
    rw [decodeFrom, decodeFrom]
    split <;> exact ⟨rfl, hr⟩
  | succ more ih =>
    rw [decodeFrom, decodeFrom]
    split
    · exact ⟨rfl, hr⟩
    · obtain ⟨bit, r', s', hfirst, hsecond, hr'⟩ := (h r s hr).exists_eq
      rw [hfirst, hsecond]
      cases bit with
      | error e => exact ⟨rfl, hr'⟩
      | ok bit => exact ih hr' _ _

theorem agree_decode (t : Huffman.Table) : Agree R (r.decode t) (s.decode t) := by
  obtain ⟨bit, r', s', hfirst, hsecond, hr'⟩ := (h r s hr).exists_eq
  rw [decode, decode, hfirst, hsecond]
  cases bit with
  | error e => exact ⟨rfl, hr'⟩
  | ok bit => exact agree_decodeFrom h hr' t _ _ _

end BitReader

namespace ScanData

variable (h : BitReader.Alike R) (hr : R r s)

include h hr

theorem agree_readCoefficient (size : Nat) :
    Agree R (readCoefficient size r) (readCoefficient size s) := by
  obtain ⟨value, r', s', hfirst, hsecond, hr'⟩ := (BitReader.agree_receive h hr size).exists_eq
  rw [readCoefficient, readCoefficient, hfirst, hsecond]
  exact ⟨rfl, hr'⟩

theorem agree_decodeDc (t : Huffman.Table) : Agree R (decodeDc t r) (decodeDc t s) := by
  obtain ⟨category, r', s', hfirst, hsecond, hr'⟩ := (BitReader.agree_decode h hr t).exists_eq
  rw [decodeDc, decodeDc, hfirst, hsecond]
  cases category with
  | error e => exact ⟨rfl, hr'⟩
  | ok category =>
    dsimp only
    split
    · exact ⟨rfl, hr'⟩
    · obtain ⟨value, r', s', hfirst, hsecond, hr'⟩ :=
        (agree_readCoefficient h hr' category.toNat).exists_eq
      rw [hfirst, hsecond]
      cases value <;> exact ⟨rfl, hr'⟩

theorem agree_decodeAc (t : Huffman.Table) (k : Nat) :
    Agree R (decodeAc t k r) (decodeAc t k s) := by
  induction hleft : blockSize - k using Nat.strongRecOn generalizing k r s with
  | ind left ih =>
    rw [decodeAc, decodeAc]
    split
    · obtain ⟨symbol, r', s', hfirst, hsecond, hr'⟩ := (BitReader.agree_decode h hr t).exists_eq
      rw [hfirst, hsecond]
      cases symbol with
      | error e => exact ⟨rfl, hr'⟩
      | ok symbol =>
        dsimp only
        split
        · split
          · split
            · exact ⟨rfl, hr'⟩
            · exact ih _ (by omega) hr' _ rfl
          · exact ⟨rfl, hr'⟩
        split
        · exact ⟨rfl, hr'⟩
        · obtain ⟨value, r', s', hfirst, hsecond, hr'⟩ :=
            (agree_readCoefficient h hr' (symbol.toNat % 16)).exists_eq
          rw [hfirst, hsecond]
          cases value with
          | error e => exact ⟨rfl, hr'⟩
          | ok value => exact ih _ (by omega) hr' _ rfl
    · exact ⟨rfl, hr⟩

theorem agree_decodeBlock (c : Coding) : Agree R (decodeBlock c r) (decodeBlock c s) := by
  obtain ⟨result, r', s', hfirst, hsecond, hr'⟩ := (agree_decodeDc h hr c.dc).exists_eq
  rw [decodeBlock, decodeBlock, hfirst, hsecond]
  cases result with
  | error e => exact ⟨rfl, hr'⟩
  | ok _ => exact agree_decodeAc h hr' c.ac 1

theorem agree_decodeUnit (blocks : List Coding) :
    Agree R (decodeUnit blocks r) (decodeUnit blocks s) := by
  induction blocks generalizing r s with
  | nil => exact ⟨rfl, hr⟩
  | cons c rest ih =>
    obtain ⟨result, r', s', hfirst, hsecond, hr'⟩ := (agree_decodeBlock h hr c).exists_eq
    rw [decodeUnit, decodeUnit, hfirst, hsecond]
    cases result with
    | error e => exact ⟨rfl, hr'⟩
    | ok _ => exact ih hr'

end ScanData

end ImageAudit.Jpeg
