import ImageAudit.Jpeg.ScanData
import ImageAudit.Proofs.Jpeg.Bits

/-! The grammar of sequential scans. It derives the bit strings that code a block or a unit, and a
decoder gets through exactly the bits that are derived. -/
namespace ImageAudit.Jpeg.ScanData

structure Coding.Built (c : Coding) : Prop where
  dc : c.dc.Built
  ac : c.ac.Built

/-- A DC difference is coded by its category and as many bits of magnitude. -/
inductive DcBits (t : Huffman.Table) : (bits : List Bool) → Prop where
  | difference {category : UInt8} {code magnitude : List Bool}
      (hcode : t.Codeword category code) (hcategory : category.toNat ≤ maxCategory)
      (hmagnitude : magnitude.length = category.toNat) : DcBits t (code ++ magnitude)

/-- The coefficients from index `k` on, each behind a run of zeros. The block is full, or it is
ended early; sixteen zeros may stand alone, and nothing reaches beyond the block. -/
inductive AcBits (t : Huffman.Table) : (k : Nat) → (bits : List Bool) → Prop where
  | full : AcBits t blockSize []
  | endOfBlock {k : Nat} {symbol : UInt8} {code : List Bool} (hk : k < blockSize)
      (hcode : t.Codeword symbol code) (hcategory : symbol.toNat % 16 = 0)
      (hrun : symbol.toNat / 16 ≠ 15) : AcBits t k code
  | zeros {k : Nat} {symbol : UInt8} {code more : List Bool} (hk : k + 16 ≤ blockSize)
      (hcode : t.Codeword symbol code) (hcategory : symbol.toNat % 16 = 0)
      (hrun : symbol.toNat / 16 = 15) (hmore : AcBits t (k + 16) more) : AcBits t k (code ++ more)
  | coefficient {k : Nat} {symbol : UInt8} {code magnitude more : List Bool}
      (hk : k + symbol.toNat / 16 < blockSize) (hcode : t.Codeword symbol code)
      (hcategory : symbol.toNat % 16 ≠ 0) (hmagnitude : magnitude.length = symbol.toNat % 16)
      (hmore : AcBits t (k + symbol.toNat / 16 + 1) more) : AcBits t k (code ++ (magnitude ++ more))

inductive BlockBits (c : Coding) : (bits : List Bool) → Prop where
  | block {dc ac : List Bool} (hdc : DcBits c.dc dc) (hac : AcBits c.ac 1 ac) :
      BlockBits c (dc ++ ac)

inductive UnitBits : (blocks : List Coding) → (bits : List Bool) → Prop where
  | nil : UnitBits [] []
  | cons {c : Coding} {blocks : List Coding} {bits more : List Bool} (hblock : BlockBits c bits)
      (hmore : UnitBits blocks more) : UnitBits (c :: blocks) (bits ++ more)

inductive UnitsBits (blocks : List Coding) : (units : Nat) → (bits : List Bool) → Prop where
  | zero : UnitsBits blocks 0 []
  | succ {units : Nat} {bits more : List Bool} (hunit : UnitBits blocks bits)
      (hmore : UnitsBits blocks units more) : UnitsBits blocks (units + 1) (bits ++ more)

open BitReader (Takes takes_append)

private theorem readCoefficient_iff {size : Nat} {r s : BitReader} :
    (∃ value, readCoefficient size r = (.ok value, s)) ↔
      ∃ taken, taken.length = size ∧ Takes taken r s := by
  rw [← BitReader.receive_iff]
  rw [readCoefficient]
  constructor
  · intro hcoded
    rcases hcoded with ⟨value, h⟩
    cases hreceive : r.receive size with
    | mk result u =>
      rw [hreceive] at h
      obtain ⟨hresult, rfl⟩ := Prod.mk.inj h
      cases result with
      | error e => cases hresult
      | ok received => exact ⟨received, rfl⟩
  · intro hcoded
    rcases hcoded with ⟨value, h⟩
    rw [h]
    exact ⟨_, rfl⟩

theorem decodeDc_iff {t : Huffman.Table} (h : t.Built) {r s : BitReader} :
    decodeDc t r = (.ok (), s) ↔ ∃ bits, DcBits t bits ∧ Takes bits r s := by
  rw [decodeDc]
  constructor
  · intro hdecode
    split at hdecode
    · cases (Prod.mk.inj hdecode).1
    · next category u hcategory =>
      obtain ⟨code, hcode, hcodeTakes⟩ := (BitReader.decode_iff h).mp hcategory
      split at hdecode
      · cases (Prod.mk.inj hdecode).1
      · next hle =>
        split at hdecode
        · cases (Prod.mk.inj hdecode).1
        · next value v hvalue =>
          obtain ⟨_, rfl⟩ := Prod.mk.inj hdecode
          obtain ⟨magnitude, hlength, htakes⟩ := readCoefficient_iff.mp ⟨value, hvalue⟩
          refine ⟨code ++ magnitude, .difference hcode (Nat.le_of_not_lt hle) hlength, ?_⟩
          exact takes_append.mpr ⟨u, hcodeTakes, htakes⟩
  · intro hcoded
    rcases hcoded with ⟨_, ⟨hcode, hle, hlength⟩, htakes⟩
    obtain ⟨u, hcodeTakes, hmagnitude⟩ := takes_append.mp htakes
    obtain ⟨value, hvalue⟩ := readCoefficient_iff.mpr ⟨_, hlength, hmagnitude⟩
    rw [(BitReader.decode_iff h).mpr ⟨_, hcode, hcodeTakes⟩]
    dsimp only
    rw [if_neg (Nat.not_lt.mpr hle), hvalue]

/-- What is decoded is a derivation: each symbol that is read is one of its rules. -/
private theorem acBits_of_decodeAc {t : Huffman.Table} (h : t.Built) {k : Nat} (hk : k ≤ blockSize)
    {r s : BitReader} (hdecode : decodeAc t k r = (.ok (), s)) :
    ∃ bits, AcBits t k bits ∧ Takes bits r s := by
  induction hn : blockSize - k using Nat.strongRecOn generalizing k r with
  | ind n ih =>
    rw [decodeAc] at hdecode
    split at hdecode
    · next hlt =>
      split at hdecode
      · cases (Prod.mk.inj hdecode).1
      · next symbol u hsymbol =>
        obtain ⟨code, hcode, hcodeTakes⟩ := (BitReader.decode_iff h).mp hsymbol
        dsimp only at hdecode
        split at hdecode
        · next hcategory =>
          split at hdecode
          · next hrun =>
            split at hdecode
            · cases (Prod.mk.inj hdecode).1
            · next hle =>
              have hle := Nat.le_of_not_lt hle
              obtain ⟨more, hmore, htakes⟩ := ih _ (by omega) hle hdecode rfl
              refine ⟨code ++ more, .zeros hle hcode hcategory hrun hmore, ?_⟩
              exact takes_append.mpr ⟨u, hcodeTakes, htakes⟩
          · next hrun =>
            obtain ⟨_, rfl⟩ := Prod.mk.inj hdecode
            exact ⟨code, .endOfBlock hlt hcode hcategory hrun, hcodeTakes⟩
        · next hcategory =>
          split at hdecode
          · cases (Prod.mk.inj hdecode).1
          · next hinside =>
            split at hdecode
            · cases (Prod.mk.inj hdecode).1
            · next value v hvalue =>
              have hinside := Nat.lt_of_not_le hinside
              obtain ⟨magnitude, hlength, hmagnitude⟩ := readCoefficient_iff.mp ⟨value, hvalue⟩
              obtain ⟨more, hmore, htakes⟩ := ih _ (by omega) hinside hdecode rfl
              refine ⟨code ++ (magnitude ++ more),
                .coefficient hinside hcode hcategory hlength hmore, ?_⟩
              exact takes_append.mpr ⟨u, hcodeTakes, takes_append.mpr ⟨v, hmagnitude, htakes⟩⟩
    · next hfull =>
      obtain ⟨_, rfl⟩ := Prod.mk.inj hdecode
      obtain rfl : k = blockSize := Nat.le_antisymm hk (Nat.le_of_not_lt hfull)
      exact ⟨[], .full, rfl⟩

/-- The rules of a derivation are decoded one after another. -/
private theorem decodeAc_of_acBits {t : Huffman.Table} (h : t.Built) {k : Nat} {bits : List Bool}
    (hbits : AcBits t k bits) {r s : BitReader} (htakes : Takes bits r s) :
    decodeAc t k r = (.ok (), s) := by
  induction hbits generalizing r with
  | full =>
    obtain rfl : s = r := htakes
    rw [decodeAc]
    rw [if_neg (Nat.lt_irrefl _)]
  | endOfBlock hk hcode hcategory hrun =>
    rw [decodeAc]
    rw [if_pos hk, (BitReader.decode_iff h).mpr ⟨_, hcode, htakes⟩]
    dsimp only
    rw [if_pos hcategory, if_neg hrun]
  | zeros hk hcode hcategory hrun _ ih =>
    obtain ⟨u, hcodeTakes, hmore⟩ := takes_append.mp htakes
    rw [decodeAc]
    rw [if_pos (by omega), (BitReader.decode_iff h).mpr ⟨_, hcode, hcodeTakes⟩]
    dsimp only
    rw [if_pos hcategory, if_pos hrun, if_neg (Nat.not_lt.mpr hk)]
    exact ih hmore
  | coefficient hk hcode hcategory hlength _ ih =>
    obtain ⟨u, hcodeTakes, hrest⟩ := takes_append.mp htakes
    obtain ⟨v, hmagnitude, hmore⟩ := takes_append.mp hrest
    obtain ⟨value, hvalue⟩ := readCoefficient_iff.mpr ⟨_, hlength, hmagnitude⟩
    rw [decodeAc]
    rw [if_pos (by omega), (BitReader.decode_iff h).mpr ⟨_, hcode, hcodeTakes⟩]
    dsimp only
    rw [if_neg hcategory, if_neg (Nat.not_le.mpr hk), hvalue]
    exact ih hmore

theorem decodeAc_iff {t : Huffman.Table} (h : t.Built) {k : Nat} (hk : k ≤ blockSize)
    {r s : BitReader} :
    decodeAc t k r = (.ok (), s) ↔ ∃ bits, AcBits t k bits ∧ Takes bits r s :=
  ⟨acBits_of_decodeAc h hk, fun ⟨_, hbits, htakes⟩ => decodeAc_of_acBits h hbits htakes⟩

theorem decodeBlock_iff {c : Coding} (h : c.Built) {r s : BitReader} :
    decodeBlock c r = (.ok (), s) ↔ ∃ bits, BlockBits c bits ∧ Takes bits r s := by
  rw [decodeBlock]
  constructor
  · intro hdecode
    split at hdecode
    · cases (Prod.mk.inj hdecode).1
    · next u hfirst =>
      obtain ⟨dc, hdc, hdcTakes⟩ := (decodeDc_iff h.dc).mp hfirst
      obtain ⟨ac, hac, hacTakes⟩ := (decodeAc_iff h.ac (by decide)).mp hdecode
      exact ⟨dc ++ ac, .block hdc hac, takes_append.mpr ⟨u, hdcTakes, hacTakes⟩⟩
  · intro hcoded
    rcases hcoded with ⟨_, ⟨hdc, hac⟩, htakes⟩
    obtain ⟨u, hdcTakes, hacTakes⟩ := takes_append.mp htakes
    rw [(decodeDc_iff h.dc).mpr ⟨_, hdc, hdcTakes⟩]
    exact (decodeAc_iff h.ac (by decide)).mpr ⟨_, hac, hacTakes⟩

/-- A unit is decoded exactly from bits that code all its blocks. -/
theorem decodeUnit_iff {blocks : List Coding} (h : ∀ c ∈ blocks, c.Built) {r s : BitReader} :
    decodeUnit blocks r = (.ok (), s) ↔ ∃ bits, UnitBits blocks bits ∧ Takes bits r s := by
  induction blocks generalizing r with
  | nil =>
    constructor
    · intro hdecode
      obtain ⟨_, rfl⟩ := Prod.mk.inj hdecode
      exact ⟨[], .nil, rfl⟩
    · intro hcoded
      rcases hcoded with ⟨_, ⟨⟩, htakes⟩
      obtain rfl : s = r := htakes
      rfl
  | cons c blocks ih =>
    have hc := h c List.mem_cons_self
    have ih {r : BitReader} := ih (r := r) fun c hmem => h c (List.mem_cons_of_mem _ hmem)
    rw [decodeUnit]
    constructor
    · intro hdecode
      split at hdecode
      · cases (Prod.mk.inj hdecode).1
      · next u hfirst =>
        obtain ⟨bits, hblock, htakes⟩ := (decodeBlock_iff hc).mp hfirst
        obtain ⟨more, hmore, hmoreTakes⟩ := ih.mp hdecode
        exact ⟨bits ++ more, .cons hblock hmore, takes_append.mpr ⟨u, htakes, hmoreTakes⟩⟩
    · intro hcoded
      rcases hcoded with ⟨_, hbits, htakes⟩
      cases hbits with
      | cons hblock hmore =>
        obtain ⟨u, hfirst, hmoreTakes⟩ := takes_append.mp htakes
        rw [(decodeBlock_iff hc).mpr ⟨_, hblock, hfirst⟩]
        exact ih.mpr ⟨_, hmore, hmoreTakes⟩

end ImageAudit.Jpeg.ScanData
