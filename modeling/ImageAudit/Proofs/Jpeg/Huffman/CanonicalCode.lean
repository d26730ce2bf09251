import ImageAudit.Proofs.Jpeg.Huffman.Codebook
import Mathlib.Algebra.BigOperators.Intervals
import Mathlib.Algebra.BigOperators.Ring.Finset
import Mathlib.Algebra.Order.Field.Rat
import Mathlib.Data.List.GetD
import Mathlib.Order.Bounds.Basic
import Mathlib.Tactic.FieldSimp
import Mathlib.Tactic.Positivity
import Mathlib.Tactic.Ring

/-! Canonical codes. Counts make a table exactly if codes of these lengths leave a part of the code
space free, which is to say that their Kraft sum is below one, and otherwise the first length at
which there is no room is reported. The codes of a table are then numbered through in order of
length, no code begins with another, and each one leads to its symbol. -/
namespace ImageAudit.Jpeg.Huffman

open Finset (range sum_range_succ mul_sum sum_congr)

def numCodesOf (counts : List Nat) (length : Nat) : Nat :=
  if length = 0 then 0 else counts.getD (length - 1) 0

/-- How many numbers of `length` bits begin with a code of at most that length. -/
def occupied (counts : List Nat) (length : Nat) : Nat :=
  ∑ l ∈ range (length + 1), numCodesOf counts l * 2 ^ (length - l)

def kraftSum (counts : List Nat) : ℚ :=
  ∑ l ∈ range (maxLength + 1), (numCodesOf counts l : ℚ) / 2 ^ l

variable {counts : List Nat}

theorem occupied_zero (counts : List Nat) : occupied counts 0 = 0 := by
  simp [occupied, numCodesOf]

/-- With one more bit every number becomes two, and codes of the new length come in. -/
theorem occupied_succ (counts : List Nat) (length : Nat) :
    occupied counts (length + 1) = 2 * occupied counts length + counts.getD length 0 := by
  rw [occupied, sum_range_succ, occupied, mul_sum]
  congr 1
  · apply sum_congr rfl
    intro l hl
    have hle : l ≤ length := Nat.lt_succ_iff.mp (Finset.mem_range.mp hl)
    rw [Nat.succ_sub hle, pow_succ]
    ring
  · simp [numCodesOf]

/-- Numbers that are taken stay taken with more bits. -/
theorem occupied_mul_le (counts : List Nat) (length more : Nat) :
    occupied counts length * 2 ^ more ≤ occupied counts (length + more) := by
  induction more with
  | zero => simp
  | succ more ih =>
    rw [← Nat.add_assoc, occupied_succ, pow_succ, ← mul_assoc]
    omega

theorem occupied_eq (counts : List Nat) (length : Nat) :
    (occupied counts length : ℚ) =
      2 ^ length * ∑ l ∈ range (length + 1), (numCodesOf counts l : ℚ) / 2 ^ l := by
  rw [occupied, mul_sum, Nat.cast_sum]
  apply sum_congr rfl
  intro l hl
  have hle : l ≤ length := Nat.lt_succ_iff.mp (Finset.mem_range.mp hl)
  obtain ⟨n, rfl⟩ := Nat.exists_eq_add_of_le hle
  rw [Nat.add_sub_cancel_left, pow_add]
  push_cast
  field_simp

/-- The Kraft sum is below one exactly if a number of the greatest length is free. -/
theorem kraftSum_lt_one_iff : kraftSum counts < 1 ↔ occupied counts maxLength < 2 ^ maxLength := by
  have hpos : (0 : ℚ) < 2 ^ maxLength := by positivity
  have heq : (occupied counts maxLength : ℚ) = 2 ^ maxLength * kraftSum counts :=
    occupied_eq counts maxLength
  constructor
  · intro h
    have hlt : (occupied counts maxLength : ℚ) < 2 ^ maxLength := by
      rw [heq]
      exact mul_lt_of_lt_one_right hpos h
    exact_mod_cast hlt
  · intro h
    have hlt : (occupied counts maxLength : ℚ) < 2 ^ maxLength := by exact_mod_cast h
    rw [heq] at hlt
    exact (mul_lt_iff_lt_one_right hpos).mp hlt

/-- The codes of up to `length` bits leave none of these numbers free. -/
def Overflows (counts : List Nat) (length : Nat) : Prop := 2 ^ length ≤ occupied counts length

instance (counts : List Nat) (length : Nat) : Decidable (Overflows counts length) :=
  inferInstanceAs (Decidable (_ ≤ _))

/-- Where there is no room there is none for longer codes either. -/
theorem Overflows.add {length : Nat} (h : Overflows counts length) (more : Nat) :
    Overflows counts (length + more) := by
  refine le_trans ?_ (occupied_mul_le counts length more)
  rw [pow_add]
  exact Nat.mul_le_mul_right _ h

theorem exists_overflows_iff :
    (∃ length ≤ maxLength, Overflows counts length) ↔ ¬ kraftSum counts < 1 := by
  rw [kraftSum_lt_one_iff, not_lt]
  constructor
  · rintro ⟨length, hle, h⟩
    obtain ⟨more, hmore⟩ := Nat.exists_eq_add_of_le hle
    rw [hmore]
    exact h.add more
  · exact fun h => ⟨maxLength, le_rfl, h⟩

/-- Assignment goes on as long as there is room; the next code is the first number that is not
taken. -/
theorem assign_step {k lengths : Nat} (hk : k < counts.length) :
    assign (lengths + 1) (k + 1) (2 * occupied counts k) (sizesFrom k (counts.drop k)) =
      if Overflows counts (k + 1) then .error (.invalidCodeLengths (k + 1))
      else (assign lengths (k + 1 + 1) (2 * occupied counts (k + 1))
        (sizesFrom (k + 1) (counts.drop (k + 1)))).map
          (List.range' (2 * occupied counts k) counts[k] ++ ·) := by
  have hnext : 2 * occupied counts k + counts[k] = occupied counts (k + 1) := by
    rw [occupied_succ, List.getD_eq_getElem counts 0 hk]
  rw [List.drop_eq_getElem_cons hk, assign_cons, hnext, Nat.shiftLeft_eq, one_mul]
  rfl

/-- The first length without room is reported. -/
theorem assign_of_overflows {k lengths length : Nat} (hlengths : k + lengths = counts.length)
    (hk : k < length) (hlength : length ≤ counts.length) (hover : Overflows counts length)
    (hleast : ∀ l, k < l → l < length → ¬ Overflows counts l) :
    assign lengths (k + 1) (2 * occupied counts k) (sizesFrom k (counts.drop k)) =
      .error (.invalidCodeLengths length) := by
  induction lengths generalizing k with
  | zero => omega
  | succ lengths ih =>
    rw [assign_step (by omega)]
    by_cases hnow : length = k + 1
    · subst hnow
      rw [if_pos hover]
    · rw [if_neg (hleast (k + 1) (by omega) (by omega)),
        ih (by omega) (by omega) fun l hl => hleast l (by omega)]
      rfl

/-- If there is room at every length, all codes are assigned. -/
theorem exists_assign {k lengths : Nat} (hlengths : k + lengths = counts.length)
    (hroom : ∀ l, k < l → l ≤ counts.length → ¬ Overflows counts l) :
    ∃ codes, assign lengths (k + 1) (2 * occupied counts k) (sizesFrom k (counts.drop k)) =
      .ok codes := by
  induction lengths generalizing k with
  | zero => exact ⟨[], rfl⟩
  | succ lengths ih =>
    obtain ⟨codes, hcodes⟩ := ih (k := k + 1) (by omega) fun l hl => hroom l (by omega)
    rw [assign_step (by omega), if_neg (hroom (k + 1) (by omega) (by omega)), hcodes]
    exact ⟨_, rfl⟩

/-- Codes are assigned only if there is room at every length. -/
theorem not_overflows_of_assign {k lengths l : Nat} {codes : List Nat}
    (hlengths : k + lengths = counts.length)
    (h : assign lengths (k + 1) (2 * occupied counts k) (sizesFrom k (counts.drop k)) = .ok codes)
    (hl : k < l) (hle : l ≤ counts.length) : ¬ Overflows counts l := by
  induction lengths generalizing k codes with
  | zero => omega
  | succ lengths ih =>
    rw [assign_step (by omega)] at h
    split at h
    · cases h
    · next hroom =>
      cases hrest : assign lengths (k + 1 + 1) (2 * occupied counts (k + 1))
          (sizesFrom (k + 1) (counts.drop (k + 1))) with
      | error e =>
        rw [hrest] at h
        cases h
      | ok rest =>
        by_cases hnow : l = k + 1
        · exact hnow ▸ hroom
        · exact ih (by omega) hrest (by omega)

/-- Each length is listed as often as there are codes of it. -/
theorem count_sizesFrom (k length : Nat) (counts : List Nat) :
    (sizesFrom k counts).count length =
      if length ≤ k then 0 else counts.getD (length - k - 1) 0 := by
  induction counts generalizing k with
  | nil => simp [sizesFrom]
  | cons count counts ih =>
    rw [sizesFrom_cons, List.count_append, List.count_replicate, ih]
    by_cases hnow : k + 1 = length
    · subst hnow
      simp
    · rw [if_neg (by simpa using hnow), Nat.zero_add]
      by_cases hle : length ≤ k
      · rw [if_pos hle, if_pos (Nat.le_succ_of_le hle)]
      · obtain ⟨m, rfl⟩ := Nat.exists_eq_add_of_lt (show k + 1 < length by omega)
        rw [if_neg hle, if_neg (by omega), show k + 1 + m + 1 - k - 1 = m + 1 by omega,
          show k + 1 + m + 1 - (k + 1) - 1 = m by omega, List.getD_cons_succ]

theorem pairwise_sizesFrom (k : Nat) (counts : List Nat) :
    (sizesFrom k counts).Pairwise (· ≤ ·) := by
  induction counts generalizing k with
  | nil => exact List.Pairwise.nil
  | cons count counts ih =>
    rw [sizesFrom_cons, List.pairwise_append]
    refine ⟨List.pairwise_replicate.mpr (.inr le_rfl), ih (k + 1), ?_⟩
    intro size hsize later hlater
    rw [(List.mem_replicate.mp hsize).2]
    exact (lt_of_mem_sizesFrom hlater).le

/-- The first code is the shifted starting number. -/
theorem first_of_assign {k first length code : Nat} {codes : List Nat}
    (h : assign counts.length (k + 1) first (sizesFrom k counts) = .ok codes)
    (hcode : CodeAt (sizesFrom k counts) codes 0 length code) :
    code = first * 2 ^ (length - (k + 1)) := by
  induction counts generalizing k first codes with
  | nil => cases hcode.1
  | cons count counts ih =>
    obtain ⟨_, rest, rfl, hrest⟩ := assign_sizesFrom h
    rw [sizesFrom_cons, codeAt_append] at hcode
    rcases hcode with ⟨_, rfl, rfl⟩ | ⟨hcount, hlater⟩
    · simp
    · obtain rfl := Nat.le_zero.mp hcount
      have hlt := lt_of_mem_sizesFrom (List.mem_of_getElem? hlater.1)
      obtain ⟨m, rfl⟩ := Nat.exists_eq_add_of_lt hlt
      rw [ih hrest hlater, show k + 1 + m + 1 - (k + 1) = m + 1 by omega,
        show k + 1 + m + 1 - (k + 1 + 1) = m by omega, pow_succ]
      ring

/-- The next code is the next number, shifted to the next length. -/
theorem next_of_assign {k first i length code length' code' : Nat} {codes : List Nat}
    (h : assign counts.length (k + 1) first (sizesFrom k counts) = .ok codes)
    (hcode : CodeAt (sizesFrom k counts) codes i length code)
    (hnext : CodeAt (sizesFrom k counts) codes (i + 1) length' code') :
    code' = (code + 1) * 2 ^ (length' - length) := by
  induction counts generalizing k first codes i with
  | nil => cases hcode.1
  | cons count counts ih =>
    obtain ⟨_, rest, rfl, hrest⟩ := assign_sizesFrom h
    rw [sizesFrom_cons, codeAt_append] at hcode hnext
    rcases hcode with ⟨hi, rfl, rfl⟩ | ⟨hi, hcode⟩
    · rcases hnext with ⟨_, rfl, rfl⟩ | ⟨hi', hnext⟩
      · rw [Nat.sub_self]
        omega
      · -- the last code of its length, and the first one of the lengths behind it
        obtain rfl : i + 1 = count := by omega
        rw [Nat.sub_self] at hnext
        have hlt := lt_of_mem_sizesFrom (List.mem_of_getElem? hnext.1)
        obtain ⟨m, rfl⟩ := Nat.exists_eq_add_of_lt hlt
        rw [first_of_assign hrest hnext, show k + 1 + m + 1 - (k + 1) = m + 1 by omega,
          show k + 1 + m + 1 - (k + 1 + 1) = m by omega, pow_succ]
        ring
    · rcases hnext with ⟨hi', _⟩ | ⟨_, hnext⟩
      · omega
      · rw [Nat.sub_add_comm hi] at hnext
        exact ih hrest hcode hnext

def spell (length code : Nat) : List Bool :=
  (List.range length).map fun i => code.testBit (length - 1 - i)

@[simp] theorem length_spell (length code : Nat) : (spell length code).length = length := by
  simp [spell]

theorem spell_succ (length code : Nat) :
    spell (length + 1) code = spell length (code / 2) ++ [code.testBit 0] := by
  rw [spell, List.range_succ, List.map_append, List.map_singleton, spell]
  congr 1
  · apply List.map_congr_left
    intro i hi
    have hlt := List.mem_range.mp hi
    rw [← Nat.testBit_succ]
    congr 1
    omega
  · simp

/-- A code is the number that its bits spell. -/
theorem valueFrom_spell {length code : Nat} (h : code < 2 ^ length) :
    valueFrom 0 (spell length code) = code := by
  induction length generalizing code with
  | zero =>
    obtain rfl : code = 0 := by simpa using h
    rfl
  | succ length ih =>
    have hhalf : code / 2 < 2 ^ length := by
      rw [pow_succ] at h
      omega
    have hshort := ih hhalf
    rw [valueFrom] at hshort ⊢
    rw [spell_succ, List.foldl_append, hshort, List.foldl_cons, List.foldl_nil, Nat.testBit_zero]
    rcases Nat.mod_two_eq_zero_or_one code with hmod | hmod <;> simp [hmod] <;> omega

/-- What begins with a code is one of the numbers that begin with it. -/
theorem bounds_of_spell_isPrefix {length code length' code' : Nat} (hcode : code < 2 ^ length)
    (hcode' : code' < 2 ^ length') (h : spell length code <+: spell length' code') :
    length ≤ length' ∧ code * 2 ^ (length' - length) ≤ code' ∧
      code' < (code + 1) * 2 ^ (length' - length) := by
  obtain ⟨bits, hbits⟩ := h
  have hlength := congrArg List.length hbits
  rw [List.length_append, length_spell, length_spell] at hlength
  have hvalue : valueFrom code bits = code' := by
    rw [← valueFrom_spell hcode', ← hbits, valueFrom_append, valueFrom_spell hcode]
  have hmore : bits.length = length' - length := by omega
  have hle := le_valueFrom code bits
  have hlt := valueFrom_lt code bits
  rw [hvalue, Nat.shiftLeft_eq, hmore] at hle hlt
  exact ⟨by omega, hle, hlt⟩

/-- No code begins with the code of another symbol. -/
theorem prefixFree_of_assign {k first i j length code length' code' : Nat} {codes : List Nat}
    (h : assign counts.length (k + 1) first (sizesFrom k counts) = .ok codes)
    (hcode : CodeAt (sizesFrom k counts) codes i length code)
    (hcode' : CodeAt (sizesFrom k counts) codes j length' code')
    (hle : length ≤ length') (hlower : code * 2 ^ (length' - length) ≤ code')
    (hupper : code' < (code + 1) * 2 ^ (length' - length)) : i = j := by
  obtain ⟨m, g, hg, rfl, hfirst, hlast, hi⟩ := (assign_inGroup h 0 i length code).mp hcode
  obtain ⟨n, g', hg', rfl, hfirst', hlast', hj⟩ := (assign_inGroup h 0 j length' code').mp hcode'
  obtain ⟨d, rfl⟩ := Nat.exists_eq_add_of_le (show m ≤ n by omega)
  cases d with
  | zero =>
    obtain rfl := Option.some.inj (hg.symm.trans hg')
    simp only [Nat.add_zero, Nat.sub_self, pow_zero, mul_one] at hlower hupper
    omega
  | succ d =>
    -- all longer codes lie behind the last one of this length
    have hbehind := mul_le_first_of_groupsFrom hg hg'
    have hmul := Nat.mul_le_mul_right (2 ^ (d + 1)) (show code + 1 ≤ g.first + g.count by omega)
    rw [Nat.shiftLeft_eq] at hbehind
    rw [show k + 1 + (m + (d + 1)) - (k + 1 + m) = d + 1 by omega] at hupper
    omega

namespace Table

/-- What makes the codes of a table the canonical ones for its counts. -/
structure CanonicallyCoded (t : Table) (counts : List Nat) (symbols : Array UInt8) : Prop where
  counts_eq : t.counts = counts
  symbols_eq : t.symbols = symbols
  /-- Each length is listed as often as there are codes of it, … -/
  count_sizes : ∀ length, t.sizes.count length = numCodesOf counts length
  /-- … in ascending order. -/
  ascending : t.sizes.Pairwise (· ≤ ·)
  length_codes : t.codes.length = t.sizes.length
  /-- A code fits its length and is not all ones. -/
  fits : ∀ i length code, CodeAt t.sizes t.codes i length code → code + 1 < 2 ^ length
  first : ∀ length code, CodeAt t.sizes t.codes 0 length code → code = 0
  /-- The next code is the next number, shifted if it is longer. -/
  next : ∀ i length code length' code', CodeAt t.sizes t.codes i length code →
    CodeAt t.sizes t.codes (i + 1) length' code' → code' = (code + 1) * 2 ^ (length' - length)
  prefixFree : ∀ i j length code length' code', CodeAt t.sizes t.codes i length code →
    CodeAt t.sizes t.codes j length' code' → i ≠ j → ¬ spell length code <+: spell length' code'
  symbol : ∀ length code symbol, t.symbol? length code = some symbol ↔
    ∃ i : Nat, t.symbols[i]? = some symbol ∧ CodeAt t.sizes t.codes i length code
  /-- The largest code of a length is known, and of a length without codes there is -1. -/
  maxCode : ∀ length,
    (∃ code, IsGreatest {c | ∃ i, CodeAt t.sizes t.codes i length c} code ∧
      t.maxCode length = code) ∨
    ((∀ i code, ¬ CodeAt t.sizes t.codes i length code) ∧ t.maxCode length = -1)

variable {t : Table}

/-- The largest code of a length is the last one of its group. -/
theorem Built.maxCode_cases (h : t.Built) (length : Nat) :
    (∃ code, IsGreatest {c | ∃ i, CodeAt t.sizes t.codes i length c} code ∧
      t.maxCode length = code) ∨
    ((∀ i code, ¬ CodeAt t.sizes t.codes i length code) ∧ t.maxCode length = -1) := by
  obtain ⟨counts, hassign, hsizes, _, _, hgroup⟩ := h.parts
  simp only [hsizes, assign_inGroup hassign 0]
  rw [maxCode]
  cases length with
  | zero =>
    refine .inr ⟨?_, rfl⟩
    rintro i code ⟨m, _, _, hlength, _⟩
    omega
  | succ m =>
    rw [hgroup]
    cases hg : (groupsFrom 0 0 counts)[m]? with
    | none =>
      refine .inr ⟨?_, rfl⟩
      rintro i code ⟨n, g, hg', hlength, _⟩
      obtain rfl : n = m := by omega
      cases hg.symm.trans hg'
    | some g =>
      dsimp only
      by_cases hcount : g.count = 0
      · refine .inr ⟨?_, if_pos hcount⟩
        rintro i code ⟨n, g', hg', hlength, hle, hlt, _⟩
        obtain rfl : n = m := by omega
        obtain rfl := Option.some.inj (hg.symm.trans hg')
        omega
      · refine .inl ⟨g.first + g.count - 1, ⟨?_, ?_⟩, if_neg hcount⟩
        · exact ⟨g.start + (g.count - 1), m, g, hg, by omega, by omega, by omega, by omega⟩
        · rintro code ⟨i, n, g', hg', hlength, hle, hlt, _⟩
          obtain rfl : n = m := by omega
          obtain rfl := Option.some.inj (hg.symm.trans hg')
          omega

/-- A table that was built has the canonical codes of its counts. -/
theorem canonicallyCoded_of_build {tableClass id : Nat} {symbols : Array UInt8}
    (hcounts : counts.length = maxLength) (hsymbols : symbols.size = total counts)
    (h : build tableClass id counts symbols = .ok t) : t.CanonicallyCoded counts symbols := by
  have hbuilt : t.Built := ⟨tableClass, id, counts, symbols, hcounts, hsymbols, h⟩
  obtain ⟨_, codes, hcodes, rfl⟩ := eq_of_build h
  have hassign : assign counts.length (0 + 1) 0 (sizesFrom 0 counts) = .ok codes :=
    hcounts.symm ▸ hcodes
  have hfits : ∀ i length code, CodeAt (sizesFrom 0 counts) codes i length code →
      code + 1 < 2 ^ length := by
    intro i length code hcode
    obtain ⟨m, g, hg, rfl, _, hlt, _⟩ := (assign_inGroup hassign 0 i length code).mp hcode
    have hroom := fits_of_assign hassign hg
    rw [Nat.shiftLeft_eq, one_mul] at hroom
    omega
  refine ⟨rfl, rfl, ?_, pairwise_sizesFrom 0 counts, length_codes_of_assign hassign, hfits, ?_, ?_,
    ?_, fun length code symbol => hbuilt.symbol?_eq_some_iff, hbuilt.maxCode_cases⟩
  · intro length
    rw [numCodesOf, show Huffman.sizes counts = sizesFrom 0 counts from rfl, count_sizesFrom]
    simp only [Nat.le_zero, Nat.sub_zero]
  · intro length code hcode
    rw [first_of_assign hassign hcode, Nat.zero_mul]
  · exact fun i length code length' code' => next_of_assign hassign
  · intro i j length code length' code' hcode hcode' hne hshort
    obtain ⟨hle, hlower, hupper⟩ := bounds_of_spell_isPrefix
      (Nat.lt_of_succ_lt (hfits _ _ _ hcode)) (Nat.lt_of_succ_lt (hfits _ _ _ hcode')) hshort
    exact hne (prefixFree_of_assign hassign hcode hcode' hle hlower hupper)

theorem build_eq_map_assign (tableClass id : Nat) {counts : List Nat} (symbols : Array UInt8)
    (htotal : total counts ≤ maxSymbols) :
    build tableClass id counts symbols =
      (assign maxLength (0 + 1) (2 * occupied counts 0) (sizesFrom 0 (counts.drop 0))).map
        fun codes => ⟨tableClass, id, counts, symbols, Huffman.sizes counts, codes,
          (Huffman.groups counts).toArray⟩ := by
  rw [build, if_neg htotal.not_gt, occupied_zero]
  rfl

/-- Counts of too many codes are refused, and then those that overflow at some length, of which the
least one is told. All others make a table, which are the ones whose Kraft sum is below one, and its
codes are canonical. -/
theorem build_canonical (tableClass id : Nat) {counts : List Nat} {symbols : Array UInt8}
    (hcounts : counts.length = maxLength) (hsymbols : symbols.size = total counts) :
    (maxSymbols < total counts →
      build tableClass id counts symbols = .error (.tooManyCodes (total counts))) ∧
    (total counts ≤ maxSymbols →
      (∀ length, IsLeast {l | l ≤ maxLength ∧ Overflows counts l} length →
        build tableClass id counts symbols = .error (.invalidCodeLengths length)) ∧
      ((¬ ∃ length ≤ maxLength, Overflows counts length) →
        ∃ t, build tableClass id counts symbols = .ok t ∧ t.CanonicallyCoded counts symbols) ∧
      ((∃ t, build tableClass id counts symbols = .ok t) ↔ kraftSum counts < 1)) := by
  have hno : ¬ Overflows counts 0 := by
    rw [Overflows, occupied_zero]
    decide
  have hover : total counts ≤ maxSymbols →
      ∀ length, IsLeast {l | l ≤ maxLength ∧ Overflows counts l} length →
        build tableClass id counts symbols = .error (.invalidCodeLengths length) := by
    intro htotal length hleast
    have hpos : 0 < length := Nat.pos_of_ne_zero fun h0 => hno (h0 ▸ hleast.1.2)
    have hlt : ∀ l, 0 < l → l < length → ¬ Overflows counts l := fun l _ hl hl' =>
      absurd (hleast.2 ⟨hl.le.trans hleast.1.1, hl'⟩) hl.not_ge
    rw [build_eq_map_assign tableClass id symbols htotal,
      assign_of_overflows (by omega) hpos (hcounts ▸ hleast.1.1) hleast.1.2 hlt]
    rfl
  have hroom : total counts ≤ maxSymbols → (¬ ∃ length ≤ maxLength, Overflows counts length) →
      ∃ t, build tableClass id counts symbols = .ok t ∧ t.CanonicallyCoded counts symbols := by
    intro htotal hnone
    have hlengths : 0 + maxLength = counts.length := by omega
    obtain ⟨codes, hcodes⟩ :=
      exists_assign hlengths fun l _ hl hl' => hnone ⟨l, hcounts ▸ hl, hl'⟩
    have hbuild : ∃ t, build tableClass id counts symbols = .ok t := by
      rw [build_eq_map_assign tableClass id symbols htotal, hcodes]
      exact ⟨_, rfl⟩
    obtain ⟨t, ht⟩ := hbuild
    exact ⟨t, ht, canonicallyCoded_of_build hcounts hsymbols ht⟩
  refine ⟨fun htotal => if_pos htotal, fun htotal => ⟨hover htotal, hroom htotal, ?_⟩⟩
  rw [← not_not (a := kraftSum counts < 1), ← exists_overflows_iff]
  constructor
  · rintro ⟨t, ht⟩ hexists
    obtain ⟨length, hleast⟩ : ∃ length, IsLeast {l | l ≤ maxLength ∧ Overflows counts l} length :=
      ⟨_, Nat.find_spec hexists, fun l hl => Nat.find_min' hexists hl⟩
    cases (hover htotal length hleast).symm.trans ht
  · intro hnone
    obtain ⟨t, ht, _⟩ := hroom htotal hnone
    exact ⟨t, ht⟩

theorem build_canonical_luminanceTable :
    luminanceTable.counts.length = maxLength ∧
      luminanceTable.symbols.size = total luminanceTable.counts ∧
      ∃ t, build 0 0 luminanceTable.counts luminanceTable.symbols = .ok t ∧
        t.CanonicallyCoded luminanceTable.counts luminanceTable.symbols :=
  ⟨rfl, rfl, ((build_canonical 0 0 rfl rfl).2 (by decide)).2.1 (by decide)⟩

end Table
end ImageAudit.Jpeg.Huffman
