import ImageAudit.Calendar.Moment
import Mathlib.Data.Nat.Basic

/-! Moments and their spelling. Numbers of full width and the marks between them are read back, and
nothing else has their layout. So a text is read as a moment exactly when it is the spelling of a
moment that exists. -/
namespace ImageAudit.Calendar

variable {text rest : List Char} {c mark : Char} {width n : Nat}

def digit (d : Nat) : Char := Char.ofNat ('0'.toNat + d)

theorem digit_spec (d : Nat) (h : d < 10) :
    (digit d).isDigit = true ∧ (digit d).toNat - '0'.toNat = d := by
  decide +revert

theorem digit_of_isDigit (h : c.isDigit = true) :
    c.toNat - '0'.toNat < 10 ∧ digit (c.toNat - '0'.toNat) = c := by
  obtain ⟨hle, hle'⟩ := Char.isDigit_iff_toNat.mp h
  have hmost : '9'.toNat = '0'.toNat + 9 := rfl
  refine ⟨by omega, ?_⟩
  rw [digit, Nat.add_sub_cancel' hle, Char.ofNat_toNat]

/-- The first of the digits that are padded to one more place. -/
theorem pad_succ (d : Nat) (h : n < Nat.pow 10 width) :
    pad (width + 1) (d * Nat.pow 10 width + n) = digit (d % 10) :: pad width n := by
  induction width generalizing n with
  | zero =>
    obtain rfl : n = 0 := Nat.lt_one_iff.mp h
    rw [pad, pad, pad, digit]
    simp
  | succ width ih =>
    have hpow : Nat.pow 10 (width + 1) = Nat.pow 10 width * 10 := rfl
    have hmul : d * Nat.pow 10 (width + 1) = d * Nat.pow 10 width * 10 := by
      rw [hpow, Nat.mul_assoc]
    have hdiv : (d * Nat.pow 10 (width + 1) + n) / 10 = d * Nat.pow 10 width + n / 10 := by omega
    have hmod : (d * Nat.pow 10 (width + 1) + n) % 10 = n % 10 := by omega
    rw [pad, hdiv, hmod, ih (by omega), pad, List.cons_append]

/-- A number of one more place is its first digit and the number behind it. -/
theorem exists_pad_succ (h : n < Nat.pow 10 (width + 1)) :
    ∃ d < 10, ∃ k < Nat.pow 10 width, n = d * Nat.pow 10 width + k ∧
      pad (width + 1) n = digit d :: pad width k := by
  have hpos : 0 < Nat.pow 10 width := Nat.pow_pos (by decide)
  have hsplit : n / Nat.pow 10 width * Nat.pow 10 width + n % Nat.pow 10 width = n :=
    Nat.div_add_mod' n _
  have hd : n / Nat.pow 10 width < 10 := Nat.div_lt_of_lt_mul h
  have hk : n % Nat.pow 10 width < Nat.pow 10 width := Nat.mod_lt _ hpos
  refine ⟨_, hd, _, hk, hsplit.symm, ?_⟩
  have hpad := pad_succ (n / Nat.pow 10 width) hk
  rwa [hsplit, Nat.mod_eq_of_lt hd] at hpad

theorem lt_pow_succ {d : Nat} (hd : d < 10) (hn : n < Nat.pow 10 width) :
    d * Nat.pow 10 width + n < Nat.pow 10 (width + 1) := by
  have hpow : Nat.pow 10 (width + 1) = 10 * Nat.pow 10 width := Nat.pow_succ'
  have hle : d * Nat.pow 10 width ≤ 9 * Nat.pow 10 width :=
    Nat.mul_le_mul_right _ (Nat.le_of_lt_succ hd)
  omega

/-- A number of full width is read, and it alone. -/
theorem readNumber_iff {value result : Nat} :
    readNumber width value text = some (result, rest) ↔
      ∃ n < Nat.pow 10 width, text = pad width n ++ rest ∧
        result = value * Nat.pow 10 width + n := by
  induction width generalizing value text with
  | zero =>
    have hone : ∀ n, n < Nat.pow 10 0 ↔ n = 0 := fun n => Nat.lt_one_iff
    simp only [readNumber, hone, exists_eq_left, pad, List.nil_append, Option.some.injEq,
      Prod.mk.injEq, Nat.add_zero]
    rw [show value * Nat.pow 10 0 = value from Nat.mul_one value]
    exact ⟨fun h => ⟨h.2, h.1.symm⟩, fun h => ⟨h.2.symm, h.1⟩⟩
  | succ width ih =>
    have hvalue : ∀ d n, value * Nat.pow 10 (width + 1) + (d * Nat.pow 10 width + n) =
        (value * 10 + d) * Nat.pow 10 width + n := fun d n => by
      have hpow : Nat.pow 10 (width + 1) = 10 * Nat.pow 10 width := Nat.pow_succ'
      rw [hpow, Nat.add_mul, Nat.mul_assoc, Nat.add_assoc]
    constructor
    · intro h
      cases text with
      | nil => cases h
      | cons c text =>
        rw [readNumber, Option.ite_none_right_eq_some, ih] at h
        obtain ⟨hc, n, hn, rfl, rfl⟩ := h
        obtain ⟨hd, hdigit⟩ := digit_of_isDigit hc
        refine ⟨_, lt_pow_succ hd hn, ?_, (hvalue _ n).symm⟩
        rw [pad_succ _ hn, Nat.mod_eq_of_lt hd, hdigit, List.cons_append]
    · rintro ⟨n, hn, rfl, rfl⟩
      obtain ⟨d, hd, k, hk, rfl, hpad⟩ := exists_pad_succ hn
      obtain ⟨hdigit, hback⟩ := digit_spec d hd
      rw [hpad, List.cons_append, readNumber, if_pos hdigit, hback, ih]
      exact ⟨k, hk, rfl, hvalue d k⟩

theorem readNumber_pad (h : n < Nat.pow 10 width) (rest : List Char) :
    readNumber width 0 (pad width n ++ rest) = some (n, rest) :=
  readNumber_iff.mpr ⟨n, h, rfl, by rw [Nat.zero_mul, Nat.zero_add]⟩

theorem readMark_iff : readMark mark text = some rest ↔ text = mark :: rest := by
  cases text with
  | nil => simp [readMark]
  | cons c text => simp [readMark]

namespace Moment

variable {m : Moment}

structure Fits (m : Moment) : Prop where
  year : m.year < 10000
  month : m.month < 100
  day : m.day < 100
  hour : m.hour < 100
  minute : m.minute < 100
  second : m.second < 100

theorem spell_eq (m : Moment) :
    m.spell = pad 4 m.year ++ ':' :: (pad 2 m.month ++ ':' :: (pad 2 m.day ++ ' ' ::
      (pad 2 m.hour ++ ':' :: (pad 2 m.minute ++ ':' :: (pad 2 m.second ++ []))))) := by
  simp [spell, spellWith]

theorem parseLayout_spell (h : m.Fits) : parseLayout m.spell = some m := by
  have hyear : ∀ rest, readNumber 4 0 (pad 4 m.year ++ rest) = some (m.year, rest) :=
    readNumber_pad h.year
  have hother : ∀ n < 100, ∀ rest, readNumber 2 0 (pad 2 n ++ rest) = some (n, rest) :=
    fun n hn => readNumber_pad hn
  have hmark : ∀ (mark : Char) rest, readMark mark (mark :: rest) = some rest :=
    fun _ _ => readMark_iff.mpr rfl
  simp only [parseLayout, spell_eq, hyear, hother, h.month, h.day, h.hour, h.minute, h.second,
    hmark, Option.bind_eq_bind, Option.bind_some]
  rfl

/-- Nothing but spellings has the layout. -/
theorem eq_spell_of_parseLayout (h : parseLayout text = some m) : m.Fits ∧ text = m.spell := by
  simp only [parseLayout, Option.bind_eq_bind, Option.bind_eq_some_iff, Prod.exists, readNumber_iff,
    readMark_iff, Option.ite_none_right_eq_some, Nat.zero_mul, Nat.zero_add] at h
  obtain ⟨_, _, ⟨_, hyear, rfl, rfl⟩, _, rfl, _, _, ⟨_, hmonth, rfl, rfl⟩, _, rfl, _, _,
    ⟨_, hday, rfl, rfl⟩, _, rfl, _, _, ⟨_, hhour, rfl, rfl⟩, _, rfl, _, _,
    ⟨_, hminute, rfl, rfl⟩, _, rfl, _, rest, ⟨_, hsecond, rfl, rfl⟩, hend, hm⟩ := h
  obtain rfl := Option.some.inj hm
  obtain rfl := List.isEmpty_iff.mp hend
  exact ⟨⟨hyear, hmonth, hday, hhour, hminute, hsecond⟩, (spell_eq ⟨_, _, _, _, _, _⟩).symm⟩

theorem parseLayout_eq_some_iff : parseLayout text = some m ↔ m.Fits ∧ text = m.spell :=
  ⟨eq_spell_of_parseLayout, fun ⟨hfits, hspell⟩ => hspell ▸ parseLayout_spell hfits⟩

end Moment

def commonDays : List Nat := [31, 28, 31, 30, 31, 30, 31, 31, 30, 31, 30, 31]

/-- Every fourth year is a leap year, but of the hundreds only every fourth. -/
def IsLeapYear (year : Nat) : Prop := 4 ∣ year ∧ (100 ∣ year → 400 ∣ year)

inductive IsDate (year : Nat) : (month day : Nat) → Prop
  | common {month day length : Nat} (hmonth : commonDays[month]? = some length) (hday : 1 ≤ day)
    (hlength : day ≤ length) : IsDate year (month + 1) day
  | leapDay (h : IsLeapYear year) : IsDate year 2 29

theorem isLeap_iff {year : Nat} : isLeap year = true ↔ IsLeapYear year := by
  simp only [isLeap, IsLeapYear, Bool.and_eq_true, Bool.or_eq_true, beq_iff_eq, bne_iff_ne]
  omega

/-- A month has its days of a common year, and February one more in a leap year. -/
theorem daysIn_succ (year month : Nat) :
    daysIn year (month + 1) =
      commonDays[month]?.getD 0 + if month = 1 ∧ isLeap year = true then 1 else 0 := by
  match month with
  | 0 | 2 | 3 | 4 | 5 | 6 | 7 | 8 | 9 | 10 | 11 => simp [daysIn, commonDays]
  | 1 => simp only [daysIn, commonDays]; split <;> simp_all
  | month + 12 => simp [daysIn, commonDays]

theorem isDate_iff {year month day : Nat} :
    IsDate year month day ↔ 1 ≤ day ∧ day ≤ daysIn year month := by
  constructor
  · rintro (⟨hmonth, hday, hlength⟩ | h)
    · rw [daysIn_succ, hmonth, Option.getD_some]
      exact ⟨hday, Nat.le_add_right_of_le hlength⟩
    · exact ⟨by decide, by simp [daysIn, isLeap_iff.mpr h]⟩
  · rintro ⟨hday, hle⟩
    cases month with
    | zero => exact absurd (Nat.le_trans hday hle) (Nat.not_succ_le_zero 0)
    | succ month =>
      by_cases hcommon : day ≤ commonDays[month]?.getD 0
      · cases hmonth : commonDays[month]? with
        | none =>
          rw [hmonth, Option.getD_none] at hcommon
          omega
        | some length => exact .common hmonth hday (by rwa [hmonth, Option.getD_some] at hcommon)
      · -- only a leap day is left
        rw [daysIn_succ] at hle
        split at hle
        · next hleap =>
          obtain ⟨rfl, hleap⟩ := hleap
          have hlast : commonDays[1]?.getD 0 = 28 := rfl
          obtain rfl : day = 29 := by omega
          exact .leapDay (isLeap_iff.mp hleap)
        · exact absurd hle hcommon

theorem IsDate.le {year month day : Nat} (h : IsDate year month day) : month ≤ 12 ∧ day ≤ 31 := by
  have hmost : ∀ length ∈ commonDays, length ≤ 31 := by decide
  cases h with
  | common hmonth hday hlength =>
    obtain ⟨hlt, rfl⟩ := List.getElem?_eq_some_iff.mp hmonth
    exact ⟨hlt, Nat.le_trans hlength (hmost _ (List.getElem_mem hlt))⟩
  | leapDay => decide

namespace Moment

/-- The moments that exist and whose year has at most four digits. -/
structure Exists (m : Moment) : Prop where
  year : m.year ≤ 9999
  date : IsDate m.year m.month m.day
  hour : m.hour < 24
  minute : m.minute < 60
  second : m.second < 60

variable {m : Moment}

theorem exists_iff : m.Exists ↔ m.year ≤ 9999 ∧ m.exists? = true := by
  simp only [exists?, Bool.and_eq_true, decide_eq_true_eq]
  constructor
  · rintro ⟨hyear, hdate, hhour, hminute, hsecond⟩
    exact ⟨hyear, ⟨⟨isDate_iff.mp hdate, hhour⟩, hminute⟩, hsecond⟩
  · rintro ⟨hyear, ⟨⟨hdate, hhour⟩, hminute⟩, hsecond⟩
    exact ⟨hyear, isDate_iff.mpr hdate, hhour, hminute, hsecond⟩

theorem Exists.fits (h : m.Exists) : m.Fits := by
  obtain ⟨hyear, hdate, hhour, hminute, hsecond⟩ := h
  obtain ⟨hmonth, hday⟩ := hdate.le
  constructor <;> omega

/-- The spelling is read again, and nothing else is read. -/
theorem parse_eq_some_iff {text : String} :
    parse text = some m ↔ m.Exists ∧ String.ofList m.spell = text := by
  rw [parse, Option.filter_eq_some_iff, parseLayout_eq_some_iff, ← String.toList_inj,
    String.toList_ofList]
  constructor
  · rintro ⟨⟨hfits, hspell⟩, hexists⟩
    exact ⟨exists_iff.mpr ⟨Nat.le_of_lt_succ hfits.year, hexists⟩, hspell.symm⟩
  · rintro ⟨hexists, hspell⟩
    exact ⟨⟨hexists.fits, hspell.symm⟩, (exists_iff.mp hexists).2⟩

end Moment

end ImageAudit.Calendar
