import ImageAudit.Proofs.Calendar.Spelling
import Mathlib.Data.List.Forall2

/-! Reading with a calendar library. The library may take other spellings than the full one, and it
takes leap seconds. It is given only texts whose bytes fill the nineteen places of the layout, and
leap seconds are taken out again. Then it reads the spellings of the moments that exist. -/
namespace ImageAudit.Calendar

variable {text : List Char} {mark : Char} {width : Nat}

inductive Place where
  | digit
  | colon
  | blank

namespace Place

def ofIndex : (i : Nat) → Place
  | 4 | 7 | 13 | 16 => colon
  | 10 => blank
  | _ => digit

def accepts : Place → UInt8 → Bool
  | digit, b => '0'.toUInt8 ≤ b && b ≤ '9'.toUInt8
  | colon, b => b == ':'.toUInt8
  | blank, b => b == ' '.toUInt8

def holds : Place → Char → Bool
  | digit, c => c.isDigit
  | colon, c => c == ':'
  | blank, c => c == ' '

variable {p : Place} {places : List Place}

theorem lt_of_accepts {b : UInt8} (h : p.accepts b = true) : b.toNat < 128 := by
  cases p with
  | digit =>
    have hle := UInt8.le_iff_toNat_le.mp (of_decide_eq_true (Bool.and_eq_true_iff.mp h).2)
    exact Nat.lt_of_le_of_lt hle (by decide)
  | colon => rw [eq_of_beq h]; decide
  | blank => rw [eq_of_beq h]; decide

theorem lt_of_holds {c : Char} (h : p.holds c = true) : c.toNat < 128 := by
  cases p with
  | digit => exact Nat.lt_of_le_of_lt (Char.isDigit_iff_toNat.mp h).2 (by decide)
  | colon => rw [eq_of_beq h]; decide
  | blank => rw [eq_of_beq h]; decide

theorem accepts_toUInt8 {c : Char} (h : c.toNat < 128) : p.accepts c.toUInt8 = p.holds c := by
  have hall : ∀ n < 128, p.accepts (Char.ofNat n).toUInt8 = p.holds (Char.ofNat n) := by
    cases p <;> decide
  have hc := hall c.toNat h
  rwa [Char.ofNat_toNat] at hc

/-- Any other character begins with a byte that is accepted nowhere. -/
theorem exists_encode_of_le {c : Char} (h : 128 ≤ c.toNat) :
    ∃ b bytes, String.utf8EncodeChar c = b :: bytes ∧ p.accepts b = false := by
  have hlead : ∀ x lead : UInt8, 128 ≤ lead.toNat → p.accepts (x ||| lead) = false := by
    intro x lead hlead
    refine Bool.eq_false_iff.mpr fun haccepts => ?_
    have hlt := lt_of_accepts haccepts
    rw [UInt8.toNat_or] at hlt
    exact absurd (Nat.le_trans hlead Nat.right_le_or) (Nat.not_le_of_lt hlt)
  obtain hone | htwo | hthree | hfour := Char.utf8Size_eq c
  · have hle := UInt32.le_iff_toNat_le.mp (Char.utf8Size_eq_one_iff.mp hone)
    exact absurd (Nat.le_trans h hle) (by decide)
  · exact ⟨_, _, String.utf8EncodeChar_eq_cons_cons htwo, hlead _ _ (by decide)⟩
  · exact ⟨_, _, String.utf8EncodeChar_eq_cons_cons_cons hthree, hlead _ _ (by decide)⟩
  · exact ⟨_, _, String.utf8EncodeChar_eq_cons_cons_cons_cons hfour, hlead _ _ (by decide)⟩

def Filled (places : List Place) (text : List Char) : Prop :=
  List.Forall₂ (fun p c => p.holds c = true) places text

/-- Characters that may stand at the places are those whose bytes may. -/
theorem filled_iff : Filled places text ↔
    List.Forall₂ (fun p b => p.accepts b = true) places (text.flatMap String.utf8EncodeChar) := by
  induction text generalizing places with
  | nil => cases places <;> simp [Filled]
  | cons c text ih =>
    cases places with
    | nil =>
      have hne : String.utf8EncodeChar c ≠ [] := String.utf8EncodeChar_ne_nil
      simp [Filled, hne]
    | cons p places =>
      rw [Filled, List.forall₂_cons, ← Filled, ih, List.flatMap_cons]
      rcases Nat.lt_or_ge c.toNat 128 with hlt | hle
      · have hsize : c.utf8Size = 1 := by
          rw [Char.utf8Size_eq_one_iff, UInt32.le_iff_toNat_le]
          exact Nat.le_of_lt_succ hlt
        rw [String.utf8EncodeChar_eq_singleton hsize, List.singleton_append, List.forall₂_cons,
          Char.toUInt8_val, accepts_toUInt8 hlt]
      · -- a character of several bytes has no place, and no place has its first byte
        obtain ⟨b, bytes, hbytes, hb⟩ := exists_encode_of_le hle
        rw [hbytes, List.cons_append, List.forall₂_cons, hb]
        refine iff_of_false (fun h => ?_) (by simp)
        exact absurd (lt_of_holds h.1) (Nat.not_lt_of_le hle)

/-- The bytes are looked at by their index. -/
theorem forall₂_ofIndex {bytes : List UInt8} {start count : Nat} :
    List.Forall₂ (fun p b => p.accepts b = true) ((List.range' start count).map ofIndex) bytes ↔
      bytes.length = count ∧
        (bytes.zipIdx start).all (fun (b, i) => (ofIndex i).accepts b) = true := by
  induction bytes generalizing start count with
  | nil => cases count <;> simp
  | cons b bytes ih =>
    cases count with
    | zero => simp
    | succ count =>
      rw [List.range'_succ, List.map_cons, List.forall₂_cons, ih, List.length_cons,
        Nat.add_right_cancel_iff, List.zipIdx_cons, List.all_cons, Bool.and_eq_true,
        and_left_comm]

/-- Digits in front are read as a number. -/
theorem filled_digits {value : Nat} :
    Filled (List.replicate width digit ++ places) text ↔
      ∃ n rest, readNumber width value text = some (n, rest) ∧ Filled places rest := by
  induction width generalizing value text with
  | zero => simp [readNumber]
  | succ width ih =>
    cases text with
    | nil => simp [Filled, List.replicate_succ, readNumber]
    | cons c text =>
      rw [List.replicate_succ, List.cons_append, Filled, List.forall₂_cons, ← Filled,
        @ih text (value * 10 + (c.toNat - '0'.toNat)), readNumber]
      by_cases hc : c.isDigit = true <;> simp [holds, hc]

theorem filled_mark {p : Place} (hmark : ∀ c, p.holds c = true ↔ c = mark) :
    Filled (p :: places) text ↔
      ∃ rest, readMark mark text = some rest ∧ Filled places rest := by
  cases text with
  | nil => simp [Filled, readMark]
  | cons c text => simp [Filled, readMark, hmark]

end Place

/-- The layout is had exactly where it is read. -/
theorem isSome_parseLayout_iff : (Moment.parseLayout text).isSome = true ↔
    Place.Filled ((List.range' 0 19).map Place.ofIndex) text := by
  have hcolon : ∀ c, Place.colon.holds c = true ↔ c = ':' := fun c => beq_iff_eq
  have hblank : ∀ c, Place.blank.holds c = true ↔ c = ' ' := fun c => beq_iff_eq
  have hplaces : (List.range' 0 19).map Place.ofIndex =
      List.replicate 4 Place.digit ++ Place.colon :: (List.replicate 2 Place.digit ++
        Place.colon :: (List.replicate 2 Place.digit ++ Place.blank ::
          (List.replicate 2 Place.digit ++ Place.colon :: (List.replicate 2 Place.digit ++
            Place.colon :: (List.replicate 2 Place.digit ++ []))))) := rfl
  have hend : ∀ rest, Place.Filled [] rest ↔ rest.isEmpty = true := fun rest => by
    rw [Place.Filled, List.forall₂_nil_left_iff, List.isEmpty_iff]
  have hdigits : ∀ width places text, Place.Filled (List.replicate width .digit ++ places) text ↔
      ∃ n rest, readNumber width 0 text = some (n, rest) ∧ Place.Filled places rest :=
    fun _ _ _ => Place.filled_digits
  simp only [hplaces, hdigits, Place.filled_mark hcolon, Place.filled_mark hblank, hend,
    Moment.parseLayout, Option.bind_eq_bind, Option.isSome_bind, Option.any_eq_true, Prod.exists,
    Option.isSome_ite]

def hasLayout (text : String) : Bool :=
  let bytes := text.toUTF8.data.toList
  bytes.length == 19 && bytes.zipIdx.all fun (b, i) => (Place.ofIndex i).accepts b

theorem hasLayout_iff {text : String} :
    hasLayout text = true ↔ ∃ m : Moment, m.Fits ∧ text = String.ofList m.spell := by
  have hbytes : text.toUTF8.data.toList = text.toList.flatMap String.utf8EncodeChar := by
    conv => lhs; rw [← String.ofList_toList (s := text)]
    rw [String.toUTF8_eq_toByteArray, String.toByteArray_ofList, List.utf8Encode,
      List.toList_data_toByteArray]
  rw [hasLayout, Bool.and_eq_true, beq_iff_eq, ← Place.forall₂_ofIndex, hbytes, ← Place.filled_iff,
    ← isSome_parseLayout_iff, Option.isSome_iff_exists]
  simp only [Moment.parseLayout_eq_some_iff, ← String.toList_inj, String.toList_ofList]

structure Reading where
  moment : Moment
  nanosecond : Nat
deriving DecidableEq, Repr

def fullSecond : Nat := 1000000000

/-- What is known of a calendar library. Of the texts that have the layout it reads those of moments
that exist. The second 60 is read as well, as nanoseconds beyond the second 59. -/
structure ReadsCalendar (read : String → Option Reading) : Prop where
  existing {m : Moment} (h : m.Exists) : read (String.ofList m.spell) = some ⟨m, 0⟩
  leapSecond {m : Moment} (h : m.Exists) (hlast : m.second = 59) :
    read (String.ofList { m with second := 60 }.spell) = some ⟨m, fullSecond⟩
  missing {m : Moment} (hfits : m.Fits) (h : ¬ m.Exists)
    (hleap : m.second = 60 → ¬ { m with second := 59 }.Exists) :
    read (String.ofList m.spell) = none

/-- Gives only texts that have the layout to a calendar library, and takes only what is no leap
second from it. -/
def parseStrictly (read : String → Option Reading) (text : String) : Option Reading :=
  if hasLayout text then
    (read text).filter fun r => r.moment.second < 60 && r.nanosecond == 0
  else none

namespace Moment

variable {m : Moment} {read : String → Option Reading}

theorem parse_eq_none_of_not_hasLayout {text : String} (h : ¬ hasLayout text = true) :
    parse text = none := by
  refine Option.eq_none_iff_forall_ne_some.mpr fun m hm => ?_
  obtain ⟨hexists, rfl⟩ := parse_eq_some_iff.mp hm
  exact h (hasLayout_iff.mpr ⟨m, hexists.fits, rfl⟩)

theorem parse_eq_none_of_not_exists (h : ¬ m.Exists) (hfits : m.Fits) :
    parse (String.ofList m.spell) = none := by
  rw [parse, String.toList_ofList, parseLayout_spell hfits, Option.filter_some, if_neg]
  exact fun hm => h (exists_iff.mpr ⟨Nat.le_of_lt_succ hfits.year, hm⟩)

/-- Any calendar library comes to the same. -/
theorem parseStrictly_eq (h : ReadsCalendar read) (text : String) :
    parseStrictly read text = (parse text).map fun m => ⟨m, 0⟩ := by
  rw [parseStrictly]
  by_cases hlayout : hasLayout text = true
  · rw [if_pos hlayout]
    obtain ⟨m, hfits, rfl⟩ := hasLayout_iff.mp hlayout
    by_cases hm : m.Exists
    · rw [h.existing hm, parse_eq_some_iff.mpr ⟨hm, rfl⟩]
      simp [hm.second]
    · rw [parse_eq_none_of_not_exists hm hfits, Option.map_none]
      -- the library reads a leap second, but tells the nanoseconds by which it is left out
      by_cases hleap : m.second = 60 ∧ { m with second := 59 }.Exists
      · obtain ⟨hsecond, hexists⟩ := hleap
        have hread := h.leapSecond hexists rfl
        obtain ⟨year, month, day, hour, minute, second⟩ := m
        obtain rfl : second = 60 := hsecond
        rw [hread]
        simp [fullSecond]
      · rw [h.missing hfits hm (not_and.mp hleap), Option.filter_none]
  · rw [if_neg hlayout, parse_eq_none_of_not_hasLayout hlayout, Option.map_none]

/-- A text is read exactly when it is the spelling of a moment that exists, and that is the moment
which is read. So different texts are read differently. -/
theorem parse_reads_spellings (h : ReadsCalendar read) :
    (∀ text, parseStrictly read text = (parse text).map fun m => ⟨m, 0⟩) ∧
      (∀ text m, parse text = some m ↔ m.Exists ∧ String.ofList m.spell = text) ∧
      ∀ text other m, parse text = some m → parse other = some m → text = other := by
  refine ⟨parseStrictly_eq h, fun _ _ => parse_eq_some_iff, fun text other m htext hother => ?_⟩
  obtain ⟨-, rfl⟩ := parse_eq_some_iff.mp htext
  exact (parse_eq_some_iff.mp hother).2

def readLayout (text : String) : Option Reading :=
  (parseLayout text.toList).bind fun m =>
    if m.exists? then some ⟨m, 0⟩
    else if m.second = 60 ∧ { m with second := 59 }.exists? = true then
      some ⟨{ m with second := 59 }, fullSecond⟩
    else none

theorem readLayout_spell (h : m.Fits) :
    readLayout (String.ofList m.spell) =
      if m.exists? then some ⟨m, 0⟩
      else if m.second = 60 ∧ { m with second := 59 }.exists? = true then
        some ⟨{ m with second := 59 }, fullSecond⟩
      else none := by
  rw [readLayout, String.toList_ofList, parseLayout_spell h, Option.bind_some]

theorem readsCalendar_readLayout : ReadsCalendar readLayout where
  existing h := by rw [readLayout_spell h.fits, if_pos (exists_iff.mp h).2]
  leapSecond {m} h hlast := by
    have hfits : { m with second := 60 }.Fits :=
      ⟨h.fits.year, h.fits.month, h.fits.day, h.fits.hour, h.fits.minute,
        (by decide : 60 < 100)⟩
    have hnot : ¬ { m with second := 60 }.exists? = true := by simp [exists?]
    have hsame : { { m with second := 60 } with second := 59 } = m := by rw [← hlast]
    rw [readLayout_spell hfits, if_neg hnot, hsame, if_pos ⟨rfl, (exists_iff.mp h).2⟩]
  missing {m} hfits h hleap := by
    have hyear := Nat.le_of_lt_succ hfits.year
    rw [readLayout_spell hfits, if_neg fun hm => h (exists_iff.mpr ⟨hyear, hm⟩), if_neg]
    exact fun hlast => hleap hlast.1 (exists_iff.mpr ⟨hyear, hlast.2⟩)

theorem parse_reads_spellings_leapDay :
    ReadsCalendar readLayout ∧
      readLayout "2016:12:31 23:59:60" = some ⟨⟨2016, 12, 31, 23, 59, 59⟩, fullSecond⟩ ∧
      parseStrictly readLayout "2016:12:31 23:59:60" = none ∧
      parseStrictly readLayout "2000:02:29 12:00:00" = some ⟨⟨2000, 2, 29, 12, 0, 0⟩, 0⟩ ∧
      Exists ⟨2000, 2, 29, 12, 0, 0⟩ ∧
      String.ofList (spell ⟨2000, 2, 29, 12, 0, 0⟩) = "2000:02:29 12:00:00" := by
  have hleapSecond : parse "2016:12:31 23:59:60" = none := by decide
  have hleapDay : parse "2000:02:29 12:00:00" = some ⟨2000, 2, 29, 12, 0, 0⟩ := by decide
  obtain ⟨hstrictly, hparse, hinjective⟩ := parse_reads_spellings readsCalendar_readLayout
  have hexists := ((hparse _ _).mp hleapDay).1
  have hspell := hinjective _ _ _ ((hparse _ _).mpr ⟨hexists, rfl⟩) hleapDay
  refine ⟨readsCalendar_readLayout, by decide, ?_, ?_, hexists, hspell⟩
  · rw [hstrictly, hleapSecond, Option.map_none]
  · rw [hstrictly, hleapDay, Option.map_some]

end Moment
end ImageAudit.Calendar
