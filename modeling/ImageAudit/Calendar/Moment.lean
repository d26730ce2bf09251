/-! Moments spelled `YYYY:MM:DD HH:MM:SS`, each number padded with zeros to its full width. -/
namespace ImageAudit.Calendar

/-- A date of the Gregorian calendar, extended to all years, and a time of day. -/
structure Moment where
  year : Nat
  month : Nat
  day : Nat
  hour : Nat
  minute : Nat
  second : Nat
deriving DecidableEq, Repr

def isLeap (year : Nat) : Bool := year % 4 == 0 && (year % 100 != 0 || year % 400 == 0)

/-- Number of days of a month; there is no month but 1 to 12. -/
def daysIn (year : Nat) : (month : Nat) → Nat
  | 1 | 3 | 5 | 7 | 8 | 10 | 12 => 31
  | 4 | 6 | 9 | 11 => 30
  | 2 => if isLeap year then 29 else 28
  | _ => 0

def pad : (width n : Nat) → List Char
  | 0, _ => []
  | width + 1, n => pad width (n / 10) ++ [Char.ofNat ('0'.toNat + n % 10)]

def readNumber : (width value : Nat) → List Char → Option (Nat × List Char)
  | 0, value, text => some (value, text)
  | _ + 1, _, [] => none
  | width + 1, value, c :: text =>
    if c.isDigit then readNumber width (value * 10 + (c.toNat - '0'.toNat)) text else none

def readMark (mark : Char) : List Char → Option (List Char)
  | [] => none
  | c :: text => if c = mark then some text else none

namespace Moment

/-- Whether the date and the time exist; there are no leap seconds. -/
def exists? (m : Moment) : Bool :=
  1 ≤ m.day && m.day ≤ daysIn m.year m.month && m.hour < 24 && m.minute < 60 && m.second < 60

def spellWith (dateMark between timeMark : Char) (m : Moment) : List Char :=
  pad 4 m.year ++ dateMark :: pad 2 m.month ++ dateMark :: pad 2 m.day ++
    between :: pad 2 m.hour ++ timeMark :: pad 2 m.minute ++ timeMark :: pad 2 m.second

def spell (m : Moment) : List Char := m.spellWith ':' ' ' ':'

/-- Reads the layout without asking whether the moment exists. -/
def parseLayout (text : List Char) : Option Moment := do
  let (year, text) ← readNumber 4 0 text
  let text ← readMark ':' text
  let (month, text) ← readNumber 2 0 text
  let text ← readMark ':' text
  let (day, text) ← readNumber 2 0 text
  let text ← readMark ' ' text
  let (hour, text) ← readNumber 2 0 text
  let text ← readMark ':' text
  let (minute, text) ← readNumber 2 0 text
  let text ← readMark ':' text
  let (second, text) ← readNumber 2 0 text
  if text.isEmpty then some ⟨year, month, day, hour, minute, second⟩ else none

def parse (text : String) : Option Moment := (parseLayout text.toList).filter exists?

end Moment
end ImageAudit.Calendar
