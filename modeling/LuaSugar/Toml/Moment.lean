/-!
# Dates and times

A moment is a date, a time of the day, or both, and only both together may have a time zone. Its
text is the one form of it that differently written moments share: `T` between date and time, `Z`
for the zone of no offset, and no zeros at the end of a fraction. Fractions are kept to the
nanosecond, and further digits are dropped.
-/

namespace LuaSugar.Toml

/-- A number with zeros in front up to so many digits. -/
def padded (width value : Nat) : List Char :=
  let digits := Nat.toDigits 10 value
  List.replicate (width - digits.length) '0' ++ digits

structure Date where
  year : Nat
  month : Nat
  day : Nat
deriving DecidableEq, Repr

namespace Date

/-- The number of days of a month. -/
def daysIn (year month : Nat) : Nat :=
  let leap := year % 4 = 0 ∧ (year % 100 ≠ 0 ∨ year % 400 = 0)
  if month = 2 then if leap then 29 else 28
  else if month ∈ [4, 6, 9, 11] then 30
  else 31

/-- Whether the calendar has the date. -/
def isValid (d : Date) : Bool :=
  1 ≤ d.month && d.month ≤ 12 && 1 ≤ d.day && d.day ≤ daysIn d.year d.month

def text (d : Date) : List Char :=
  padded 4 d.year ++ '-' :: padded 2 d.month ++ '-' :: padded 2 d.day

end Date

/-- A time of the day. -/
structure Clock where
  hour : Nat
  minute : Nat
  second : Nat
  nanosecond : Nat
deriving DecidableEq, Repr

namespace Clock

/-- Whether a day has the time. Any minute may end with a leap second. -/
def isValid (c : Clock) : Bool := c.hour ≤ 23 && c.minute ≤ 59 && c.second ≤ 60

/-- The number of nanoseconds that the digits of a fraction stand for. -/
def nanosecondsOf (digits : List Char) : Nat :=
  Nat.ofDigitChars 10 ((digits ++ List.replicate 9 '0').take 9) 0

/-- The fraction of the second behind a point, unless there is none. -/
def fraction (c : Clock) : List Char :=
  if c.nanosecond = 0 then []
  else '.' :: ((padded 9 c.nanosecond).reverse.dropWhile (· == '0')).reverse

def text (c : Clock) : List Char :=
  padded 2 c.hour ++ ':' :: padded 2 c.minute ++ ':' :: padded 2 c.second ++ c.fraction

end Clock

inductive Zone where
  | utc
  /-- So many minutes ahead of the zone of no offset. -/
  | offset (minutes : Int)
deriving DecidableEq, Repr

namespace Zone

def text : Zone → List Char
  | utc => ['Z']
  | offset minutes =>
    (if minutes < 0 then '-' else '+') ::
      padded 2 (minutes.natAbs / 60) ++ ':' :: padded 2 (minutes.natAbs % 60)

end Zone

inductive Moment where
  | date (date : Date)
  | clock (clock : Clock)
  | dateAndClock (date : Date) (clock : Clock) (zone : Option Zone)
deriving DecidableEq, Repr

/-- The text of a moment. -/
def Moment.text : Moment → String
  | date d => String.ofList d.text
  | clock c => String.ofList c.text
  | dateAndClock d c zone =>
    String.ofList (d.text ++ 'T' :: c.text ++ (zone.map Zone.text).getD [])

end LuaSugar.Toml
