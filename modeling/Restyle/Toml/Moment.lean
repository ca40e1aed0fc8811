import Restyle.Numeric.Decimal

/-! # Dates and times in TOML

A date is written as in `1979-05-27` and a time of day as in `07:32:00.5`. A `T`
or a space joins them, and the distance from universal time may follow.
-/

namespace Restyle.Toml.Moment

open Text

/-- The rest behind a number with the given count of digits that lies in a range. -/
def number? (count least greatest : Nat) (t : Text) : Option (Nat × Text) :=
  let digits := t.take count
  let n := Decimal.ofDigits digits
  if digits.length = count ∧ digits.all Char.isDigit ∧ least ≤ n ∧ n ≤ greatest
  then some (n, t.drop count)
  else none

def isLeap (year : Nat) : Bool :=
  year % 4 = 0 && (year % 100 ≠ 0 || year % 400 = 0)

def daysIn (year month : Nat) : Nat :=
  if month = 2 then (if isLeap year then 29 else 28)
  else if month ∈ [4, 6, 9, 11] then 30
  else 31

/-- The rest behind a date. -/
def date? (t : Text) : Option Text := do
  let (year, t) ← number? 4 0 9999 t
  let (month, t) ← number? 2 1 12 (← t.dropStart? "-")
  let (_, t) ← number? 2 1 (daysIn year month) (← t.dropStart? "-")
  return t

/-- The rest behind hours and minutes. -/
def minutes? (t : Text) : Option Text := do
  let (_, t) ← number? 2 0 23 t
  let (_, t) ← number? 2 0 59 (← t.dropStart? ":")
  return t

/-- The rest behind a time of day. A minute may have a leap second. -/
def time? (t : Text) : Option Text := do
  let (_, t) ← number? 2 0 60 (← (← minutes? t).dropStart? ":")
  match t with
  | '.' :: t => if (t.takeWhile Char.isDigit).isEmpty then none else some (t.dropWhile Char.isDigit)
  | t => return t

/-- Nothing, or a distance from universal time. -/
def isOffset : Text → Bool
  | [] => true
  | c :: t =>
    if c = 'Z' ∨ c = 'z' then t.isEmpty
    else (c = '+' ∨ c = '-') && minutes? t == some []

/-- A date, a time of day, or both. -/
def isMoment (t : Text) : Bool :=
  match date? t with
  | some [] => true
  | some (c :: t) => c ∈ ['T', 't', ' '] && (time? t).any isOffset
  | none => time? t == some []

end Restyle.Toml.Moment
