import TomlSemantics.Scalar.Basic
import TomlSemantics.Text.Digits

/-!
# Well-formed datetimes

The four forms of RFC 3339 that TOML allows: a date, a time of day, the two joined, and the two
joined with an offset from UTC. A reader takes one part from the front of a text and leaves the
rest; a datetime is well formed when its readers leave nothing.
-/

namespace TomlSemantics.Datetime

/-! ## The calendar -/

/-- A day by its numbers. The calendar need not have it. -/
structure Date where
  year : Nat
  month : Nat
  day : Nat
deriving DecidableEq, Repr

/-- Every fourth year is a leap year, but of the full centuries only every fourth. -/
def isLeapYear (year : Nat) : Bool :=
  year % 4 = 0 && year % 100 ≠ 0 || year % 400 = 0

/-- How many days a common year has in each month, at the number of the month. Months count from
one. -/
def monthLengths : List Nat := [0, 31, 28, 31, 30, 31, 30, 31, 31, 30, 31, 30, 31]

/-- The number of days of a month in the Gregorian calendar, if the table has the month. -/
def daysInMonth (year month : Nat) : Option Nat :=
  if month = 2 && isLeapYear year then some 29 else monthLengths[month]?

/-- Whether the calendar has a day. There is no answer where the table of months ends before the
month. -/
def Date.isValid (date : Date) : Option Bool :=
  if 1 ≤ date.month && date.month ≤ 12 && 1 ≤ date.day then
    (daysInMonth date.year date.month).map fun days => date.day ≤ days
  else some false

/-! ## Readers -/

/-- Reads a number of `count` decimal digits. -/
def readNumber (count : Nat) (text : List Char) : Option (Nat × List Char) :=
  if count ≤ text.length then
    (Digits.number 10 (text.take count)).map fun value => (value, text.drop count)
  else none

/-- Reads one of the characters. -/
def readOneOf (choices : List Char) : List Char → Option (Char × List Char)
  | c :: rest => if c ∈ choices then some (c, rest) else none
  | [] => none

/-- Reads the numbers of a day, `YYYY-MM-DD`. -/
def readNumbers (text : List Char) : Option (Date × List Char) := do
  let (year, text) ← readNumber 4 text
  let (_, text) ← readOneOf ['-'] text
  let (month, text) ← readNumber 2 text
  let (_, text) ← readOneOf ['-'] text
  let (day, text) ← readNumber 2 text
  return (⟨year, month, day⟩, text)

/-- Reads a date, a day that the calendar has. -/
def readDate (text : List Char) : Option (List Char) := do
  let (date, text) ← readNumbers text
  if date.isValid = some true then some text else none

/-- Reads an hour and a minute, `HH:MM`. -/
def readClock (text : List Char) : Option (List Char) := do
  let (hour, text) ← readNumber 2 text
  let (_, text) ← readOneOf [':'] text
  let (minute, text) ← readNumber 2 text
  if hour ≤ 23 && minute ≤ 59 then some text else none

/-- Reads a fraction of a second, if there is one: a point and at least one digit. -/
def readFraction : List Char → Option (List Char)
  | '.' :: text =>
      if (text.takeWhile Char.isDigit).isEmpty then none else some (text.dropWhile Char.isDigit)
  | text => some text

/-- Reads the seconds of a time, if there are any. The sixty-first is a leap second. -/
def readSeconds : List Char → Option (List Char)
  | ':' :: text => do
      let (second, text) ← readNumber 2 text
      if second ≤ 60 then readFraction text else none
  | text => some text

/-- Reads a time of day: `HH:MM`, `HH:MM:SS` or `HH:MM:SS.f`. -/
def readTime (text : List Char) : Option (List Char) := do
  readSeconds (← readClock text)

/-- Reads an offset from UTC: `Z`, or a sign and `HH:MM`. -/
def readOffset (text : List Char) : Option (List Char) := do
  let (c, text) ← readOneOf ['Z', 'z', '+', '-'] text
  if c = 'Z' || c = 'z' then some text else readClock text

/-- Reads a date and a time with the letter `T` or a space between them. -/
def readDateTime (text : List Char) : Option (List Char) := do
  let text ← readDate text
  let (_, text) ← readOneOf ['T', 't', ' '] text
  readTime text

/-- What is left of a text after a datetime of the kind; nothing is read for other kinds. -/
def read (kind : Kind) (text : List Char) : Option (List Char) :=
  match kind with
  | .localDate => readDate text
  | .localTime => readTime text
  | .localDateTime => readDateTime text
  | .offsetDateTime => do readOffset (← readDateTime text)
  | _ => none

/-- Whether a text is a well-formed datetime of the kind. -/
def isWellFormed (kind : Kind) (text : String) : Bool := read kind text.toList = some []

example : isWellFormed .localDate "2000-02-29" = true := by decide
example : isWellFormed .localDate "1900-02-29" = false := by decide
example : isWellFormed .localTime "23:59:60" = true := by decide
example : isWellFormed .offsetDateTime "1979-05-27 07:32:00.5+01:30" = true := by decide

end TomlSemantics.Datetime
