import Mathlib.Data.List.TakeWhile
import TomlSemantics.Proofs.Numeral
import TomlSemantics.Scalar.Datetime

/-!
# The grammar of datetimes

A well-formed datetime is put together from numbers of a fixed width with marks between them. The
grammar says so without reading; the readers take such parts off the front of a text and never go
back, and still accept just the texts of the grammar.

1. `IsDate`, `IsTime`, `IsDateTime`, `IsOffset`, `Conforms`: the grammar.
2. `Date.isValid_eq`: the table of months is never left, and agrees with the calendar.
3. `readDate_eq_some_iff` and others: what a reader takes off the front of a text.
4. `wellFormed_iff`: the checker accepts the grammar.
-/

namespace TomlSemantics.Datetime

open Digits

variable {text rest front : List Char} {count n : Nat} {c : Char}

/-! ## Grammar -/

/-- Decimal digits, as many as asked for, denote a number. -/
def IsNumber (count : Nat) (text : List Char) (n : Nat) : Prop :=
  text.length = count ∧ Denotes 10 text n

/-- The leap years of the Gregorian calendar. -/
def IsLeap (year : Nat) : Prop := 4 ∣ year ∧ ¬ 100 ∣ year ∨ 400 ∣ year

instance (year : Nat) : Decidable (IsLeap year) := inferInstanceAs (Decidable (_ ∨ _))

/-- The length of a month in the Gregorian calendar: thirty days have the fourth, the sixth, the
ninth and the eleventh, and all the rest have thirty-one, but for the second. -/
def lengthOfMonth (year month : Nat) : Nat :=
  if month = 2 then if IsLeap year then 29 else 28
  else if month ∈ [4, 6, 9, 11] then 30 else 31

/-- A date, `YYYY-MM-DD`. -/
inductive IsDate : List Char → Prop
  | intro {year month day : Nat} {y m d : List Char} :
      IsNumber 4 y year → IsNumber 2 m month → IsNumber 2 d day →
      1 ≤ month ∧ month ≤ 12 → 1 ≤ day ∧ day ≤ lengthOfMonth year month →
      IsDate (y ++ '-' :: m ++ '-' :: d)

/-- An hour and a minute, `HH:MM`. -/
inductive IsClock : List Char → Prop
  | intro {hour minute : Nat} {h m : List Char} :
      IsNumber 2 h hour → IsNumber 2 m minute → hour ≤ 23 → minute ≤ 59 →
      IsClock (h ++ ':' :: m)

/-- A second, `SS`. The last is a leap second. -/
def IsSecond (text : List Char) : Prop := ∃ second, IsNumber 2 text second ∧ second ≤ 60

/-- A fraction of a second, `.f` with any number of digits but none, where there is one. -/
inductive IsFraction : List Char → Prop
  | none : IsFraction []
  | some {digits : List Char} : digits ≠ [] → (∀ c ∈ digits, c.isDigit = true) →
      IsFraction ('.' :: digits)

/-- A time of day: `HH:MM`, `HH:MM:SS` or `HH:MM:SS.f`. -/
inductive IsTime : List Char → Prop
  | minutes {clock : List Char} : IsClock clock → IsTime clock
  | seconds {clock s f : List Char} : IsClock clock → IsSecond s → IsFraction f →
      IsTime (clock ++ ':' :: s ++ f)

/-- A date and a time, with a letter or a space between them. -/
inductive IsDateTime : List Char → Prop
  | intro {date time : List Char} {separator : Char} :
      IsDate date → separator ∈ ['T', 't', ' '] → IsTime time →
      IsDateTime (date ++ separator :: time)

/-- An offset from UTC: `Z`, `z`, or a sign and `HH:MM`. -/
inductive IsOffset : List Char → Prop
  | zulu {letter : Char} : letter ∈ ['Z', 'z'] → IsOffset [letter]
  | hours {sign : Char} {clock : List Char} : sign ∈ ['+', '-'] → IsClock clock →
      IsOffset (sign :: clock)

/-- The texts of the datetimes of a kind. -/
inductive Conforms : Kind → List Char → Prop
  | localDate {text : List Char} : IsDate text → Conforms .localDate text
  | localTime {text : List Char} : IsTime text → Conforms .localTime text
  | localDateTime {text : List Char} : IsDateTime text → Conforms .localDateTime text
  | offsetDateTime {text offset : List Char} : IsDateTime text → IsOffset offset →
      Conforms .offsetDateTime (text ++ offset)

/-! ## Calendar -/

theorem isLeapYear_eq (year : Nat) : isLeapYear year = decide (IsLeap year) := by
  unfold isLeapYear IsLeap
  rw [Bool.eq_iff_iff]
  simp only [Nat.dvd_iff_mod_eq_zero, Bool.or_eq_true, Bool.and_eq_true, decide_eq_true_eq]

/-- The table has every month of the year. -/
theorem daysInMonth_eq {month : Nat} (year : Nat) (inYear : 1 ≤ month ∧ month ≤ 12) :
    daysInMonth year month = some (lengthOfMonth year month) := by
  have common : ∀ month ∈ List.range' 1 12, month ≠ 2 →
      monthLengths[month]? = some (if month ∈ [4, 6, 9, 11] then 30 else 31) := by decide
  unfold daysInMonth lengthOfMonth
  rw [isLeapYear_eq]
  by_cases second : month = 2
  · subst second
    by_cases leap : IsLeap year
    · simp [leap]
    · simp [leap, monthLengths]
  · rw [if_neg (by simp [second]), if_neg second]
    exact common month (by simp only [List.mem_range'_1]; omega) second

/-- The table of months is never left. -/
theorem Date.isValid_eq (date : Date) : date.isValid = some (decide (
    (1 ≤ date.month ∧ date.month ≤ 12) ∧
      1 ≤ date.day ∧ date.day ≤ lengthOfMonth date.year date.month)) := by
  unfold Date.isValid
  by_cases asked : (1 ≤ date.month ∧ date.month ≤ 12) ∧ 1 ≤ date.day
  · rw [if_pos (by simpa using asked), daysInMonth_eq _ asked.1]
    simp [asked]
  · rw [if_neg (by simpa using asked), Option.some.injEq, eq_comm, decide_eq_false_iff_not]
    exact fun inside => asked ⟨inside.1, inside.2.1⟩

/-! ## Readers -/

theorem readNumber_eq_some_iff :
    readNumber count text = some (n, rest) ↔
      ∃ digits, IsNumber count digits n ∧ text = digits ++ rest := by
  unfold readNumber
  constructor
  · intro h
    split at h
    · next enough =>
      obtain ⟨value, read, same⟩ := Option.map_eq_some_iff.mp h
      cases same
      have denotes := (number_eq_some_iff (by decide)).mp read
      exact ⟨text.take count, ⟨List.length_take_of_le enough, denotes⟩,
        (List.take_append_drop _ _).symm⟩
    · cases h
  · rintro ⟨digits, ⟨rfl, denotes⟩, rfl⟩
    have read := (number_eq_some_iff (by decide)).mpr denotes
    rw [if_pos (by simp), List.take_left, List.drop_left, read]
    rfl

theorem readOneOf_eq_some_iff {choices : List Char} :
    readOneOf choices text = some (c, rest) ↔ c ∈ choices ∧ text = c :: rest := by
  cases text with
  | nil => simp [readOneOf]
  | cons first others =>
    rw [readOneOf]
    split
    · next member => grind
    · next other => grind

theorem readNumbers_eq_some_iff {date : Date} :
    readNumbers text = some (date, rest) ↔ ∃ y m d, IsNumber 4 y date.year ∧
      IsNumber 2 m date.month ∧ IsNumber 2 d date.day ∧
      text = (y ++ '-' :: m ++ '-' :: d) ++ rest := by
  simp only [readNumbers, Option.bind_eq_bind, Option.bind_eq_some_iff, Prod.exists,
    readNumber_eq_some_iff, readOneOf_eq_some_iff, List.mem_singleton, Option.pure_def,
    Option.some.injEq, Prod.mk.injEq]
  constructor
  · rintro ⟨_, _, ⟨y, year, rfl⟩, _, _, ⟨rfl, rfl⟩, _, _, ⟨m, month, rfl⟩, _, _, ⟨rfl, rfl⟩,
      _, _, ⟨d, day, rfl⟩, rfl, rfl⟩
    exact ⟨y, m, d, year, month, day, by simp⟩
  · rintro ⟨y, m, d, year, month, day, rfl⟩
    simp only [List.append_assoc, List.cons_append]
    exact ⟨_, _, ⟨y, year, rfl⟩, _, _, ⟨rfl, rfl⟩, _, _, ⟨m, month, rfl⟩, _, _, ⟨rfl, rfl⟩,
      _, _, ⟨d, day, rfl⟩, rfl, rfl⟩

theorem readDate_eq_some_iff :
    readDate text = some rest ↔ ∃ front, IsDate front ∧ text = front ++ rest := by
  simp only [readDate, Option.bind_eq_bind, Option.bind_eq_some_iff, Prod.exists,
    readNumbers_eq_some_iff, Date.isValid_eq, Option.some.injEq, decide_eq_true_eq,
    Option.ite_none_right_eq_some]
  constructor
  · rintro ⟨date, _, ⟨y, m, d, year, month, day, rfl⟩, ⟨inYear, inMonth⟩, rfl⟩
    exact ⟨_, .intro year month day inYear inMonth, rfl⟩
  · rintro ⟨_, ⟨year, month, day, inYear, inMonth⟩, rfl⟩
    exact ⟨⟨_, _, _⟩, rest, ⟨_, _, _, year, month, day, rfl⟩, ⟨inYear, inMonth⟩, rfl⟩

theorem readClock_eq_some_iff :
    readClock text = some rest ↔ ∃ front, IsClock front ∧ text = front ++ rest := by
  simp only [readClock, Option.bind_eq_bind, Option.bind_eq_some_iff, Prod.exists,
    readNumber_eq_some_iff, readOneOf_eq_some_iff, List.mem_singleton, Bool.and_eq_true,
    decide_eq_true_eq, Option.ite_none_right_eq_some, Option.some.injEq]
  constructor
  · rintro ⟨_, _, ⟨h, hour, rfl⟩, _, _, ⟨rfl, rfl⟩, _, _, ⟨m, minute, rfl⟩, ⟨inDay, inHour⟩, rfl⟩
    exact ⟨_, .intro hour minute inDay inHour, by simp⟩
  · rintro ⟨_, ⟨hour, minute, inDay, inHour⟩, rfl⟩
    exact ⟨_, _, ⟨_, hour, by simp⟩, _, _, ⟨rfl, rfl⟩, _, _, ⟨_, minute, rfl⟩, ⟨inDay, inHour⟩, rfl⟩

/-- What is left of a text after a time: nothing that could be read as part of the time. -/
def Ends (rest : List Char) : Prop :=
  ∀ c ∈ rest.head?, c ≠ ':' ∧ c ≠ '.' ∧ c.isDigit = false

theorem exists_of_readFraction (read : readFraction text = some rest) :
    ∃ front, IsFraction front ∧ text = front ++ rest := by
  unfold readFraction at read
  split at read
  · next digits =>
    simp only [Option.ite_none_left_eq_some, List.isEmpty_iff, Option.some.injEq] at read
    obtain ⟨some_, rfl⟩ := read
    refine ⟨_, .some some_ fun c member => ?_, by simp⟩
    exact List.mem_takeWhile_imp member
  · cases read
    exact ⟨[], .none, rfl⟩

theorem readFraction_append (fraction : IsFraction front) (ends : Ends rest) :
    readFraction (front ++ rest) = some rest := by
  cases fraction with
  | none =>
    cases rest with
    | nil => rfl
    | cons c others =>
      have point : c ≠ '.' := (ends c rfl).2.1
      simp [readFraction, point]
  | some some_ decimal =>
    -- The loop takes all digits that there are, and none of the rest is one.
    have stop : rest.takeWhile Char.isDigit = [] ∧ rest.dropWhile Char.isDigit = rest := by
      cases rest with
      | nil => exact ⟨rfl, rfl⟩
      | cons c others =>
        have other : c.isDigit = false := (ends c rfl).2.2
        simp [other]
    rw [List.cons_append, readFraction, List.takeWhile_append_of_pos decimal,
      List.dropWhile_append_of_pos decimal, stop.1, stop.2]
    simp [some_]

theorem exists_of_readTime (read : readTime text = some rest) :
    ∃ front, IsTime front ∧ text = front ++ rest := by
  simp only [readTime, Option.bind_eq_bind, Option.bind_eq_some_iff, readClock_eq_some_iff] at read
  obtain ⟨_, ⟨clock, isClock, rfl⟩, seconds⟩ := read
  unfold readSeconds at seconds
  split at seconds
  · simp only [Option.bind_eq_bind, Option.bind_eq_some_iff, Prod.exists, readNumber_eq_some_iff,
      Option.ite_none_right_eq_some] at seconds
    obtain ⟨second, _, ⟨s, number, rfl⟩, bound, fraction⟩ := seconds
    obtain ⟨f, isFraction, rfl⟩ := exists_of_readFraction fraction
    exact ⟨_, .seconds isClock ⟨second, number, bound⟩ isFraction, by simp⟩
  · cases seconds
    exact ⟨clock, .minutes isClock, rfl⟩

theorem readTime_append (time : IsTime front) (ends : Ends rest) :
    readTime (front ++ rest) = some rest := by
  simp only [readTime, Option.bind_eq_bind, Option.bind_eq_some_iff, readClock_eq_some_iff]
  cases time with
  | minutes isClock =>
    refine ⟨rest, ⟨_, isClock, rfl⟩, ?_⟩
    unfold readSeconds
    split
    · next others => exact absurd rfl (ends ':' rfl).1
    · rfl
  | seconds isClock isSecond isFraction =>
    obtain ⟨second, number, bound⟩ := isSecond
    refine ⟨_, ⟨_, isClock, by simp only [List.append_assoc]; rfl⟩, ?_⟩
    simp only [readSeconds, List.cons_append, Option.bind_eq_bind, Option.bind_eq_some_iff,
      Prod.exists, readNumber_eq_some_iff]
    refine ⟨second, _, ⟨_, number, rfl⟩, ?_⟩
    rw [if_pos bound]
    exact readFraction_append isFraction ends

theorem readOffset_eq_some_iff :
    readOffset text = some rest ↔ ∃ front, IsOffset front ∧ text = front ++ rest := by
  simp only [readOffset, Option.bind_eq_bind, Option.bind_eq_some_iff, Prod.exists,
    readOneOf_eq_some_iff]
  constructor
  · rintro ⟨c, others, ⟨member, rfl⟩, read⟩
    split at read
    · next zulu =>
      cases read
      exact ⟨[c], .zulu (by simpa using zulu), rfl⟩
    · next sign =>
      obtain ⟨clock, isClock, rfl⟩ := readClock_eq_some_iff.mp read
      exact ⟨c :: clock, .hours (by grind) isClock, rfl⟩
  · rintro ⟨_, offset, rfl⟩
    cases offset with
    | zulu letter =>
      refine ⟨_, rest, ⟨by grind, rfl⟩, ?_⟩
      rw [if_pos (by simpa using letter)]
    | hours sign isClock =>
      refine ⟨_, _, ⟨by grind, rfl⟩, ?_⟩
      rw [if_neg (by grind)]
      exact readClock_eq_some_iff.mpr ⟨_, isClock, rfl⟩

theorem exists_of_readDateTime (read : readDateTime text = some rest) :
    ∃ front, IsDateTime front ∧ text = front ++ rest := by
  simp only [readDateTime, Option.bind_eq_bind, Option.bind_eq_some_iff, Prod.exists,
    readDate_eq_some_iff, readOneOf_eq_some_iff] at read
  obtain ⟨_, ⟨date, isDate, rfl⟩, separator, _, ⟨member, rfl⟩, time⟩ := read
  obtain ⟨time, isTime, rfl⟩ := exists_of_readTime time
  exact ⟨_, .intro isDate member isTime, by simp⟩

theorem readDateTime_append (datetime : IsDateTime front) (ends : Ends rest) :
    readDateTime (front ++ rest) = some rest := by
  obtain ⟨isDate, member, isTime⟩ := datetime
  simp only [readDateTime, Option.bind_eq_bind, Option.bind_eq_some_iff, Prod.exists,
    readDate_eq_some_iff, readOneOf_eq_some_iff, List.append_assoc, List.cons_append]
  exact ⟨_, ⟨_, isDate, rfl⟩, _, _, ⟨member, rfl⟩, readTime_append isTime ends⟩

/-! ## Checker -/

theorem ends_nil : Ends [] := by
  rintro c ⟨⟩

/-- An offset starts with a letter or a sign. -/
theorem IsOffset.ends (offset : IsOffset text) : Ends text := by
  cases offset with
  | zulu letter =>
    rintro c ⟨⟩
    simp only [List.mem_cons, List.not_mem_nil, or_false] at letter
    rcases letter with rfl | rfl <;> decide
  | hours sign isClock =>
    rintro c ⟨⟩
    simp only [List.mem_cons, List.not_mem_nil, or_false] at sign
    rcases sign with rfl | rfl <;> decide

theorem read_eq_nil_iff (kind : Kind) : read kind text = some [] ↔ Conforms kind text := by
  constructor
  · intro done
    unfold read at done
    split at done
    · obtain ⟨front, date, rfl⟩ := readDate_eq_some_iff.mp done
      exact .localDate (by simpa using date)
    · obtain ⟨front, time, rfl⟩ := exists_of_readTime done
      exact .localTime (by simpa using time)
    · obtain ⟨front, datetime, rfl⟩ := exists_of_readDateTime done
      exact .localDateTime (by simpa using datetime)
    · obtain ⟨_, front, last⟩ := Option.bind_eq_some_iff.mp done
      obtain ⟨front, datetime, rfl⟩ := exists_of_readDateTime front
      obtain ⟨last, offset, rfl⟩ := readOffset_eq_some_iff.mp last
      exact .offsetDateTime datetime (by simpa using offset)
    · cases done
  · intro conforms
    cases conforms with
    | localDate date => exact readDate_eq_some_iff.mpr ⟨text, date, by simp⟩
    | localTime time => simpa [read] using readTime_append time ends_nil
    | localDateTime datetime => simpa [read] using readDateTime_append datetime ends_nil
    | offsetDateTime datetime offset =>
      refine Option.bind_eq_some_iff.mpr ⟨_, readDateTime_append datetime offset.ends, ?_⟩
      exact readOffset_eq_some_iff.mpr ⟨_, offset, by simp⟩

/-- The checker accepts the texts of the grammar and no others, and reading the numbers of a date
never leads out of the table of months. -/
theorem wellFormed_iff (kind : Kind) (text : String) :
    (isWellFormed kind text = true ↔ Conforms kind text.toList) ∧
      ∀ date rest, readNumbers text.toList = some (date, rest) → date.isValid ≠ none := by
  constructor
  · rw [isWellFormed, decide_eq_true_eq]
    exact read_eq_nil_iff kind
  · intro date rest _
    rw [Date.isValid_eq]
    exact Option.some_ne_none _

end TomlSemantics.Datetime
