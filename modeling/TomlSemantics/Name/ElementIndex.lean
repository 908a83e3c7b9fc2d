import TomlSemantics.Text.Digits

/-!
# Segments of array elements

The element at index `n` of an array is named `#`, then an underscore for every digit of `n` after
the first, then the digits: `#0` to `#9`, `#_10` to `#_99`, `#__100`. So the segments of one array
are in order of their index.
-/

namespace TomlSemantics.ElementIndex

/-- Indices are words of 64 bits. -/
def limit : Nat := 0x10000000000000000

/-- The segment of the element at an index. -/
def segment (index : Nat) : String :=
  let digits := Nat.toDigits 10 index
  .ofList ('#' :: List.replicate (digits.length - 1) '_' ++ digits)

/-- The index in digits after underscores, one less than there are digits. Only zero itself starts
with a zero. -/
def readDigits (underscores : Nat) (digits : List Char) : Option Nat :=
  if digits.length ≠ underscores + 1 ∨ 1 < digits.length ∧ digits.head? = some '0' then none
  else (Digits.number 10 digits).filter (· < limit)

/-- The index of the element that a segment names, for the segments that name one. -/
def ofSegment (s : String) : Option Nat :=
  match s.toList with
  | '#' :: rest =>
      readDigits (rest.takeWhile (· = '_')).length (rest.dropWhile (· = '_'))
  | _ => none

example : segment 10 = "#_10" := by decide
example : ofSegment "#__123" = some 123 := by decide
example : ofSegment "#_05" = none := by decide

end TomlSemantics.ElementIndex
