import TomlSemantics.Scalar.Basic
import TomlSemantics.Scalar.Integer
import TomlSemantics.Scalar.Float

/-!
# Canonical text

Every scalar that means the same number, truth value or datetime is stored as the same text.
Strings, dates and times of day are stored as they are.
-/

namespace TomlSemantics

namespace Datetime

/-- The text with a capital `T` at byte `n`, if the letter or a space stands there. A character
that only reaches across that byte is left alone. -/
def upgradeSeparator : (n : Nat) → List Char → List Char
  | _, [] => []
  | 0, c :: rest => (if c = 't' ∨ c = ' ' then 'T' else c) :: rest
  | n + 1, c :: rest =>
      c :: if c.utf8Size ≤ n + 1 then upgradeSeparator (n + 1 - c.utf8Size) rest else rest

/-- The text with a capital `Z` at its end, if the letter stands there. -/
def upgradeZulu (text : List Char) : List Char :=
  if text.getLast? = some 'z' then text.dropLast ++ ['Z'] else text

/-- The byte of the separator, just past the date. -/
def separatorByte : Nat := 10

/-- A datetime with capital letters around its time. -/
def canonical (text : List Char) : List Char := upgradeZulu (upgradeSeparator separatorByte text)

end Datetime

namespace Scalar

/-- The canonical text: integers in decimal, truth values as digits, the special floats by their
word, datetimes with capital letters, all other text as it is. -/
def canonical (s : Scalar) : Except Malformed String :=
  match s.kind with
  | .boolean =>
      if s.text = "true" then .ok "1"
      else if s.text = "false" then .ok "0"
      else .error .invalidDigits
  | .decimal => Integer.decimalText <$> Integer.readDecimal s.text.toList
  | .binary => Nat.repr <$> Integer.readBased ['0', 'b'] 2 s.text.toList
  | .octal => Nat.repr <$> Integer.readBased ['0', 'o'] 8 s.text.toList
  | .hex => Nat.repr <$> Integer.readBased ['0', 'x'] 16 s.text.toList
  | .float => String.ofList <$> Float.read s.text.toList
  | .inf | .posInf => .ok "inf"
  | .negInf => .ok "-inf"
  | .nan | .posNan | .negNan => .ok "nan"
  | .offsetDateTime | .localDateTime => .ok (.ofList (Datetime.canonical s.text.toList))
  | .bare | .basic | .literal | .multilineBasic | .multilineLiteral | .comment
  | .localDate | .localTime => .ok s.text

end Scalar

end TomlSemantics
