import TomlSemantics.Scalar.Integer

/-!
# Floating-point numerals

A float keeps its digits: only underscores and a leading plus are dropped. What is left has to be
a numeral. A numeral is an optional sign, then a word for an infinity or for not-a-number in any
case, or digits with at most one point among them and an optional exponent. The size of the
exponent does not matter.
-/

namespace TomlSemantics.Float

/-- The text without one sign at its front. -/
def dropSign : List Char → List Char
  | '+' :: rest => rest
  | '-' :: rest => rest
  | text => text

/-- The words for numbers that have no digits. -/
def specialWords : List (List Char) := ["inf".toList, "infinity".toList, "nan".toList]

/-- Whether the text is nothing but digits, and at least one. -/
def isDigits (text : List Char) : Bool := !text.isEmpty && text.all Char.isDigit

/-- Whether the text is empty or an exponent. -/
def isExponent : List Char → Bool
  | [] => true
  | c :: rest => (c = 'e' || c = 'E') && isDigits (dropSign rest)

/-- Whether the text is digits with at most one point, and perhaps an exponent. A digit has to
stand on one side of the point. -/
def isUnsignedNumber (text : List Char) : Bool :=
  let whole := text.takeWhile Char.isDigit
  match text.dropWhile Char.isDigit with
  | '.' :: rest =>
      !(whole ++ rest.takeWhile Char.isDigit).isEmpty && isExponent (rest.dropWhile Char.isDigit)
  | rest => !whole.isEmpty && isExponent rest

/-- Whether the text is a numeral. -/
def isNumeral (text : List Char) : Bool :=
  let unsigned := dropSign text
  specialWords.contains (unsigned.map Char.toLower) || isUnsignedNumber unsigned

/-- The text of a float without underscores and without a plus in front. -/
def normalise (text : List Char) : List Char :=
  if '_' ∈ text ∨ text.head? = some '+' then dropLeading ['+'] (dropUnderscores text) else text

/-- Reads a float: the numeral that is left of it. -/
def read (text : List Char) : Except Malformed (List Char) :=
  if isNumeral (normalise text) then .ok (normalise text) else .error .invalidDigits

example : isNumeral "6.626e-34".toList = true := by decide
example : isNumeral ".5".toList = true := by decide
example : isNumeral ".".toList = false := by decide
example : isNumeral "-Infinity".toList = true := by decide

end TomlSemantics.Float
