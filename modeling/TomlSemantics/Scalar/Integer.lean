import TomlSemantics.Text.Digits

/-!
# Integers

The four spellings of an integer are read by the value of their digits and written again in
decimal. Underscores may stand anywhere and mean nothing. A decimal integer is a signed word of
64 bits, one in another base an unsigned one.
-/

namespace TomlSemantics

/-- Why a value has no canonical text. -/
inductive Malformed
  | outOfRange
  | invalidDigits
deriving DecidableEq, Repr

/-- What a message says about it. -/
def Malformed.describe : Malformed → String
  | outOfRange => "integer out of range"
  | invalidDigits => "invalid digits"

/-- The text without its underscores. -/
def dropUnderscores (cs : List Char) : List Char := cs.filter (· ≠ '_')

/-- The text without `first` at its front, where it starts with that. -/
def dropLeading (first cs : List Char) : List Char :=
  if first.isPrefixOf cs then cs.drop first.length else cs

namespace Integer

/-- Reads an integer without a sign. -/
def readNat (base : Nat) (digits : List Char) : Except Malformed Nat :=
  match Digits.number base digits with
  | some value => .ok value
  | none => .error .invalidDigits

/-- An integer in decimal, without a sign unless it is negative. -/
def decimalText (i : Int) : String :=
  if i < 0 then "-" ++ i.natAbs.repr else i.natAbs.repr

/-- Reads an integer that may have a minus in front. -/
def readInt : List Char → Except Malformed Int
  | '-' :: digits => (fun n => -(n : Int)) <$> readNat 10 digits
  | digits => (fun n => (n : Int)) <$> readNat 10 digits

/-- Reads a decimal integer: a plus may stand in front, then a minus, then digits. -/
def readDecimal (text : List Char) : Except Malformed Int := do
  let value ← readInt (dropLeading ['+'] (dropUnderscores text))
  if -0x8000000000000000 ≤ value ∧ value < 0x8000000000000000 then return value
  else throw .outOfRange

/-- Reads an integer in another base, after the mark of that base where it stands in front. -/
def readBased (mark : List Char) (base : Nat) (text : List Char) : Except Malformed Nat := do
  let value ← readNat base (dropLeading mark (dropUnderscores text))
  if value < 0x10000000000000000 then return value else throw .outOfRange

end Integer

end TomlSemantics
