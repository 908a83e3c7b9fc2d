/-!
# Digits

Numbers written in digits of a base. Letters continue the decimal digits, in either case.
-/

namespace TomlSemantics.Digits

/-- The value of a digit in a base of at most sixteen. -/
def digit (base : Nat) (c : Char) : Option Nat :=
  let value :=
    if c.isDigit then some (c.toNat - '0'.toNat)
    else if 'a' ≤ c ∧ c ≤ 'f' then some (c.toNat - 'a'.toNat + 10)
    else if 'A' ≤ c ∧ c ≤ 'F' then some (c.toNat - 'A'.toNat + 10)
    else none
  value.filter (· < base)

/-- The number that digits denote after digits that denote `before`. -/
def numberFrom (base : Nat) : (before : Nat) → List Char → Option Nat
  | before, [] => some before
  | before, c :: rest => (digit base c).bind fun d => numberFrom base (before * base + d) rest

/-- The number that a nonempty run of digits denotes. -/
def number (base : Nat) (digits : List Char) : Option Nat :=
  if digits.isEmpty then none else numberFrom base 0 digits

example : number 16 "dEadbeef".toList = some 3735928559 := by decide
example : number 8 "9".toList = none := by decide

end TomlSemantics.Digits
