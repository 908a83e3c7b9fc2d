/-!
# White space

The code points with the property `White_Space` in Unicode. They take up room on a line and show
nothing.
-/

namespace TomlSemantics.Text

/-- Ranges of code points, both ends included, in increasing order. -/
def blankRanges : List (Nat × Nat) :=
  [(0x9, 0xd), (0x20, 0x20), (0x85, 0x85), (0xa0, 0xa0), (0x1680, 0x1680), (0x2000, 0x200a),
    (0x2028, 0x2029), (0x202f, 0x202f), (0x205f, 0x205f), (0x3000, 0x3000)]

/-- Whether a character is white space. -/
def isBlank (c : Char) : Bool :=
  blankRanges.any fun r => r.1 ≤ c.toNat && c.toNat ≤ r.2

example : (blankRanges.map fun r => r.2 - r.1 + 1).sum = 25 := by decide
example : ∀ r ∈ blankRanges.zip blankRanges.tail, r.1.2 + 1 < r.2.1 := by decide
example : isBlank '\u3000' = true := by decide
example : isBlank '\u200b' = false := by decide

end TomlSemantics.Text
