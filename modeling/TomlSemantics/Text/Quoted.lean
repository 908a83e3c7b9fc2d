import TomlSemantics.Text.Invisible
import TomlSemantics.Text.Extending

/-!
# Quoted text

A text between double quotes on one line. Whatever would break the line, end the quote or not be
seen is escaped, so that different texts look different.
-/

namespace TomlSemantics.Text

/-- A code point in hexadecimal, between braces. -/
def codePointEscape (c : Char) : List Char :=
  ['\\', 'u', '\x7b'] ++ Nat.toDigits 16 c.toNat ++ ['\x7d']

/-- What stands for a character between quotes. -/
def quotedChar (c : Char) : List Char :=
  match c with
  | '\"' => ['\\', '\"']
  | '\\' => ['\\', '\\']
  | '\n' => ['\\', 'n']
  | '\r' => ['\\', 'r']
  | '\t' => ['\\', 't']
  | '\x00' => ['\\', '0']
  | _ =>
      if ' ' ≤ c ∧ c ≤ '~' then [c]
      else if isInvisible c || isExtending c then codePointEscape c
      else [c]

/-- The text between double quotes. -/
def quoted (s : String) : String :=
  .ofList ('\"' :: s.toList.flatMap quotedChar ++ ['\"'])

example : quoted "tab\there" = "\"tab\\there\"" := by decide

end TomlSemantics.Text
