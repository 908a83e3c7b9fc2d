import TomlSemantics.Location

/-!
# Scalars

A scalar is one token that carries text: a key, a value or a comment. It keeps the text that it
stands for beside the way it was spelled.
-/

namespace TomlSemantics

/-- What kind of token a scalar is. -/
inductive Kind
  | bare | basic | literal | multilineBasic | multilineLiteral
  | boolean
  | decimal | binary | octal | hex
  | float | inf | posInf | negInf | nan | posNan | negNan
  | offsetDateTime | localDateTime | localDate | localTime
  | comment
deriving DecidableEq, Repr, Inhabited

namespace Kind

/-- The kinds whose text is a string, quoted or not. -/
def isString : Kind → Bool
  | bare | basic | literal | multilineBasic | multilineLiteral => true
  | _ => false

/-- The strings that may span lines. -/
def isMultiline : Kind → Bool
  | multilineBasic | multilineLiteral => true
  | _ => false

/-- The kinds that name a day, a time of day, or both. -/
def isDatetime : Kind → Bool
  | offsetDateTime | localDateTime | localDate | localTime => true
  | _ => false

/-- What a message calls a scalar of this kind. -/
def describe : Kind → String
  | bare => "bare string"
  | basic => "basic string"
  | literal => "literal string"
  | multilineBasic => "multiline basic string"
  | multilineLiteral => "multiline literal string"
  | boolean => "boolean"
  | decimal => "decimal integer"
  | binary => "binary integer"
  | octal => "octal integer"
  | hex => "hexadecimal integer"
  | float => "float"
  | inf | posInf | negInf => "infinity"
  | nan | posNan | negNan => "not-a-number"
  | offsetDateTime => "offset datetime"
  | localDateTime => "local datetime"
  | localDate => "local date"
  | localTime => "local time"
  | comment => "comment"

end Kind

/-- A token with text. `text` is what it stands for, with escapes resolved; `spelling` is what the
source holds, without the quotes of a string. -/
structure Scalar where
  kind : Kind
  text : String
  spelling : String
  location : Location := {}
deriving DecidableEq, Repr, Inhabited

namespace Scalar

/-- A scalar that is spelled as it reads. -/
def verbatim (kind : Kind) (text : String) : Scalar := ⟨kind, text, text, {}⟩

/-- The scalar placed at the start of a line. -/
def atLine (s : Scalar) (n : Nat) : Scalar := { s with location := .atLine n }

/-- The line that the scalar starts on. -/
def line (s : Scalar) : Nat := s.location.line

end Scalar

end TomlSemantics
