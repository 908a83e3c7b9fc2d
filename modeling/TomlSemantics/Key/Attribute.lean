/-!
# Attributes of a key

Attributes are texts under the names below. Two of them spell a value of a fixed set: the type of
the key's value, and the construct of TOML that the key came from.
-/

namespace TomlSemantics

namespace Attribute

/-- The type of the value. -/
def valueType : String := "type"
/-- The construct that the key came from. -/
def construct : String := "tomltype"
/-- How the value was spelled, where that is not how it is stored. -/
def spelling : String := "origvalue"
/-- On an array, the segment of the last element; empty while there is none. -/
def array : String := "array"
/-- On a key whose value is bytes. -/
def binary : String := "binary"

end Attribute

/-- The type of a value. -/
inductive ValueType
  | boolean | longLong | unsignedLongLong | double | string | binary
deriving DecidableEq, Repr

namespace ValueType

/-- The types there are. -/
def all : List ValueType := [boolean, longLong, unsignedLongLong, double, string, binary]

/-- How the attribute spells a type. -/
def spelling : ValueType → String
  | boolean => "boolean"
  | longLong => "long_long"
  | unsignedLongLong => "unsigned_long_long"
  | double => "double"
  | string => "string"
  | binary => "binary"

/-- The type that a text spells. -/
def ofSpelling (s : String) : Option ValueType := all.find? fun t => t.spelling = s

@[simp] theorem ofSpelling_spelling (t : ValueType) : ofSpelling t.spelling = some t := by
  cases t <;> decide

end ValueType

/-- The construct of TOML that a key came from. -/
inductive Construct
  | basicString | multilineBasicString | literalString | multilineLiteralString
  | table | tableArray | inlineTable
deriving DecidableEq, Repr

namespace Construct

/-- The constructs there are. -/
def all : List Construct :=
  [basicString, multilineBasicString, literalString, multilineLiteralString,
    table, tableArray, inlineTable]

/-- How the attribute spells a construct. -/
def spelling : Construct → String
  | basicString => "string_basic"
  | multilineBasicString => "string_ml_basic"
  | literalString => "string_literal"
  | multilineLiteralString => "string_ml_literal"
  | table => "simpletable"
  | tableArray => "tablearray"
  | inlineTable => "inlinetable"

/-- The construct that a text spells. -/
def ofSpelling (s : String) : Option Construct := all.find? fun t => t.spelling = s

@[simp] theorem ofSpelling_spelling (t : Construct) : ofSpelling t.spelling = some t := by
  cases t <;> decide

end Construct

end TomlSemantics
