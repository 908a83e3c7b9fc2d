import TomlSemantics.Name.Path
import TomlSemantics.Scalar.Basic
import TomlSemantics.Scalar.Integer

/-!
# Faults

What can go wrong, as causes. A fault is a cause with the place it was noticed at. The class of a
cause says whose fault it is: the text's, the grammar's, the file's. Only `Cause.message` puts a
cause into words.
-/

namespace TomlSemantics

/-- Whose fault it is. -/
inductive FaultClass
  /-- There was not enough memory. -/
  | memory
  /-- The events do not follow the grammar. -/
  | internal
  /-- The grammar does not take the text. -/
  | syntactic
  /-- The text breaks a rule that the grammar cannot see. -/
  | semantic
  /-- The text could not be read. -/
  | resource
deriving DecidableEq, Repr

/-- The word for a class. -/
def FaultClass.word : FaultClass → String
  | memory => "memory"
  | internal => "internal"
  | syntactic => "syntax"
  | semantic => "semantic"
  | resource => "resource"

/-- What a comment stands behind, on the same line. -/
inductive CommentSite
  | pair | header
deriving DecidableEq, Repr

/-- What a message calls it. -/
def CommentSite.describe : CommentSite → String
  | pair => "keypair"
  | header => "table"

/-- Why a file has no text. -/
inductive ReadFailure
  | missing | notUtf8
deriving DecidableEq, Repr

/-- What the system says about it. -/
def ReadFailure.describe : ReadFailure → String
  | missing => "No such file or directory (os error 2)"
  | notUtf8 => "stream did not contain valid UTF-8"

/-- What went wrong. -/
inductive Cause
  /-- A document started inside a document. -/
  | documentStartedTwice
  /-- A segment came without a key to be part of. -/
  | noKeyToExtend
  /-- A key ended that had not started. -/
  | noKeyToEnd
  /-- More ended than had started. -/
  | onlyRootOpen
  /-- Not even the root is open. -/
  | nothingOpen
  /-- A key was let go while it was still needed. -/
  | nodeReleased
  /-- More than one comment stands on a line. -/
  | severalComments (site : CommentSite)
  /-- A line of its own was taken for a comment on a line. -/
  | blankLinesForComment (site : CommentSite)
  /-- A comment stands on the line of a pair, but no pair came before. -/
  | noPairForComment
  /-- A comment came as a value. -/
  | commentAsValue
  /-- A comment came as part of a key. -/
  | commentAsKey
  /-- Something other than a comment came as one. -/
  | notAComment (kind : Kind)
  /-- A value of this kind cannot be stored. -/
  | unstorable (kind : Kind)
  /-- The header of an array of tables has no key. -/
  | namelessTableArray
  /-- An element has no array above it. -/
  | elementWithoutArray
  /-- An array of tables was looked for outside of the one around it. -/
  | scopeOutside (name base : Name)
  /-- An array starts directly inside an array without elements. -/
  | arrayWithoutElement
  /-- An array ended that had not started. -/
  | noArrayToEnd
  /-- An element started outside of every array. -/
  | noArrayToEnter
  /-- There are more blank lines than can be counted. -/
  | tooManyBlankLines
  /-- A string of several lines came as part of a key. -/
  | multilineKey
  /-- Part of a key holds characters that need quotes. -/
  | invalidBareKey (text : String)
  /-- A value is a string without quotes. -/
  | bareValue
  /-- A value looks like a datetime and is none. -/
  | invalidDatetime (spelling : String)
  /-- A table has the name of an array of tables. -/
  | tableIsTableArray (name : Name)
  /-- A name was given twice. -/
  | duplicateName (name : Name)
  /-- A value has no canonical text. -/
  | malformedValue (kind : Kind) (spelling : String) (reason : Malformed)
  /-- An array has more elements than are allowed. -/
  | arrayTooLong (limit : Nat)
  /-- The grammar did not take the text. -/
  | rejected (message : String)
  /-- A file could not be read. -/
  | unreadable (path : String) (reason : ReadFailure)
  /-- The grammar says so. -/
  | reported (faultClass : FaultClass) (message : String)
deriving DecidableEq, Repr

namespace Cause

/-- Whose fault it is. -/
def faultClass : Cause → FaultClass
  | documentStartedTwice | noKeyToExtend | noKeyToEnd | onlyRootOpen | nothingOpen
  | nodeReleased | severalComments _ | blankLinesForComment _ | noPairForComment
  | commentAsValue | commentAsKey | notAComment _ | unstorable _ | namelessTableArray
  | elementWithoutArray | scopeOutside _ _ | arrayWithoutElement | noArrayToEnd
  | noArrayToEnter | tooManyBlankLines => .internal
  | multilineKey | invalidBareKey _ | bareValue | invalidDatetime _ | tableIsTableArray _
  | duplicateName _ | malformedValue _ _ _ | arrayTooLong _ => .semantic
  | rejected _ => .syntactic
  | unreadable _ _ => .resource
  | reported c _ => c

/-- A cause in words. -/
def message : Cause → String
  | documentStartedTwice => "Document entered twice"
  | noKeyToExtend => "Wanted to extend current key, but current key is missing"
  | noKeyToEnd => "Wanted to close current key, but current key is missing"
  | onlyRootOpen => "Wanted to close a key, but only the root key is open"
  | nothingOpen => "Cursor stack is empty"
  | nodeReleased => "Key was released while still in use"
  | severalComments site =>
      "More than one comment existing after exiting " ++ site.describe ++ ", expected up to one"
  | blankLinesForComment site =>
      "Expected a comment after exiting " ++ site.describe ++ ", found blank lines"
  | noPairForComment =>
      "Wanted to assign inline comment to keypair, but keypair key is missing"
  | commentAsValue => "Found a comment where a value was expected"
  | commentAsKey => "Found a comment where a key was expected"
  | notAComment kind => "Expected a comment, found " ++ kind.describe
  | unstorable kind => "Cannot store " ++ kind.describe ++ " as a value"
  | namelessTableArray => "Table array header without a name"
  | elementWithoutArray => "Table array element has no parent"
  | scopeOutside name base =>
      "Table array '" ++ name.toPath ++ "' is outside of '" ++ base.toPath ++ "'"
  | arrayWithoutElement =>
      "Empty array marker on array entry, expected an element to be entered first"
  | noArrayToEnd => "Wanted to close an array, but no array is open"
  | noArrayToEnter => "Wanted to enter an array element, but no array is open"
  | tooManyBlankLines => "Blank line counter overflowed"
  | multilineKey =>
      "Malformed input: Invalid simple key: Found multiline string, but is not allowed"
  | invalidBareKey text =>
      "Malformed input: Invalid bare simple key '" ++ text
        ++ "': only alphanumeric, underline, hyphen allowed. "
        ++ "Consider adding quotations around the string."
  | bareValue =>
      "Malformed input: Found a bare string value, which is not allowed. "
        ++ "Consider adding quotations around the string."
  | invalidDatetime spelling => "Malformed input: Invalid datetime: '" ++ spelling ++ "'"
  | tableIsTableArray name =>
      "Malformed input: Table '" ++ name.toPath ++ "' was already defined as table array"
  | duplicateName name =>
      "Malformed input: Multiple occurrences of keyname '" ++ name.toPath
        ++ "', but keynames must be unique."
  | malformedValue kind spelling reason =>
      "Malformed input: Invalid " ++ kind.describe ++ " '" ++ spelling ++ "': " ++ reason.describe
  | arrayTooLong limit =>
      "Malformed input: Array exceeds the maximum of " ++ limit.repr ++ " elements"
  | rejected message => message
  | unreadable path reason => "Could not read '" ++ path ++ "': " ++ reason.describe
  | reported _ message => message

end Cause

/-- What comes before a step was done, if the step was. -/
theorem exists_of_bind_eq_ok {ε α β : Type} {r : Except ε α} {f : α → Except ε β} {b : β}
    (h : r >>= f = .ok b) : ∃ a, r = .ok a ∧ f a = .ok b := by
  cases r with
  | error cause => cases h
  | ok a => exact ⟨a, rfl, h⟩

/-- A cause with the place it was noticed at, where there is one. -/
structure Fault where
  cause : Cause
  location : Option Location := none
deriving DecidableEq, Repr

namespace Fault

/-- Whose fault it is. -/
def faultClass (f : Fault) : FaultClass := f.cause.faultClass

/-- The fault in words. -/
def message (f : Fault) : String := f.cause.message

/-- The line that the fault was noticed on, or zero. -/
def line (f : Fault) : Nat := (f.location.map Location.line).getD 0

/-- Class, line and message on one line. -/
def describe (f : Fault) : String :=
  f.faultClass.word ++ " error on line " ++ f.line.repr ++ ": " ++ f.message

end Fault

end TomlSemantics
