import TomlSemantics.Builder.State
import TomlSemantics.Scalar.Canonical
import TomlSemantics.Scalar.Datetime
import TomlSemantics.Text.Marked

/-!
# Storing a value

A scalar value is held until its pair or element ends; only then is it stored in the key. What is
stored is its canonical text; attributes keep its type, its quotes and its spelling.
-/

namespace TomlSemantics

/-! ## Which scalars are values -/

/-- A scalar that can be a value. Strings need quotes, and datetimes have to be well formed. -/
def Scalar.checkValue (s : Scalar) : Except Cause Unit :=
  match s.kind with
  | .bare => .error .bareValue
  | .comment => .error .commentAsValue
  | .offsetDateTime | .localDateTime | .localDate | .localTime =>
      if Datetime.isWellFormed s.kind s.text then .ok () else .error (.invalidDatetime s.spelling)
  | _ => .ok ()

/-! ## What is kept beside the text -/

/-- How a kind of value is stored. -/
inductive Storage
  /-- A string in these quotes. -/
  | quoted (c : Construct)
  /-- A value of this type, with its spelling or without. -/
  | typed (t : ValueType) (keepSpelling : Bool)
  /-- Text with its spelling. -/
  | plain
deriving DecidableEq, Repr

/-- How values of a kind are stored. Bare strings and comments are no values. -/
def Kind.storage : Kind → Option Storage
  | basic => some (.quoted .basicString)
  | literal => some (.quoted .literalString)
  | multilineBasic => some (.quoted .multilineBasicString)
  | multilineLiteral => some (.quoted .multilineLiteralString)
  | boolean => some (.typed .boolean false)
  | decimal => some (.typed .longLong true)
  | binary | octal | hex => some (.typed .unsignedLongLong true)
  | float | inf | posInf | negInf | nan | posNan | negNan => some (.typed .double true)
  | offsetDateTime | localDateTime | localDate | localTime => some .plain
  | bare | comment => none

namespace Key

/-- The key with a string as its value. The null marker stands for no value. Bytes in base 64 keep
neither type nor spelling; of the others, an empty string gets no type, and a key that is typed as
bytes keeps that. -/
def storeString (k : Key) (text spelling : String) : Key :=
  let k := k.setText text
  if Text.isNull text then k.setBytes []
  else if Text.isBase64 text then k
  else
    let typed :=
      if k.valueType ≠ some .binary ∧ text ≠ "" then k.setValueType .string else k
    typed.noteSpelling spelling

/-- The key with a value, given by its canonical text and its spelling. -/
def store (k : Key) (storage : Storage) (text spelling : String) : Key :=
  match storage with
  | .quoted c => (k.storeString text spelling).setConstruct c
  | .typed t keepSpelling =>
      let typed := (k.setText text).setValueType t
      if keepSpelling then typed.noteSpelling spelling else typed
  | .plain => (k.setText text).noteSpelling spelling

end Key

namespace Builder

/-- Reads a value, to be stored when its pair or element ends. -/
def holdValue (scalar : Scalar) : Builder Unit := do
  setLocation scalar.location
  lift scalar.checkValue
  modify fun s => { s with held := some scalar }

/-- The canonical text of a value and how it is stored. -/
def storedForm (scalar : Scalar) : Except Cause (String × Storage) :=
  match scalar.canonical with
  | .error reason => .error (.malformedValue scalar.kind scalar.spelling reason)
  | .ok text =>
      match scalar.kind.storage with
      | none => .error (.unstorable scalar.kind)
      | some storage => .ok (text, storage)

/-- Stores a value in the innermost open node. -/
def storeValue (scalar : Scalar) : Builder Unit := do
  let form ← lift (storedForm scalar)
  let id ← top
  change id (·.store form.2 form.1 scalar.spelling)
  emit id

/-- Drops the value that is held; a table has none. -/
def dropHeld : Builder Unit := modify fun s => { s with held := none }

/-- Stores the value that is held, if there is one. -/
def storeHeld : Builder Unit := do
  match (← get).held with
  | none => return ()
  | some scalar =>
      dropHeld
      storeValue scalar

/-- Ends a pair or an element: its value is stored and its node closed. -/
def endValue : Builder Unit := do
  storeHeld
  closePrevious

end Builder

end TomlSemantics
