import TomlSemantics.SortedMap
import TomlSemantics.Name.Basic
import TomlSemantics.Name.ElementIndex
import TomlSemantics.Key.Attribute
import TomlSemantics.Key.Comments

/-!
# Keys

A key is a named place of the tree with a value, attributes, a number that tells where in the
document it was defined, and comments. Setting a value keeps the attribute for bytes in step;
all other attributes change only when they are set.
-/

namespace TomlSemantics

/-- The value of a key. No bytes at all stand for no value. -/
inductive KeyValue
  | text (s : String)
  | bytes (b : List UInt8)
deriving DecidableEq, Repr

/-- A named place of the tree. -/
structure Key where
  name : Name
  value : Option KeyValue := none
  attributes : SortedMap String String := ∅
  order : Option Nat := none
  comments : Comments := {}
deriving DecidableEq

namespace Key

/-! ## Attributes -/

/-- The text of an attribute. -/
def attributeText (k : Key) (name : String) : Option String := k.attributes.lookup name

/-- The key with the text of an attribute. -/
def setAttribute (k : Key) (name text : String) : Key :=
  { k with attributes := k.attributes.insert name text }

/-- The key without an attribute. -/
def removeAttribute (k : Key) (name : String) : Key :=
  { k with attributes := k.attributes.erase name }

/-- The type of the value, where the attribute spells one. -/
def valueType (k : Key) : Option ValueType :=
  (k.attributeText Attribute.valueType).bind ValueType.ofSpelling

/-- The key with the type of its value. -/
def setValueType (k : Key) (t : ValueType) : Key := k.setAttribute Attribute.valueType t.spelling

/-- The construct that the key came from, where the attribute spells one. -/
def construct (k : Key) : Option Construct :=
  (k.attributeText Attribute.construct).bind Construct.ofSpelling

/-- The key with the construct that it came from. -/
def setConstruct (k : Key) (c : Construct) : Key := k.setAttribute Attribute.construct c.spelling

/-- Whether the key is the root of an array of tables. -/
def isTableArray (k : Key) : Bool := k.construct = some .tableArray

/-! ## Values -/

/-- The value, if it is text. -/
def text (k : Key) : Option String :=
  match k.value with
  | some (.text s) => some s
  | _ => none

/-- The key with text as its value. -/
def setText (k : Key) (s : String) : Key :=
  { k.removeAttribute Attribute.binary with value := some (.text s) }

/-- The key with bytes as its value. -/
def setBytes (k : Key) (b : List UInt8) : Key :=
  { k.setAttribute Attribute.binary "" with value := some (.bytes b) }

/-- Whether the key is marked as one whose value is bytes. -/
def isBinary (k : Key) : Bool := k.attributes.contains Attribute.binary

/-- How the value was spelled, where that is not how it is stored. -/
def spelling (k : Key) : Option String := k.attributeText Attribute.spelling

/-- The key with the spelling of its value, where that is not the value itself. -/
def noteSpelling (k : Key) (s : String) : Key :=
  if k.text = some s then k else k.setAttribute Attribute.spelling s

/-! ## Arrays -/

/-- The segment of the last element of an array. -/
def arrayMarker (k : Key) : Option String := k.attributeText Attribute.array

/-- The key marked as an array without elements. -/
def markArray (k : Key) : Key := k.setAttribute Attribute.array ""

/-- The key marked as an array whose last element is at an index. -/
def markLastElement (k : Key) (index : Nat) : Key :=
  k.setAttribute Attribute.array (ElementIndex.segment index)

/-- The index of the last element of an array of tables. -/
def lastTableElement (k : Key) : Option Nat :=
  if k.isTableArray then k.arrayMarker.bind ElementIndex.ofSegment else none

/-! ## Order and comments -/

/-- The key with its number in the document. -/
def setOrder (k : Key) (n : Nat) : Key := { k with order := some n }

/-- The key with a comment on its line. -/
def setInline (k : Key) (c : Comment) : Key :=
  { k with comments := { k.comments with inline := some c } }

/-- The key with more comments before it. -/
def addLeading (k : Key) (block : List BlockEntry) : Key :=
  { k with comments := { k.comments with leading := k.comments.leading ++ block } }

/-- The key with more comments after its last element. -/
def addTrailing (k : Key) (block : List BlockEntry) : Key :=
  { k with comments := { k.comments with trailing := k.comments.trailing ++ block } }

end Key

end TomlSemantics
