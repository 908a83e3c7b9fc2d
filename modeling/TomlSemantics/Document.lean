import TomlSemantics.Event

/-!
# Documents line by line

A document is a list of lines. Each line gives the events that a grammar would report of it, with
its scalars at the start of the line.
-/

namespace TomlSemantics

/-- A key as it is written: a scalar for each part. -/
abbrev KeyPath := List Scalar

/-- The key of bare parts with points between them. -/
def KeyPath.ofDotted (s : String) : KeyPath :=
  (s.toList.splitOn '.').map fun part => .verbatim .bare (.ofList part)

mutual

/-- A value as it is written. -/
inductive Value
  | scalar (s : Scalar)
  | array (items : List Item)
  | inlineTable (pairs : List (KeyPath × Value))

/-- What stands in an array. -/
inductive Item
  | value (v : Value)
  | comment (text : String)
  | blankLine

end

/-- A line of a document. -/
inductive Line
  | pair (key : KeyPath) (v : Value) (comment : Option String)
  | table (key : KeyPath) (comment : Option String)
  | tableArray (key : KeyPath) (comment : Option String)
  | comment (text : String)
  | blank
  /-- An event that no line has; it takes no line of its own. -/
  | raw (e : Event)

/-! ## Events -/

/-- The comment that follows a mark, as a scalar. -/
def commentScalar (line : Nat) (text : String) : Scalar :=
  ⟨.comment, text, "#" ++ text, .atLine line⟩

/-- The events of a key. -/
def KeyPath.events (line : Nat) (key : KeyPath) : List Event :=
  .keyStart :: key.map (fun s => .keySegment (s.atLine line)) ++ [.keyEnd]

mutual

/-- The events of a value. -/
def Value.events (line : Nat) : Value → List Event
  | .scalar s => [.value (s.atLine line)]
  | .array [] => [.emptyArray]
  | .array (item :: items) =>
      .arrayStart :: (item.events line ++ itemEvents line items) ++ [.arrayEnd]
  | .inlineTable [] => [.emptyInlineTable]
  | .inlineTable (pair :: pairs) =>
      .inlineTableStart :: (pairEvents line pair ++ pairsEvents line pairs) ++ [.inlineTableEnd]

/-- The events of something in an array. -/
def Item.events (line : Nat) : Item → List Event
  | .value v => .elementStart :: v.events line ++ [.elementEnd]
  | .comment text => [.comment (commentScalar line text)]
  | .blankLine => [.blankLine]

/-- The events of what stands in an array. -/
def itemEvents (line : Nat) : List Item → List Event
  | [] => []
  | item :: items => item.events line ++ itemEvents line items

/-- The events of a pair. -/
def pairEvents (line : Nat) : KeyPath × Value → List Event
  | (key, v) => key.events line ++ v.events line ++ [.pairEnd]

/-- The events of the pairs of an inline table. -/
def pairsEvents (line : Nat) : List (KeyPath × Value) → List Event
  | [] => []
  | pair :: pairs => pairEvents line pair ++ pairsEvents line pairs

end

namespace Line

/-- Whether the line takes a line of its own. -/
def isNumbered : Line → Bool
  | raw _ => false
  | _ => true

/-- The events of the comment at the end of a line, if there is one. -/
def commentEvents (number : Nat) (after : Event) : Option String → List Event
  | none => []
  | some text => [.comment (commentScalar number text), after]

/-- The events of a line with a number. -/
def events (number : Nat) : Line → List Event
  | pair key v c => pairEvents number (key, v) ++ commentEvents number .pairComment c
  | table key c =>
      .tableStart :: key.events number ++ .tableEnd :: commentEvents number .headerComment c
  | tableArray key c =>
      .tableArrayStart :: key.events number
        ++ .tableArrayEnd :: commentEvents number .headerComment c
  | comment text => [.comment (commentScalar number text)]
  | blank => [.blankLine]
  | raw e => [e]

end Line

namespace Document

/-- The number of lines. -/
def lineCount (lines : List Line) : Nat := lines.countP Line.isNumbered

/-- The events of lines that follow `before` others. -/
def lineEvents (before : Nat) : List Line → List Event
  | [] => []
  | l :: rest =>
      let number := if l.isNumbered then before + 1 else before
      l.events number ++ lineEvents number rest

/-- The events of a document. -/
def events (lines : List Line) : List Event :=
  .documentStart :: lineEvents 0 lines ++ [.documentEnd]

end Document

end TomlSemantics
