import TomlSemantics.Scalar.Basic

/-!
# Grammar events

What a grammar reports of a document, in document order. A construct that can hold others is
reported when it starts and when it ends; the scalars in it come in between.
-/

namespace TomlSemantics

/-- One production of the grammar. -/
inductive Event
  | documentStart
  | documentEnd
  /-- A key of one or more segments starts. -/
  | keyStart
  /-- The key is complete: what follows belongs to it. -/
  | keyEnd
  | keySegment (s : Scalar)
  /-- A key and its value are complete. -/
  | pairEnd
  /-- The comment before this event stands on the line of the pair. -/
  | pairComment
  /-- The comment before this event stands on the line of the table header. -/
  | headerComment
  | value (s : Scalar)
  | tableStart
  | tableEnd
  | tableArrayStart
  | tableArrayEnd
  /-- An array with at least one element starts. -/
  | arrayStart
  | arrayEnd
  | emptyArray
  | elementStart
  | elementEnd
  /-- An inline table with at least one pair starts. -/
  | inlineTableStart
  | inlineTableEnd
  | emptyInlineTable
  | comment (s : Scalar)
  | blankLine
  /-- The grammar cannot go on. -/
  | syntaxError (message : String) (location : Location)
deriving DecidableEq, Repr

end TomlSemantics
