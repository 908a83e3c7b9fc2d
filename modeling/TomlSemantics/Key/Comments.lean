/-!
# Comments of a key

A comment keeps its text beside the way it was spelled. The comments before a key, and those after
the last element of an array, form blocks in which runs of blank lines are counted.
-/

namespace TomlSemantics

/-- A comment: what follows the mark, and the whole of it. -/
structure Comment where
  text : String
  spelling : String
deriving DecidableEq, Repr, Inhabited

/-- A part of a block of comments. -/
inductive BlockEntry
  | comment (c : Comment)
  | blankLines (count : Nat)
deriving DecidableEq, Repr

/-- The comments of one key. -/
structure Comments where
  /-- On the line of the key, after its value or header. -/
  inline : Option Comment := none
  /-- Before the key. -/
  leading : List BlockEntry := []
  /-- After the last element of an array. -/
  trailing : List BlockEntry := []
deriving DecidableEq, Repr, Inhabited

/-- Whether there is no comment of any kind. -/
def Comments.isEmpty (c : Comments) : Bool :=
  c.inline.isNone && c.leading.isEmpty && c.trailing.isEmpty

end TomlSemantics
