import TomlSemantics.Key.Comments
import TomlSemantics.Fault

/-!
# Comments that wait for their key

Comments and blank lines come before it is known which key they belong to. The queue keeps them in
order. Blank lines are only counted until a comment or the end of the block follows them.
-/

namespace TomlSemantics

/-- The comments that wait, first come first, and the blank lines after the last of them. -/
structure CommentQueue where
  entries : List BlockEntry := []
  blankLines : Nat := 0
deriving DecidableEq, Repr

namespace CommentQueue

/-- Blank lines are counted in a word of 64 bits. -/
def blankLineLimit : Nat := 0x10000000000000000

/-- Whether no comment waits. Blank lines alone do not count. -/
def isEmpty (q : CommentQueue) : Bool := q.entries.isEmpty

/-- The queue after a blank line. -/
def newline (q : CommentQueue) : Except Cause CommentQueue :=
  if q.blankLines + 1 < blankLineLimit then .ok { q with blankLines := q.blankLines + 1 }
  else .error .tooManyBlankLines

/-- What waits, with the blank lines after the last comment as an entry of their own. -/
def contents (q : CommentQueue) : List BlockEntry :=
  if q.blankLines = 0 then q.entries else q.entries ++ [.blankLines q.blankLines]

/-- The queue after a comment. -/
def push (q : CommentQueue) (c : Comment) : CommentQueue :=
  { entries := q.contents ++ [.comment c] }

/-- The first comment, if no blank line comes before it, and the queue without it. -/
def takeFirst (q : CommentQueue) : Option (Comment × CommentQueue) :=
  match q.entries with
  | .comment c :: rest => some (c, { q with entries := rest })
  | _ => none

/-- The one comment on the line of a pair or header, and the queue without it. -/
def takeOnly (q : CommentQueue) (site : CommentSite) :
    Except Cause (Option (Comment × CommentQueue)) :=
  match q.entries with
  | [] => .ok none
  | [.comment c] => .ok (some (c, { q with entries := [] }))
  | [.blankLines _] => .error (.blankLinesForComment site)
  | _ => .error (.severalComments site)

end CommentQueue

end TomlSemantics
