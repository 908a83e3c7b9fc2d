import TomlSemantics.Name.Basic

/-!
# Names as slash paths

A name is written with slashes between its segments. A backslash takes the next character as it
is, so that slashes and backslashes can be part of a segment. Empty segments cannot be written,
except in front: `/a` is not `a`. A lone namespace such as `user:` is written `user:/`.
-/

namespace TomlSemantics.Name

/-! ## Reading -/

/-- The pieces between the slashes that no backslash takes: the first, and those after it. A
backslash with nothing to take stands for itself. -/
def pieces : List Char → List Char × List (List Char)
  | [] => ([], [])
  | '/' :: rest => ([], (pieces rest).1 :: (pieces rest).2)
  | '\\' :: c :: rest => (c :: (pieces rest).1, (pieces rest).2)
  | c :: rest => (c :: (pieces rest).1, (pieces rest).2)

/-- The pieces that are segments: the first if it is not all there is or not empty, and the later
ones that are not empty. -/
def keptPieces : List Char × List (List Char) → List (List Char)
  | (first, []) => if first.isEmpty then [] else [first]
  | (first, later) => first :: later.filter (!·.isEmpty)

/-- The name that a path writes. -/
def ofPath (path : String) : Name := ⟨(keptPieces (pieces path.toList)).map String.ofList⟩

/-! ## Writing -/

/-- A segment with a backslash in front of every slash and backslash. -/
def escapeSegment (segment : List Char) : List Char :=
  segment.flatMap fun c => if c = '/' ∨ c = '\\' then ['\\', c] else [c]

/-- Whether the name is a lone namespace, a single segment that ends in a colon. -/
def isNamespace : List String → Bool
  | [only] => only.toList.getLast? = some ':'
  | _ => false

/-- The path that writes a name. -/
def toPath (n : Name) : String :=
  let written := ['/'].intercalate (n.segments.map fun segment => escapeSegment segment.toList)
  .ofList (if isNamespace n.segments then written ++ ['/'] else written)

example : ofPath "/cascading//key/" = ⟨["", "cascading", "key"]⟩ := by decide
example : (ofPath "user:/a\\/b/c").segments = ["user:", "a/b", "c"] := by decide
example : (ofPath "user:").toPath = "user:/" := by decide

end TomlSemantics.Name
