import TomlSemantics.Report
import TomlSemantics.Text.Blank

/-!
# Written reports

A report as lines of text: the heading, and in a frame the place, the line that the marked part
starts on, the message and the note. The arrows from the marked part to its message are left out.

* `Report.shows` says whether a text can be read off a report.
-/

namespace TomlSemantics

/-! ## Text -/

namespace Text

/-- Tabs go on to the next multiple of this column. -/
def tabWidth : Nat := 4

/-- Characters from a column on, with blanks for all white space. -/
def withBlanks : (column : Nat) → List Char → List Char
  | _, [] => []
  | column, c :: rest =>
      (if c = '\t' then List.replicate (tabWidth - column % tabWidth) ' '
        else if isBlank c then [' ']
        else [c]) ++ withBlanks (column + 1) rest

/-- The text without the white space at its end. -/
def dropBlankEnd (cs : List Char) : List Char := (cs.reverse.dropWhile isBlank).reverse

/-- The lines of a text. A carriage return before a line feed belongs to the break. -/
def messageLines (s : String) : List String :=
  let pieces := s.toList.splitOn '\n'
  let ended := pieces.dropLast.map fun l => if l.getLast? = some '\r' then l.dropLast else l
  (ended ++ pieces.getLast?.toList).map String.ofList

/-- The text, some number of times. -/
def times (n : Nat) (s : String) : String := String.join (List.replicate n s)

/-- Whether characters stand next to each other somewhere in a text. -/
def occurs (cs : List Char) : List Char → Bool
  | [] => cs.isEmpty
  | c :: rest => cs.isPrefixOf (c :: rest) || occurs cs rest

end Text

/-! ## Lines of a report -/

namespace Mark

/-- The width of the line numbers. -/
def numberWidth (m : Mark) : Nat := m.lastLine.repr.length

/-- The room left of the frame. -/
def margin (m : Mark) : String := Text.times (m.numberWidth + 2) " "

/-- The number of the line that the marked part starts on, in front of the frame. -/
def numbered (m : Mark) : String :=
  let number := m.first.line.repr
  Text.times (m.numberWidth - number.length + 1) " " ++ number ++ " │ "

/-- The line that the marked part starts on. A mark on one line is only drawn for its message. -/
def excerpt (m : Mark) : List String :=
  let shown := String.ofList (Text.withBlanks 0 (Text.dropBlankEnd m.opening.toList))
  if m.spansLines then [m.numbered ++ "╭─▶ " ++ shown, m.margin ++ "┆ ┆"]
  else if m.message.isSome then [m.numbered ++ shown]
  else [m.margin ++ "│ "]

/-- The lines of a note, with room for the arrow of a mark on several lines. -/
def noteLines (m : Mark) (note : String) : List String :=
  let edge := m.margin ++ "│ " ++ if m.spansLines then "    " else ""
  [edge, edge ++ "Note: " ++ note]

/-- What is inside the frame. -/
def framed (m : Mark) (note : Option String) : List String :=
  m.excerpt ++ m.message.toList.flatMap Text.messageLines ++ note.toList.flatMap m.noteLines

end Mark

namespace Report

/-- The lines of the frame. -/
def frame (r : Report) (m : Mark) : List String :=
  [m.margin ++ "╭─[ " ++ r.place.getD "" ++ " ]", m.margin ++ "│"] ++ m.framed r.note
    ++ [Text.times (m.numberWidth + 2) "─" ++ "╯"]

/-- The lines of the report. -/
def written (r : Report) : List String := r.heading :: r.mark.toList.flatMap r.frame

/-- Whether every line of a text can be read off the report. -/
def shows (r : Report) (s : String) : Bool :=
  (Text.messageLines s).all fun l => r.written.any fun w => Text.occurs l.toList w.toList

example :
    (ofFault ⟨.reported .syntactic "odd", some ⟨⟨1, 1⟩, ⟨1, 2⟩⟩⟩ "f" "ab").written =
      ["Error: syntax error", "   ╭─[ f:1:1 ]", "   │", " 1 │ ab", "odd", "───╯"] := by
  decide +kernel

example :
    (ofFault ⟨.reported .syntactic "odd", some ⟨⟨1, 1⟩, ⟨1, 2⟩⟩⟩ "f" "é").shows "odd" = false := by
  decide +kernel

end Report

end TomlSemantics
