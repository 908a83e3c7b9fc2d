import TomlSemantics.Fault
import TomlSemantics.Builder.Options

/-!
# Reports

A report shows a fault in its source: a title for its class, the place, the message, and for
events that do not follow the grammar a note. What it marks starts where the fault's range of bytes
starts, with that number of bytes counted off in characters; it ends likewise. So in a source with
characters of several bytes the mark lies further on than the fault, and may not fit into the
source at all.

Reports are drawn by a renderer that is given the fault's range and the source. `Report.startsLine`,
`Report.positionAt`, `Report.splitLines`, `Mark.fits` and `Mark.ofRange` stand for it. Assumed of it
is that it counts ranges in characters, breaks lines at `Report.lineBreaks`, shows the line and the
column of the first marked character, both from one on, and leaves out a range that does not fit.
-/

namespace TomlSemantics

/-- What a report is headed with. -/
def FaultClass.title : FaultClass → String
  | memory => "out of memory"
  | internal => "internal error"
  | syntactic => "syntax error"
  | semantic => "invalid TOML"
  | resource => "cannot read source"

/-- What a report adds below the message. -/
def FaultClass.note : FaultClass → Option String
  | internal => some "the event sequence does not match the TOML grammar"
  | _ => none

namespace Report

/-! ## Lines of a source -/

/-- The characters that end a line in a report. -/
def lineBreaks : List Char :=
  ['\r', '\n', '\x0b', '\x0c', '\u0085', '\u2028', '\u2029']

/-- Whether a new line starts between a character and the rest of the text. A carriage return and
the line feed after it are one break, and a break that ends the text starts no line. That is assumed
of the renderer. -/
def startsLine (c : Char) (rest : List Char) : Bool :=
  c ∈ lineBreaks && !(c = '\r' && rest.head? = some '\n') && !rest.isEmpty

/-- The position of the character at an offset, where the first is at `p`. Assumed of the renderer
is that it counts offsets and columns in characters, and goes back to the first column where a line
starts. Past the end it stays behind the last character. -/
def positionAt (p : Position) : (offset : Nat) → List Char → Position
  | n + 1, c :: rest =>
      positionAt (if startsLine c rest then ⟨p.line + 1, 1⟩ else ⟨p.line, p.column + 1⟩) n rest
  | _, _ => p

/-- The lines of a text, each with the break that ends it. -/
def splitLines : List Char → List (List Char)
  | [] => []
  | c :: rest =>
      if startsLine c rest then [c] :: splitLines rest
      else match splitLines rest with
        | [] => [[c]]
        | l :: ls => (c :: l) :: ls

end Report

/-! ## The marked part -/

/-- The part of a source that a report marks. -/
structure Mark where
  /-- Where it starts. -/
  first : Position
  /-- The number of the line that it ends on. -/
  lastLine : Nat
  /-- The line that it starts on. -/
  opening : String
  /-- What is said about it; missing where it goes on past the last character, since there is no
  place to write at then. -/
  message : Option String
deriving DecidableEq, Repr

namespace Mark

/-- Whether a range starts and ends among the characters of a source or just after them, when its
ends are counted in characters. Assumed of the renderer is that it can place a range just then: it
looks up the offset of the first character, and of the last one, which for an empty range is the
first. -/
def fits (r : ByteRange) (source : String) : Bool :=
  r.start ≤ source.length && (r.stop ≤ r.start || r.stop - 1 ≤ source.length)

/-- The mark for a range with a message, if the range fits. Assumed of the renderer is that it
leaves out any other range without an error, heads the report with the position where the range
starts, and shows the line of that position. -/
def ofRange (r : ByteRange) (source message : String) : Option Mark :=
  let text := source.toList
  let first := Report.positionAt ⟨1, 1⟩ r.start text
  if fits r source then
    some {
      first
      lastLine := (Report.positionAt ⟨1, 1⟩ (max r.start (r.stop - 1)) text).line
      opening := .ofList ((Report.splitLines text)[first.line - 1]?.getD [])
      message := if r.stop ≤ source.length then some message else none }
  else none

/-- Whether the marked part goes over several lines. -/
def spansLines (m : Mark) : Bool := m.first.line < m.lastLine

end Mark

/-! ## The report -/

/-- A fault shown in its source. -/
structure Report where
  title : String
  /-- The name of the source. -/
  filename : String
  /-- What is marked; nothing where the range of the fault does not fit into the source. -/
  mark : Option Mark
  note : Option String
deriving DecidableEq, Repr

namespace Report

/-- What reports call a source without a name. -/
def unnamed : String := "<input>"

/-- The bytes of the source that a fault is about; at the end of the source if it has no place. -/
def range (f : Fault) (source : String) : ByteRange :=
  match f.location with
  | some l => l.byteRange source
  | none => ⟨source.utf8ByteSize, source.utf8ByteSize⟩

/-- The report of a fault in a source with a name. Without a mark there is no note. -/
def ofFault (f : Fault) (filename source : String) : Report :=
  let mark := Mark.ofRange (range f source) source f.message
  { title := f.faultClass.title
    filename
    mark
    note := if mark.isSome then f.faultClass.note else none }

/-- The first line: what it is, and its title. -/
def heading (r : Report) : String := "Error: " ++ r.title

/-- The name of the source with line and column. -/
def place (r : Report) : Option String :=
  r.mark.map fun m =>
    r.filename ++ ":" ++ m.first.line.repr ++ ":" ++ m.first.column.repr

end Report

/-- The report of a fault in the source that the settings name. -/
def Options.report (o : Options) (f : Fault) (source : String) : Report :=
  .ofFault f (o.filename.getD Report.unnamed) source

end TomlSemantics
