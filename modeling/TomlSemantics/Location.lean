/-!
# Locations in a source text

A location is a range of lines and columns. Both are counted from one, in characters; the last
column is the one just past the range. `Location.byteRange` finds the range in the bytes of a
text: a column past the end of its line means the end of the line, a line past the end of the text
means the end of the text, and an empty location stands for the rest of its line.
-/

namespace TomlSemantics

/-! ## Positions -/

/-- A place between two characters of a text. -/
structure Position where
  line : Nat := 0
  column : Nat := 0
deriving DecidableEq, Repr, Inhabited

namespace Position

/-- Positions are ordered by line, then by column. -/
def le (p q : Position) : Prop := p.line < q.line ∨ p.line = q.line ∧ p.column ≤ q.column

instance : LE Position := ⟨le⟩

instance (p q : Position) : Decidable (p ≤ q) :=
  inferInstanceAs (Decidable (p.line < q.line ∨ p.line = q.line ∧ p.column ≤ q.column))

instance : Min Position := ⟨fun p q => if p ≤ q then p else q⟩
instance : Max Position := ⟨fun p q => if p ≤ q then q else p⟩

end Position

/-! ## Locations -/

/-- A range of a source text, from `first` up to but not including `last`. -/
structure Location where
  first : Position := {}
  last : Position := {}
deriving DecidableEq, Repr, Inhabited

namespace Location

/-- The empty location at the start of a line. -/
def atLine (n : Nat) : Location := ⟨⟨n, 1⟩, ⟨n, 1⟩⟩

/-- The line that the location starts on. -/
def line (l : Location) : Nat := l.first.line

/-- Whether the location covers no character. -/
def isEmpty (l : Location) : Bool := l.first = l.last

/-- The smallest location that covers both. -/
def cover (l m : Location) : Location := ⟨min l.first m.first, max l.last m.last⟩

end Location

/-! ## Byte ranges -/

/-- The number of bytes that the characters take in UTF-8. -/
def utf8Length : List Char → Nat
  | [] => 0
  | c :: rest => c.utf8Size + utf8Length rest

/-- The lines of a text, each with the line feed that ends it. -/
def sourceLines : List Char → List (List Char)
  | [] => []
  | c :: rest =>
      if c = '\n' then [c] :: sourceLines rest
      else match sourceLines rest with
        | [] => [[c]]
        | l :: ls => (c :: l) :: ls

/-- A line without the line feed that ends it. -/
def lineContent (l : List Char) : List Char := l.takeWhile (· ≠ '\n')

/-- The characters from byte `n` on, where `n` lies between two characters. -/
def dropBytes : Nat → List Char → List Char
  | _, [] => []
  | n, c :: rest => if n = 0 then c :: rest else dropBytes (n - c.utf8Size) rest

/-- The characters before byte `n`, where `n` lies between two characters. -/
def takeBytes : Nat → List Char → List Char
  | _, [] => []
  | n, c :: rest => if n = 0 then [] else c :: takeBytes (n - c.utf8Size) rest

/-- The byte offset of a position. A text has no line zero, and column zero is column one. -/
def Position.byteOffset (source : List Char) (p : Position) : Nat :=
  let lines := sourceLines source
  match p.line with
  | 0 => utf8Length source
  | n + 1 =>
      match lines[n]? with
      | none => utf8Length source
      | some l =>
          utf8Length (lines.take n).flatten + utf8Length ((lineContent l).take (p.column - 1))

/-- A range of bytes, from `start` up to but not including `stop`. -/
structure ByteRange where
  start : Nat
  stop : Nat
deriving DecidableEq, Repr

/-- The part of a text that a range of bytes covers. -/
def ByteRange.slice (range : ByteRange) (source : String) : String :=
  .ofList (takeBytes (range.stop - range.start) (dropBytes range.start source.toList))

/-- The bytes of the text that the location covers; for an empty location those up to the end of
its line, so that a report has something to point at. -/
def Location.byteRange (l : Location) (source : String) : ByteRange :=
  let text := source.toList
  let start := l.first.byteOffset text
  if l.isEmpty then ⟨start, start + utf8Length (lineContent (dropBytes start text))⟩
  else ⟨start, max (l.last.byteOffset text) start⟩

example : (Location.mk ⟨2, 7⟩ ⟨2, 8⟩).byteRange "a = 1\nbad = x\n" = ⟨12, 13⟩ := by decide
example : (Location.mk ⟨1, 3⟩ ⟨9, 1⟩).byteRange "short" = ⟨2, 5⟩ := by decide

end TomlSemantics
