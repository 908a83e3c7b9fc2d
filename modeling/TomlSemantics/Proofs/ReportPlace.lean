import Mathlib.Data.List.Basic
import TomlSemantics.Report
import TomlSemantics.Builder.Step
import TomlSemantics.Proofs.ByteRange

/-!
# The place that a report names

A report counts off in characters what are bytes in front of a fault. Where all of those characters
are of one byte it names the place of the fault. Any longer one moves the place on, and may move
the range of the fault out of the source, so that no place is named at all.

1. `Position.IsIn`: the positions of the characters of a source.
2. `Report.positionAt_front`, `Report.not_positionAt_le`: positions by the number of characters in
   front of them, in a source with no line breaks but line feeds.
3. `utf8Length_eq_length_iff`: where there are as many bytes as characters.
4. `Report.place_eq_iff`: when a report names a position.
5. `report_points_iff`: when a report names the place of its fault.
6. `report_points_past`: a report that names the next column.
-/

namespace TomlSemantics

variable {text before rest line : List Char} {p q : Position} {n m k column : Nat}
  {f : Fault} {l : Location} {filename source : String}

/-! ## Characters of a source -/

/-- There is a character at a position. A line feed is the last character of its line. -/
def Position.IsIn (text : List Char) (p : Position) : Prop :=
  1 ≤ p.line ∧ 1 ≤ p.column ∧ ∃ l, (sourceLines text)[p.line - 1]? = some l ∧ p.column ≤ l.length

namespace Position

theorem isIn_last (h : '\n' ∉ line) :
    (⟨n + 1, column⟩ : Position).IsIn line ↔ n = 0 ∧ 1 ≤ column ∧ column ≤ line.length := by
  cases line with
  | nil =>
    simp [IsIn, sourceLines]
    omega
  | cons c line =>
    rw [IsIn, sourceLines_of_not_mem h]
    cases n <;> simp

theorem isIn_first (h : '\n' ∉ line) :
    (⟨1, column⟩ : Position).IsIn (line ++ '\n' :: rest) ↔
      1 ≤ column ∧ column ≤ line.length + 1 := by
  simp [IsIn, sourceLines_append h]

theorem isIn_more (h : '\n' ∉ line) :
    (⟨n + 2, column⟩ : Position).IsIn (line ++ '\n' :: rest) ↔
      (⟨n + 1, column⟩ : Position).IsIn rest := by
  simp [IsIn, sourceLines_append h]

theorem IsIn.ne_nil (h : p.IsIn text) : text ≠ [] := by
  rintro rfl
  obtain ⟨-, -, l, found, -⟩ := h
  cases found

/-- A character stands behind what stands in front of it. -/
theorem IsIn.length_front_lt (h : p.IsIn text) : (p.front text).length < text.length := by
  obtain ⟨_ | n, column⟩ := p
  · exact absurd h.1 (Nat.not_succ_le_zero 0)
  induction text using linesInduction generalizing n with
  | last line none =>
    obtain ⟨rfl, least, most⟩ := (isIn_last none).mp h
    rw [front_last none, if_pos rfl, List.length_take]
    omega
  | more line rest none ih =>
    cases n with
    | zero =>
      rw [front_first none, List.length_take, List.length_append, List.length_cons]
      omega
    | succ n =>
      have further := ih n ((isIn_more none).mp h)
      rw [front_more none]
      simpa using further

end Position

/-! ## Positions after a number of characters -/

namespace Report

/-- No character ends a line but the line feed. -/
def IsPlain (text : List Char) : Prop := ∀ c ∈ text, c ∈ lineBreaks → c = '\n'

instance (text : List Char) : Decidable (IsPlain text) :=
  List.decidableBAll _ text

theorem IsPlain.quiet (plain : IsPlain (line ++ rest)) (h : '\n' ∉ line) :
    ∀ c ∈ line, c ∉ lineBreaks := by
  intro c member ends
  exact ne_of_mem_of_not_mem member h (plain c (List.mem_append_left rest member) ends)

theorem positionAt_cons {c : Char} (quiet : c ∉ lineBreaks) :
    positionAt p (k + 1) (c :: rest) = positionAt ⟨p.line, p.column + 1⟩ k rest := by
  have same : startsLine c rest = false := by simp [startsLine, quiet]
  rw [positionAt, if_neg (Bool.eq_false_iff.mp same)]

theorem positionAt_line (quiet : ∀ c ∈ line, c ∉ lineBreaks) (inside : k ≤ line.length) :
    positionAt p k (line ++ rest) = ⟨p.line, p.column + k⟩ := by
  induction line generalizing p k with
  | nil =>
    obtain rfl : k = 0 := Nat.le_zero.mp inside
    cases rest <;> rfl
  | cons c line ih =>
    cases k with
    | zero => rfl
    | succ k =>
      obtain ⟨first, others⟩ := List.forall_mem_cons.mp quiet
      rw [List.cons_append, positionAt_cons first, ih others (Nat.le_of_succ_le_succ inside),
        Nat.add_assoc, Nat.add_comm 1]

theorem positionAt_nextLine (quiet : ∀ c ∈ line, c ∉ lineBreaks) (some_ : rest ≠ []) :
    positionAt p (line.length + (k + 1)) (line ++ '\n' :: rest) =
      positionAt ⟨p.line + 1, 1⟩ k rest := by
  induction line generalizing p with
  | nil =>
    have starts : startsLine '\n' rest = true := by
      simp [startsLine, lineBreaks, some_]
    rw [List.nil_append, List.length_nil, Nat.zero_add, positionAt, if_pos starts]
  | cons c line ih =>
    obtain ⟨first, others⟩ := List.forall_mem_cons.mp quiet
    rw [List.cons_append, List.length_cons, Nat.add_right_comm, positionAt_cons first, ih others]

/-- The position of a character is found by counting the characters in front of it. -/
theorem positionAt_front (plain : IsPlain text) (inside : p.IsIn text) :
    positionAt ⟨1, 1⟩ (p.front text).length text = p := by
  obtain ⟨_ | n, column⟩ := p
  · exact absurd inside.1 (Nat.not_succ_le_zero 0)
  -- Each line that the induction leaves behind moves the first line on.
  suffices ∀ first, positionAt ⟨first, 1⟩ ((⟨n + 1, column⟩ : Position).front text).length text =
      ⟨first + n, column⟩ by rw [this, Nat.add_comm]
  induction text using linesInduction generalizing n with
  | last line none =>
    intro first
    obtain ⟨rfl, least, most⟩ := (Position.isIn_last none).mp inside
    rw [← List.append_nil line] at plain
    have quiet := plain.quiet none
    rw [Position.front_last none, if_pos rfl, List.length_take, Nat.min_eq_left (by omega)]
    have counted : positionAt ⟨first, 1⟩ (column - 1) (line ++ []) = _ :=
      positionAt_line quiet (by omega)
    rw [List.append_nil] at counted
    rw [counted, Nat.add_zero, Nat.add_sub_cancel' least]
  | more line rest none ih =>
    intro first
    have quiet := plain.quiet none
    cases n with
    | zero =>
      obtain ⟨least, most⟩ := (Position.isIn_first none).mp inside
      rw [Position.front_first none, List.length_take, Nat.min_eq_left (by omega),
        positionAt_line quiet (by omega), Nat.add_sub_cancel' least, Nat.add_zero]
    | succ n =>
      have further := (Position.isIn_more none).mp inside
      have plainRest : IsPlain rest := fun c member =>
        plain c (List.mem_append_right line (List.mem_cons_of_mem _ member))
      rw [Position.front_more none, List.length_append, List.length_cons,
        positionAt_nextLine quiet further.ne_nil, ih plainRest n further (first + 1),
        Nat.add_right_comm, Nat.add_assoc]

theorem le_positionAt (p : Position) (n : Nat) (text : List Char) : p ≤ positionAt p n text := by
  induction text generalizing p n with
  | nil =>
    cases n <;> exact Position.le_refl p
  | cons c rest ih =>
    cases n with
    | zero => exact Position.le_refl p
    | succ n =>
      rw [positionAt]
      refine Position.le_trans ?_ (ih _ n)
      split
      · exact .inl (Nat.lt_succ_self _)
      · exact .inr ⟨rfl, Nat.le_succ _⟩

/-- After more characters the position is a later one. -/
theorem not_positionAt_le (less : n < m) (inside : n < text.length) :
    ¬ positionAt p m text ≤ positionAt p n text := by
  obtain ⟨m, rfl⟩ := Nat.exists_eq_succ_of_ne_zero (Nat.ne_zero_of_lt less)
  induction text generalizing p n m with
  | nil => exact absurd inside (Nat.not_lt_zero n)
  | cons c rest ih =>
    cases n with
    | zero =>
      -- The first character moves the position on, and no other moves it back.
      intro back
      rw [positionAt] at back
      have back := Position.le_trans (le_positionAt _ m rest) back
      rw [show positionAt p 0 (c :: rest) = p from rfl, Position.le_def] at back
      split at back
      · dsimp only at back
        omega
      · dsimp only at back
        omega
    | succ n =>
      obtain ⟨m, rfl⟩ := Nat.exists_eq_succ_of_ne_zero (by omega : m ≠ 0)
      rw [positionAt, positionAt]
      exact ih (Nat.lt_of_succ_lt_succ inside) m (by omega)

theorem positionAt_le (le : n ≤ m) (inside : n < text.length) :
    positionAt p n text ≤ positionAt p m text := by
  rcases Nat.eq_or_lt_of_le le with rfl | less
  · exact Position.le_refl _
  · exact Position.le_of_not_le (not_positionAt_le less inside)

end Report

/-! ## Bytes and characters -/

theorem length_le_utf8Length (text : List Char) : text.length ≤ utf8Length text := by
  induction text with
  | nil => exact Nat.le_refl 0
  | cons c rest ih =>
    have wide := c.utf8Size_pos
    rw [List.length_cons, utf8Length]
    omega

/-- There are as many bytes as characters just where all characters are of one byte. -/
theorem utf8Length_eq_length_iff :
    utf8Length text = text.length ↔ ∀ c ∈ text, c.toNat < 128 := by
  induction text with
  | nil => simp [utf8Length]
  | cons c rest ih =>
    have one : c.utf8Size = 1 ↔ c.toNat < 128 := Char.utf8Size_eq_one_iff.trans Nat.lt_succ_iff.symm
    have wide := c.utf8Size_pos
    have least := length_le_utf8Length rest
    rw [List.forall_mem_cons, ← ih, ← one, utf8Length, List.length_cons]
    omega

/-! ## Reports -/

/-- A position in a file, as reports name it. -/
def Position.shown (filename : String) (p : Position) : String :=
  filename ++ ":" ++ p.line.repr ++ ":" ++ p.column.repr

theorem repr_injective : Function.Injective Nat.repr := by
  intro n m same
  have digits := String.ofList_injective same
  have read := congrArg (Nat.ofDigitChars 10 · 0) digits
  rwa [Nat.ofDigitChars_toDigits (by decide) (by decide),
    Nat.ofDigitChars_toDigits (by decide) (by decide)] at read

theorem colon_not_mem_repr (n : Nat) : ':' ∉ n.repr.toList := by
  intro member
  rw [Nat.repr_eq_ofList_toDigits, String.toList_ofList] at member
  exact absurd (Nat.isDigit_of_mem_toDigits (by decide) (by decide) member) (by decide)

theorem Position.shown_injective (filename : String) :
    Function.Injective (Position.shown filename) := by
  intro p q same
  simp only [shown, String.append_assoc, String.append_right_inj] at same
  have parts := congrArg String.toList same
  rw [String.toList_append, String.toList_append, String.toList_append, String.toList_append]
    at parts
  obtain ⟨lines, -, columns⟩ := (List.append_cons_inj_of_notMem (colon_not_mem_repr _)
    (colon_not_mem_repr _)).mp parts
  obtain ⟨line, column⟩ := p
  obtain ⟨line', column'⟩ := q
  rw [mk.injEq]
  exact ⟨repr_injective (String.toList_injective lines),
    repr_injective (String.toList_injective columns)⟩

/-- What stopped a reading, as a report. -/
def State.report (o : Options) (s : State) (source : String) : Option Report :=
  s.fault.map (o.report · source)

/-- A range is marked where it starts and stops among as many characters. -/
theorem Mark.fits_iff {r : ByteRange} (ordered : r.start ≤ r.stop) :
    Mark.fits r source = true ↔ r.start ≤ source.length ∧ r.stop ≤ source.length + 1 := by
  simp only [Mark.fits, Bool.and_eq_true, Bool.or_eq_true, decide_eq_true_eq]
  omega

namespace Report

theorem mark_ofFault (located : f.location = some l) :
    (ofFault f filename source).mark = Mark.ofRange (l.byteRange source) source f.message := by
  rw [ofFault, range, located]

/-- A report names a position just where the range of the fault is marked and starts, in characters,
at that position. -/
theorem place_eq_iff (located : f.location = some l) :
    (ofFault f filename source).place = some (p.shown filename) ↔
      Mark.fits (l.byteRange source) source = true ∧
        positionAt ⟨1, 1⟩ (l.byteRange source).start source.toList = p := by
  show ((ofFault f filename source).mark.map fun m => m.first.shown filename) = _ ↔ _
  rw [mark_ofFault located, Mark.ofRange]
  split
  · next fits =>
    rw [Option.map_some, Option.some_inj]
    exact ⟨fun same => ⟨fits, Position.shown_injective filename same⟩, fun h => h.2 ▸ rfl⟩
  · next fits => simp [fits]

/-- A report names the place of a fault just where the characters in front of it are as many as the
bytes, and the range stops no further than one past the number of all characters. -/
theorem place_first_iff (plain : IsPlain source.toList) (located : f.location = some l)
    (inside : l.first.IsIn source.toList) :
    (ofFault f filename source).place = some (l.first.shown filename) ↔
      (∀ c ∈ l.first.front source.toList, c.toNat < 128) ∧
        (l.byteRange source).stop ≤ source.length + 1 := by
  have counted := positionAt_front plain inside
  have before := inside.length_front_lt
  have least := length_le_utf8Length (l.first.front source.toList)
  rw [place_eq_iff located, Mark.fits_iff (l.byteRange_cuts source).ordered,
    Location.start_byteRange, Position.byteOffset_eq, ← utf8Length_eq_length_iff,
    ← String.length_toList]
  constructor
  · -- With a longer character in front of the fault the report would count past it.
    rintro ⟨⟨-, stop⟩, shown⟩
    refine ⟨?_, stop⟩
    by_contra different
    have more := Nat.lt_of_le_of_ne least (Ne.symm different)
    refine not_positionAt_le (p := ⟨1, 1⟩) more before ?_
    rw [shown, counted]
    exact Position.le_refl _
  · rintro ⟨same, stop⟩
    rw [same]
    exact ⟨⟨Nat.le_of_lt before, stop⟩, counted⟩

/-- What is marked never starts before the place of the fault. -/
theorem first_le_of_mark (plain : IsPlain source.toList) (located : f.location = some l)
    (inside : l.first.IsIn source.toList) {m : Mark}
    (marked : (ofFault f filename source).mark = some m) : l.first ≤ m.first := by
  have counted := positionAt_front plain inside
  have least := length_le_utf8Length (l.first.front source.toList)
  rw [mark_ofFault located, Mark.ofRange] at marked
  split at marked
  · cases marked
    rw [Location.start_byteRange, Position.byteOffset_eq]
    have further := positionAt_le (p := ⟨1, 1⟩) least inside.length_front_lt
    rwa [counted] at further
  · cases marked

end Report

/-- In a source with no line breaks but line feeds, the report of a fault that starts at a character
names that place just where all characters in front of it are of one byte, and the bytes of the
fault stop no further than one past the number of all characters. Otherwise it names a later place
or none. In a source of ASCII characters it always names the place of the fault. -/
theorem report_points_iff (plain : Report.IsPlain source.toList) (located : f.location = some l)
    (inside : l.first.IsIn source.toList) :
    let exact := (∀ c ∈ l.first.front source.toList, c.toNat < 128) ∧
      (l.byteRange source).stop ≤ source.length + 1
    (∀ filename, (Report.ofFault f filename source).place = some (l.first.shown filename) ↔ exact) ∧
      (∀ (o : Options) (s : State), s.fault = some f →
        ((s.report o source).bind Report.place =
          some (l.first.shown (o.filename.getD Report.unnamed)) ↔ exact)) ∧
      (∀ filename m, (Report.ofFault f filename source).mark = some m → l.first ≤ m.first) ∧
      ((∀ c ∈ source.toList, c.toNat < 128) → exact) := by
  intro exact
  refine ⟨fun _ => Report.place_first_iff plain located inside, fun o s stopped => ?_,
    fun _ _ => Report.first_le_of_mark plain located inside, fun ascii => ?_⟩
  · rw [State.report, stopped]
    exact Report.place_first_iff plain located inside
  · have start := l.first.front_starts source.toList
    have whole := (l.byteRange_cuts source).inside
    rw [utf8ByteSize_eq, utf8Length_eq_length_iff.mpr ascii, String.length_toList] at whole
    exact ⟨fun c member => ascii c (start.subset member), Nat.le_succ_of_le whole⟩

theorem report_points_iff_last :
    let l : Location := ⟨⟨2, 5⟩, ⟨2, 6⟩⟩
    let source := "a = 1\nb = é\n"
    Report.IsPlain source.toList ∧ l.first.IsIn source.toList ∧
      (Report.ofFault ⟨.bareValue, some l⟩ "doc.toml" source).place = some "doc.toml:2:5" := by
  intro l source
  have plain : Report.IsPlain source.toList := by decide
  have inside : l.first.IsIn source.toList :=
    ⟨by decide, by decide, "b = é\n".toList, by decide, by decide⟩
  have front : l.first.front source.toList = "a = 1\nb = ".toList := by decide
  have ascii : ∀ c ∈ l.first.front source.toList, c.toNat < 128 := by
    rw [front]
    simp
  have named := ((report_points_iff (f := ⟨.bareValue, some l⟩) plain rfl inside).1
    "doc.toml").mpr ⟨ascii, by decide⟩
  have shown : l.first.shown "doc.toml" = "doc.toml:2:5" := by decide
  exact ⟨plain, inside, shown ▸ named⟩

/-- A character of two bytes in front of a fault moves the place of its report on by one. Where the
fault starts or behind, such characters can leave its report without a place. -/
theorem report_points_past :
    let l : Location := ⟨⟨2, 5⟩, ⟨2, 6⟩⟩
    let source := "é = 1\nb = x\n"
    let report := Report.ofFault ⟨.bareValue, some l⟩ "doc.toml" source
    Report.IsPlain source.toList ∧ l.first.IsIn source.toList ∧
      report.place = some "doc.toml:2:6" ∧ report.place ≠ some (l.first.shown "doc.toml") ∧
      (Report.ofFault ⟨.bareValue, some ⟨⟨1, 1⟩, ⟨1, 4⟩⟩⟩ "doc.toml" "ééé").place = none := by
  exact ⟨by decide, ⟨by decide, by decide, "b = x\n".toList, by decide, by decide⟩, by decide,
    by decide, by decide⟩

end TomlSemantics
