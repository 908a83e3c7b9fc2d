import Mathlib.Algebra.Group.Nat.Defs
import TomlSemantics.Proofs.Balance
import TomlSemantics.Proofs.Latch

/-!
# The first bad line

Most faults have no place of their own and are placed where the last scalar was. That is always on
the line that caused them: before the first scalar of a line no event of it causes a fault. So the
line of a fault is the first that cannot be read after those before it, and nothing that comes later
changes the fault.

1. `Located`: events that name no place but that of a line. `Line.events_located`.
2. `Outline.Left.feed_opening`: what a line reports before its first scalar causes no fault.
3. `Outline.Left.blames_line`: a line that cannot be read is blamed.
4. `Document.exists_blamed`: the first line of a document that cannot be read.
5. `first_bad_line`: the fault of a document names that line.
-/

namespace TomlSemantics

/-! ## The places of a line -/

/-- Events that name no place but that of a line. -/
def Located (number : Nat) (events : List Event) : Prop :=
  ∀ e ∈ events, e.place?.getD (.atLine number) = .atLine number

namespace Located

variable {number : Nat} {first later : List Event} {e : Event}

theorem append_iff : Located number (first ++ later) ↔
    Located number first ∧ Located number later :=
  List.forall_mem_append

theorem cons_iff : Located number (e :: later) ↔
    e.place?.getD (.atLine number) = .atLine number ∧ Located number later :=
  List.forall_mem_cons

theorem nil : Located number [] := nofun

/-- Such events leave the place on the line, once it is there. -/
theorem lastPlace_eq (h : Located number later) :
    lastPlace (.atLine number) later = .atLine number := by
  induction later with
  | nil => rfl
  | cons e rest ih =>
    obtain ⟨here, there⟩ := cons_iff.mp h
    rw [lastPlace_cons, here, ih there]

end Located

theorem KeyPath.events_located (number : Nat) (key : KeyPath) :
    Located number (key.events number) := by
  refine Located.append_iff.mpr ⟨Located.cons_iff.mpr ⟨rfl, fun e segment => ?_⟩,
    Located.cons_iff.mpr ⟨rfl, .nil⟩⟩
  obtain ⟨part, -, rfl⟩ := List.mem_map.mp segment
  rfl

mutual

theorem Value.events_located (number : Nat) : ∀ v : Value, Located number (v.events number)
  | .scalar _ => Located.cons_iff.mpr ⟨rfl, .nil⟩
  | .array [] => Located.cons_iff.mpr ⟨rfl, .nil⟩
  | .array (item :: items) => by
    simp only [Value.events, Located.append_iff, Located.cons_iff]
    exact ⟨⟨rfl, item.events_located number, itemEvents_located number items⟩, rfl, .nil⟩
  | .inlineTable [] => Located.cons_iff.mpr ⟨rfl, .nil⟩
  | .inlineTable (pair :: pairs) => by
    simp only [Value.events, Located.append_iff, Located.cons_iff]
    exact ⟨⟨rfl, pairEvents_located number pair, pairsEvents_located number pairs⟩, rfl, .nil⟩

theorem Item.events_located (number : Nat) : ∀ item : Item, Located number (item.events number)
  | .value v => by
    simp only [Item.events, Located.append_iff, Located.cons_iff]
    exact ⟨⟨rfl, v.events_located number⟩, rfl, .nil⟩
  | .comment _ => Located.cons_iff.mpr ⟨rfl, .nil⟩
  | .blankLine => Located.cons_iff.mpr ⟨rfl, .nil⟩

theorem itemEvents_located (number : Nat) :
    ∀ items : List Item, Located number (itemEvents number items)
  | [] => .nil
  | item :: items => by
    rw [itemEvents, Located.append_iff]
    exact ⟨item.events_located number, itemEvents_located number items⟩

theorem pairEvents_located (number : Nat) :
    ∀ pair : KeyPath × Value, Located number (pairEvents number pair)
  | (key, v) => by
    simp only [pairEvents, Located.append_iff]
    exact ⟨⟨key.events_located number, v.events_located number⟩, Located.cons_iff.mpr ⟨rfl, .nil⟩⟩

theorem pairsEvents_located (number : Nat) :
    ∀ pairs : List (KeyPath × Value), Located number (pairsEvents number pairs)
  | [] => .nil
  | pair :: pairs => by
    rw [pairsEvents, Located.append_iff]
    exact ⟨pairEvents_located number pair, pairsEvents_located number pairs⟩

end

namespace Line

theorem commentEvents_located {after : Event} (silent : after.place? = none) (number : Nat)
    (c : Option String) : Located number (commentEvents number after c) := by
  cases c with
  | none => exact .nil
  | some text => exact Located.cons_iff.mpr ⟨rfl, Located.cons_iff.mpr ⟨by rw [silent]; rfl, .nil⟩⟩

/-- A line names no place but its own. -/
theorem events_located {line : Line} (numbered : line.isNumbered = true) (number : Nat) :
    Located number (line.events number) := by
  cases line with
  | pair key v c =>
    rw [events, Located.append_iff]
    exact ⟨pairEvents_located number (key, v), commentEvents_located rfl number c⟩
  | table key c =>
    simp only [events, Located.append_iff, Located.cons_iff]
    exact ⟨⟨rfl, key.events_located number⟩, rfl, commentEvents_located rfl number c⟩
  | tableArray key c =>
    simp only [events, Located.append_iff, Located.cons_iff]
    exact ⟨⟨rfl, key.events_located number⟩, rfl, commentEvents_located rfl number c⟩
  | comment text => exact Located.cons_iff.mpr ⟨rfl, .nil⟩
  | blank => exact Located.cons_iff.mpr ⟨rfl, .nil⟩
  | raw e => cases numbered

/-! ## Before the first scalar -/

/-- The key that a line begins with. -/
def key? : Line → Option KeyPath
  | pair key _ _ | table key _ | tableArray key _ => some key
  | comment _ | blank | raw _ => none

/-- What a line reports before its first scalar. -/
def opening : Line → List Event
  | pair _ _ _ => [.keyStart]
  | table _ _ => [.tableStart, .keyStart]
  | tableArray _ _ => [.tableArrayStart, .keyStart]
  | comment _ | blank | raw _ => []

/-- After its opening a line names its place, unless it is blank. -/
theorem events_eq_opening {line : Line} (numbered : line.isNumbered = true)
    (keyed : line.key? ≠ some []) (written : line ≠ .blank) (number : Nat) :
    ∃ e later, line.events number = line.opening ++ e :: later ∧
      e.place? = some (.atLine number) := by
  have parts {key : KeyPath} (some_ : some key ≠ some []) : ∃ part rest, key = part :: rest :=
    List.exists_cons_of_ne_nil fun none => some_ (congrArg some none)
  cases line with
  | pair key v c =>
    obtain ⟨part, rest, rfl⟩ := parts keyed
    exact ⟨.keySegment (part.atLine number), _, rfl, rfl⟩
  | table key c =>
    obtain ⟨part, rest, rfl⟩ := parts keyed
    exact ⟨.keySegment (part.atLine number), _, rfl, rfl⟩
  | tableArray key c =>
    obtain ⟨part, rest, rfl⟩ := parts keyed
    exact ⟨.keySegment (part.atLine number), _, rfl, rfl⟩
  | comment text => exact ⟨.comment (commentScalar number text), [], rfl, rfl⟩
  | blank => exact absurd rfl written
  | raw e => cases numbered

end Line

namespace Outline

variable {o : Options} {out out' : Outline} {s : State} {line : Line}

/-- Before the first scalar of a line nothing goes wrong, wherever the line stands. -/
theorem Left.feed_opening (left : out.Left o s) (none : s.fault = none) (line : Line) :
    (s.feedAll o line.opening).fault = .none := by
  suffices ran : ∃ s', (Event.runAll o line.opening).run s = .ok () s' by
    obtain ⟨s', ran⟩ := ran
    have mirrors : Builder.Mirrors (Event.runAll o line.opening) s (.ok ()) fun _ _ => True :=
      ⟨s', ran, trivial⟩
    exact (State.reflects_feedAll none mirrors).2
  cases line with
  | pair key v c =>
    obtain ⟨stack, previous, opens, -, h⟩ := left
    obtain ⟨base, names, eq, -⟩ := base_eq_ok opens
    obtain ⟨top, below, rfl, -, -⟩ := List.map_eq_cons_iff.mp eq
    obtain ⟨s', started, -⟩ := Builder.startDraft_run (o := o) h rfl
    exact ⟨s', by rw [Line.opening, Event.runAll_singleton]; exact started⟩
  | table key c =>
    obtain ⟨s', -, -, started, -⟩ := Builder.startTable_run left
    exact ⟨s', by simpa only [Line.opening, Event.runAll, Event.step, bind_pure_unit] using started⟩
  | tableArray key c =>
    obtain ⟨s', -, -, started, -⟩ := Builder.startTableArray_run left
    exact ⟨s', by simpa only [Line.opening, Event.runAll, Event.step, bind_pure_unit] using started⟩
  | comment text => exact ⟨s, rfl⟩
  | blank => exact ⟨s, rfl⟩
  | raw e => exact ⟨s, rfl⟩

/-! ## Lines -/

theorem blankLines_of_assemble (ok : line.assemble o out = .ok out') :
    out'.comments.blankLines ≤ out.comments.blankLines + 1 := by
  cases line with
  | pair key v c =>
    obtain ⟨base, -, ok⟩ := exists_of_bind_eq_ok ok
    obtain ⟨made, -, ok⟩ := exists_of_bind_eq_ok ok
    cases ok
    exact Nat.zero_le _
  | table key c =>
    obtain ⟨path, -, ok⟩ := exists_of_bind_eq_ok ok
    obtain ⟨opened, -, ok⟩ := exists_of_bind_eq_ok ok
    cases ok
    exact Nat.zero_le _
  | tableArray key c =>
    obtain ⟨path, -, ok⟩ := exists_of_bind_eq_ok ok
    obtain ⟨-, -, ok⟩ := exists_of_bind_eq_ok ok
    obtain ⟨opened, entered, ok⟩ := exists_of_bind_eq_ok ok
    obtain ⟨scopes, -, entered⟩ := exists_of_bind_eq_ok entered
    obtain ⟨element, -, entered⟩ := exists_of_bind_eq_ok entered
    cases entered
    cases ok
    exact Nat.zero_le _
  | comment text => cases ok; exact Nat.zero_le _
  | blank =>
    obtain ⟨comments, counted, ok⟩ := exists_of_bind_eq_ok ok
    unfold CommentQueue.newline at counted
    split at counted
    · cases counted
      cases ok
      exact Nat.le_refl _
    · cases counted
  | raw e => cases ok; exact Nat.le_succ _

/-- A line that cannot be read is blamed, if its key has parts and no blank line is one too many. -/
theorem Left.blames_line (left : out.Left o s) (none : s.fault = none)
    (numbered : line.isNumbered = true) (keyed : line.key? ≠ some [])
    (few : out.comments.blankLines + 1 < CommentQueue.blankLineLimit) {cause : Cause}
    (bad : line.assemble o out = .error cause) (number : Nat) :
    ∃ fault, (s.feedAll o (line.events number)).fault = some fault ∧ fault.line = number := by
  have written : line ≠ .blank := by
    rintro rfl
    rw [Line.assemble, CommentQueue.newline, if_pos few] at bad
    cases bad
  obtain ⟨first, later, events, placed⟩ := Line.events_eq_opening numbered keyed written number
  have stops := left.reflects_line none numbered number
  have located := line.events_located numbered number
  have opened := left.feed_opening none line
  rw [events] at stops located ⊢
  rw [bad, State.feedAll, List.foldl_append] at stops
  rw [State.feedAll, List.foldl_append]
  obtain ⟨location, stopped⟩ := stops
  obtain quiet | ⟨before, e, after, fault, split, at_⟩ :=
    (s.feedAll o line.opening).quiet_or_stopped opened (first :: later) (o := o)
  · exact absurd (stopped.symm.trans quiet.fault_eq) (Option.some_ne_none _)
  have latched := at_.unchanged after List.prefix_rfl
  rw [← split] at latched
  refine ⟨fault, (congrArg State.fault latched).trans at_.fault_eq, ?_⟩
  -- The first event after the opening has its place, and the events up to the fault stay there.
  obtain ⟨rest, run, there⟩ : ∃ rest, before ++ [e] = first :: rest ∧ Located number rest := by
    have later_located := (Located.cons_iff.mp (Located.append_iff.mp located).2).2
    cases before with
    | nil => cases split; exact ⟨[], rfl, .nil⟩
    | cons b before =>
      cases split
      obtain ⟨upTo, from_⟩ := Located.append_iff.mp later_located
      exact ⟨before ++ [e], rfl,
        Located.append_iff.mpr ⟨upTo, Located.cons_iff.mpr ⟨(Located.cons_iff.mp from_).1, .nil⟩⟩⟩
  have here : fault.location = some (.atLine number) := by
    rw [at_.location_eq, run, lastPlace_cons, placed, Option.getD_some, there.lastPlace_eq]
  rw [Fault.line, here]
  rfl

end Outline

/-! ## Documents -/

namespace Document

variable {o : Options} {lines : List Line} {out : Outline}

/-- The first line that cannot be read after those before it. -/
theorem exists_first_bad {cause : Cause} (failed : outline o lines out = .error cause) :
    ∃ done line rest mid, lines = done ++ line :: rest ∧ outline o done out = .ok mid ∧
      line.assemble o mid = .error cause := by
  induction lines generalizing out with
  | nil => cases failed
  | cons line rest ih =>
    cases assembled : line.assemble o out with
    | error found =>
      rw [outline, assembled] at failed
      cases failed
      exact ⟨[], line, rest, out, rfl, rfl, assembled⟩
    | ok next =>
      rw [outline, assembled] at failed
      obtain ⟨done, bad, later, mid, rfl, read, stops⟩ := ih failed
      refine ⟨line :: done, bad, later, mid, rfl, ?_, stops⟩
      rw [outline, assembled]
      exact read

theorem blankLines_of_outline {final : Outline} (ok : outline o lines out = .ok final) :
    final.comments.blankLines ≤ out.comments.blankLines + lines.length := by
  induction lines generalizing out with
  | nil => cases ok; exact Nat.le_refl _
  | cons line rest ih =>
    obtain ⟨next, first, ok⟩ := exists_of_outline_cons ok
    have step := Outline.blankLines_of_assemble first
    have run := ih ok
    rw [List.length_cons]
    omega

theorem stateAfter_concat {done : List Line} {line : Line}
    (numbered : ∀ l ∈ done ++ [line], l.isNumbered = true) (o : Options) :
    stateAfter o (done ++ [line]) =
      (stateAfter o done).feedAll o (line.events (done.length + 1)) := by
  obtain ⟨first, last⟩ := List.forall_mem_append.mp numbered
  have count : lineCount done = done.length := List.countP_eq_length.mpr first
  rw [stateAfter, lineEvents_append, count, Nat.zero_add, ← List.cons_append, State.feedAll,
    List.foldl_append, lineEvents, if_pos (last line (List.mem_singleton.mpr rfl)), lineEvents,
    List.append_nil]
  rfl

/-- The lines before others that can be read are read. -/
theorem parse_take {done : List Line} {mid : Outline}
    (numbered : ∀ line ∈ done, line.isNumbered = true) (read : outline o done (.start ∅) = .ok mid)
    (n : Nat) : ∃ keys, parse o (events (done.take n)) = .ok keys := by
  rw [← List.take_append_drop n done] at read
  obtain ⟨final, read, -⟩ := exists_of_outline_append read
  refine ⟨final.finish o, (parse_eq_ok_iff (fun line member =>
    numbered line (List.mem_of_mem_take member)) o).mpr ?_⟩
  rw [assemble, read]
  rfl

/-- A fault stays, whatever lines follow. -/
theorem parse_of_fault {done : List Line} {fault : Fault}
    (stopped : (stateAfter o done).fault = some fault) (rest : List Line) :
    parse o (events (done ++ rest)) = .error fault := by
  have split : events (done ++ rest) = .documentStart :: lineEvents 0 done ++
      (lineEvents (0 + lineCount done) rest ++ [.documentEnd]) := by
    rw [events, lineEvents_append, List.cons_append, List.append_assoc, List.cons_append]
  have left : (State.start o ∅).feedAll o (events (done ++ rest)) = stateAfter o done := by
    rw [split, State.feedAll, List.foldl_append]
    exact State.feedAll_of_fault stopped _
  rw [parse, ← State.feedAll_eq_feedUntilFault rfl, left, State.finish_eq, stopped]

/-- Lines that cannot all be read have a first that is blamed: those before it are read, and it
leaves a fault with its number. -/
theorem exists_blamed (numbered : ∀ line ∈ lines, line.isNumbered = true)
    (keyed : ∀ line ∈ lines, line.key? ≠ some []) (short : lines.length < 2 ^ 32) {cause : Cause}
    (failed : outline o lines (.start ∅) = .error cause) :
    ∃ done line rest mid fault, lines = (done ++ [line]) ++ rest ∧
      outline o done (.start ∅) = .ok mid ∧ fault.line = done.length + 1 ∧
      (stateAfter o (done ++ [line])).fault = some fault := by
  obtain ⟨done, line, rest, mid, rfl, read, bad⟩ := exists_first_bad failed
  obtain ⟨numbered_done, numbered⟩ := List.forall_mem_append.mp numbered
  have line_mem : line ∈ done ++ line :: rest := List.mem_append_right _ List.mem_cons_self
  have numbered_line := numbered line List.mem_cons_self
  have state := reflects_lines numbered_done o ∅
  rw [read] at state
  obtain ⟨left, none⟩ := state
  have few : mid.comments.blankLines + 1 < CommentQueue.blankLineLimit := by
    have most : mid.comments.blankLines ≤ 0 + done.length := blankLines_of_outline read
    rw [List.length_append, List.length_cons] at short
    unfold CommentQueue.blankLineLimit
    omega
  obtain ⟨fault, stopped, at_⟩ :=
    left.blames_line none numbered_line (keyed line line_mem) few bad (done.length + 1)
  refine ⟨done, line, rest, mid, fault, by simp, read, at_, ?_⟩
  rw [stateAfter_concat (List.forall_mem_append.mpr ⟨numbered_done,
    List.forall_mem_singleton.mpr numbered_line⟩)]
  exact stopped

end Document

/-- The fault of a document without stray events names its first bad line: fewer lines are read, and
that line fails with this fault whatever follows, other lines, stray events or nothing. -/
theorem first_bad_line {lines : List Line} (numbered : ∀ line ∈ lines, line.isNumbered = true)
    (keyed : ∀ line ∈ lines, line.key? ≠ some []) (short : lines.length < 2 ^ 32) (o : Options)
    {fault : Fault} (failed : parse o (Document.events lines) = .error fault) :
    0 < fault.line ∧ fault.line ≤ lines.length ∧
    (∀ n < fault.line, ∃ keys, parse o (Document.events (lines.take n)) = .ok keys) ∧
    ∀ rest, parse o (Document.events (lines.take fault.line ++ rest)) = .error fault := by
  obtain ⟨cause, outlined⟩ : ∃ cause, Document.outline o lines (.start ∅) = .error cause := by
    cases outlined : Document.outline o lines (.start ∅) with
    | error cause => exact ⟨cause, rfl⟩
    | ok final =>
      have read : Document.assemble o lines = .ok (final.finish o) := by
        rw [Document.assemble, outlined]
        rfl
      cases failed.symm.trans ((parse_eq_ok_iff numbered o).mpr read)
  obtain ⟨done, line, rest, mid, found, rfl, read, at_, stopped⟩ :=
    Document.exists_blamed numbered keyed short outlined
  -- The fault that stays after the blamed line is the one that the document ends with.
  obtain rfl : found = fault :=
    Except.error.inj ((Document.parse_of_fault stopped rest).symm.trans failed)
  have upTo : (done ++ [line]).length = found.line := by rw [at_, List.length_append]; rfl
  refine ⟨by omega, ?_, fun n less => ?_, fun later => ?_⟩
  · rw [List.length_append, upTo]
    exact Nat.le_add_right _ _
  · have inDone : n ≤ done.length := by omega
    rw [List.append_assoc, List.take_append_of_le_length inDone]
    exact Document.parse_take (List.forall_mem_append.mp (List.forall_mem_append.mp numbered).1).1
      read n
  · rw [List.take_left' upTo]
    exact Document.parse_of_fault stopped later

/-- An element with a pair that is given twice, the second time as an array. -/
def againLines : List Line :=
  [.comment "top", .tableArray (.ofDotted "t") none,
    .pair (.ofDotted "a") (.scalar (.verbatim .decimal "1")) (some "one"),
    .pair (.ofDotted "a") (.array [.value (.scalar (.verbatim .decimal "2"))]) none, .blank]

theorem first_bad_line_again :
    (∀ line ∈ againLines, line.isNumbered = true) ∧ (∀ line ∈ againLines, line.key? ≠ some []) ∧
    againLines.length < 2 ^ 32 ∧
    ∃ fault, parse {} (Document.events againLines) = .error fault ∧ fault.line = 4 ∧
      fault.cause = .duplicateName ⟨["user:", "t", "#0", "a"]⟩ ∧
      ∀ rest, parse {} (Document.events (againLines.take fault.line ++ rest)) = .error fault := by
  have numbered : ∀ line ∈ againLines, line.isNumbered = true := by decide
  have keyed : ∀ line ∈ againLines, line.key? ≠ some [] := by decide
  have short : againLines.length < 2 ^ 32 := by decide
  have failed : parse {} (Document.events againLines) =
      .error ⟨.duplicateName ⟨["user:", "t", "#0", "a"]⟩, some (.atLine 4)⟩ := rfl
  exact ⟨numbered, keyed, short, _, failed, rfl, rfl,
    (first_bad_line numbered keyed short {} failed).2.2.2⟩

end TomlSemantics
