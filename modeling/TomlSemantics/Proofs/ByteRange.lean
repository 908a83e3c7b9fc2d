import Mathlib.Data.List.TakeWhile
import TomlSemantics.Location

/-!
# Ranges in the bytes of a source

A position cuts a source in two: what stands in front of it is a run of whole characters from the
start, and the offset of the position is the length of that run in bytes. Of two positions the later
one has at least as much in front of it, also where it lies past the end of a line or of the source.
So a range starts and stops between characters, and the range of a location that covers two others
goes from where the first of them starts to where the last of them stops.

1. `linesInduction`: a source is a line without an end, or a line, its line feed and a source.
2. `Position.front`: what stands in front of a position. `Position.byteOffset_eq`: the offset.
   `Position.front_mono`: more stands in front of a later position.
3. `Location.exists_byteRange`: a range cuts a source in three.
4. `ranges_cut_and_cover`: ranges can be cut out of the source, and cover what they join.
-/

namespace TomlSemantics

variable {text before rest line : List Char} {p q : Position} {n column : Nat}

/-! ## Lengths in bytes -/

@[simp] theorem utf8Length_append :
    utf8Length (before ++ rest) = utf8Length before + utf8Length rest := by
  induction before with
  | nil => exact (Nat.zero_add _).symm
  | cons c before ih => rw [List.cons_append, utf8Length, utf8Length, ih, Nat.add_assoc]

theorem utf8Length_mono (h : before <+: text) : utf8Length before ≤ utf8Length text := by
  obtain ⟨rest, rfl⟩ := h
  rw [utf8Length_append]
  exact Nat.le_add_right _ _

theorem utf8ByteSize_ofList (text : List Char) :
    (String.ofList text).utf8ByteSize = utf8Length text := by
  show (String.ofList text).toByteArray.size = _
  rw [String.toByteArray_ofList]
  induction text with
  | nil => rfl
  | cons c rest ih =>
    rw [List.utf8Encode_cons, ByteArray.size_append, ih, utf8Length]
    simp [List.utf8Encode]

theorem utf8ByteSize_eq (source : String) : source.utf8ByteSize = utf8Length source.toList := by
  rw [← utf8ByteSize_ofList, String.ofList_toList]

/-- There is a boundary between any two characters. -/
theorem isValid_utf8Length (before rest : List Char) :
    (⟨utf8Length before⟩ : String.Pos.Raw).IsValid (String.ofList (before ++ rest)) := by
  rw [String.Pos.Raw.isValid_ofList]
  exact ⟨before.length, by rw [List.take_left, utf8ByteSize_ofList]⟩

@[simp] theorem dropBytes_utf8Length : dropBytes (utf8Length before) (before ++ rest) = rest := by
  induction before with
  | nil => cases rest <;> rfl
  | cons c before ih =>
    have wide := c.utf8Size_pos
    rw [List.cons_append, utf8Length, dropBytes, if_neg (by omega), Nat.add_sub_cancel_left, ih]

@[simp] theorem takeBytes_utf8Length : takeBytes (utf8Length before) (before ++ rest) = before := by
  induction before with
  | nil => cases rest <;> rfl
  | cons c before ih =>
    have wide := c.utf8Size_pos
    rw [List.cons_append, utf8Length, takeBytes, if_neg (by omega), Nat.add_sub_cancel_left, ih]

/-! ## Lines -/

/-- A source is a line without an end, or a line, the line feed that ends it, and a source. -/
@[elab_as_elim]
theorem linesInduction {motive : List Char → Prop}
    (last : ∀ line, '\n' ∉ line → motive line)
    (more : ∀ line rest, '\n' ∉ line → motive rest → motive (line ++ '\n' :: rest))
    (text : List Char) : motive text := by
  by_cases ends : '\n' ∈ text
  · obtain ⟨line, rest, rfl, first⟩ := List.eq_append_cons_of_mem ends
    exact more line rest first (linesInduction last more rest)
  · exact last text ends
termination_by text.length

theorem sourceLines_append (h : '\n' ∉ line) :
    sourceLines (line ++ '\n' :: rest) = (line ++ ['\n']) :: sourceLines rest := by
  induction line with
  | nil => rfl
  | cons c line ih =>
    obtain ⟨other, others⟩ := List.ne_and_not_mem_of_not_mem_cons h
    rw [List.cons_append, sourceLines, if_neg other.symm, ih others]
    rfl

theorem sourceLines_of_not_mem (h : '\n' ∉ line) :
    sourceLines line = if line = [] then [] else [line] := by
  induction line with
  | nil => rfl
  | cons c line ih =>
    obtain ⟨other, others⟩ := List.ne_and_not_mem_of_not_mem_cons h
    rw [sourceLines, if_neg other.symm, ih others]
    cases line <;> rfl

theorem lineContent_of_not_mem (h : '\n' ∉ line) : lineContent line = line :=
  List.takeWhile_eq_self_iff.mpr fun _ member => decide_eq_true (ne_of_mem_of_not_mem member h)

theorem lineContent_append (h : '\n' ∉ line) : lineContent (line ++ '\n' :: rest) = line := by
  have inside : ∀ c ∈ line, decide (c ≠ '\n') = true := fun _ member =>
    decide_eq_true (ne_of_mem_of_not_mem member h)
  rw [lineContent, List.takeWhile_append_of_pos inside]
  simp

theorem lineContent_starts (text : List Char) : lineContent text <+: text :=
  List.takeWhile_prefix _

/-! ## What stands in front of a position -/

namespace Position

theorem le_def : p ≤ q ↔ p.line < q.line ∨ p.line = q.line ∧ p.column ≤ q.column := Iff.rfl

theorem le_refl (p : Position) : p ≤ p := .inr ⟨rfl, Nat.le_refl _⟩

theorem le_of_not_le (h : ¬ p ≤ q) : q ≤ p := by
  rw [le_def] at h ⊢
  omega

theorem le_trans {r : Position} (h : p ≤ q) (h' : q ≤ r) : p ≤ r := by
  rw [le_def] at h h' ⊢
  omega

theorem le_antisymm (h : p ≤ q) (h' : q ≤ p) : p = q := by
  obtain ⟨line, column⟩ := p
  obtain ⟨line', column'⟩ := q
  simp only [le_def, mk.injEq] at h h' ⊢
  omega

theorem min_eq_or (p q : Position) : min p q = p ∧ p ≤ q ∨ min p q = q ∧ q ≤ p := by
  by_cases le : p ≤ q
  · exact .inl ⟨if_pos le, le⟩
  · exact .inr ⟨if_neg le, le_of_not_le le⟩

theorem min_le_left (p q : Position) : min p q ≤ p := by
  rcases min_eq_or p q with ⟨first, le⟩ | ⟨first, le⟩
  · rw [first]
    exact le_refl p
  · rwa [first]

theorem max_eq_or (p q : Position) : max p q = q ∧ p ≤ q ∨ max p q = p ∧ q ≤ p := by
  by_cases le : p ≤ q
  · exact .inl ⟨if_pos le, le⟩
  · exact .inr ⟨if_neg le, le_of_not_le le⟩

theorem le_max_left (p q : Position) : p ≤ max p q := by
  rcases max_eq_or p q with ⟨last, le⟩ | ⟨last, le⟩
  · rwa [last]
  · rw [last]
    exact le_refl p

/-- The text in front of a position. Nothing of a line is past its end, and nothing of the text past
its last line. -/
def front (text : List Char) (p : Position) : List Char :=
  match p.line with
  | 0 => text
  | n + 1 =>
      match (sourceLines text)[n]? with
      | none => text
      | some l => ((sourceLines text).take n).flatten ++ (lineContent l).take (p.column - 1)

theorem byteOffset_eq (p : Position) (text : List Char) :
    p.byteOffset text = utf8Length (p.front text) := by
  obtain ⟨_ | n, column⟩ := p
  · rfl
  · cases found : (sourceLines text)[n]? with
    | none => simp [byteOffset, front, found]
    | some l => simp [byteOffset, front, found]

theorem front_last (h : '\n' ∉ line) :
    (⟨n + 1, column⟩ : Position).front line = if n = 0 then line.take (column - 1) else line := by
  cases line with
  | nil => simp [front, sourceLines]
  | cons c line =>
    rw [front, sourceLines_of_not_mem h]
    cases n with
    | zero => simp [lineContent_of_not_mem h]
    | succ n => rfl

theorem front_first (h : '\n' ∉ line) :
    (⟨1, column⟩ : Position).front (line ++ '\n' :: rest) = line.take (column - 1) := by
  simp [front, sourceLines_append h, lineContent_append h]

theorem front_more (h : '\n' ∉ line) :
    (⟨n + 2, column⟩ : Position).front (line ++ '\n' :: rest) =
      line ++ '\n' :: (⟨n + 1, column⟩ : Position).front rest := by
  cases found : (sourceLines rest)[n]? with
  | none => simp [front, sourceLines_append h, found]
  | some l => simp [front, sourceLines_append h, found]

/-- What stands in front of a position is the start of the text. -/
theorem front_starts (p : Position) (text : List Char) : p.front text <+: text := by
  obtain ⟨_ | n, column⟩ := p
  · exact List.prefix_refl text
  · induction text using linesInduction generalizing n with
    | last line h =>
      rw [front_last h]
      split
      · exact List.take_prefix _ line
      · exact List.prefix_refl line
    | more line rest h ih =>
      cases n with
      | zero =>
        have start := List.take_prefix (column - 1) line
        rw [front_first h]
        exact start.trans (List.prefix_append line _)
      | succ n =>
        rw [front_more h]
        exact (List.prefix_append_right_inj line).mpr ((List.prefix_cons_inj _).mpr (ih n))

/-- A later position has no less in front of it, whether it lies in the text or past its end. -/
theorem front_mono (counted : 1 ≤ p.line) (le : p ≤ q) : p.front text <+: q.front text := by
  obtain ⟨_ | n, column⟩ := p
  · exact absurd counted (Nat.not_succ_le_zero 0)
  obtain ⟨_ | m, column'⟩ := q
  · exact front_starts _ text
  clear counted
  rw [le_def] at le
  dsimp only at le
  induction text using linesInduction generalizing n m with
  | last line h =>
    rw [front_last h, front_last h]
    split <;> split
    · exact List.take_prefix_take_left (by omega)
    · exact List.take_prefix _ line
    · omega
    · exact List.prefix_refl line
  | more line rest h ih =>
    cases n with
    | zero =>
      -- The later position is on the first line too, or has all of that line in front of it.
      have start := List.take_prefix (column - 1) line
      rw [front_first h]
      cases m with
      | zero =>
        rw [front_first h]
        exact List.take_prefix_take_left (by omega)
      | succ m =>
        rw [front_more h]
        exact start.trans (List.prefix_append line _)
    | succ n =>
      obtain ⟨m, rfl⟩ := Nat.exists_eq_succ_of_ne_zero (by omega : m ≠ 0)
      rw [front_more h, front_more h]
      exact (List.prefix_append_right_inj line).mpr ((List.prefix_cons_inj _).mpr
        (ih n m (by omega)))

theorem byteOffset_mono (counted : 1 ≤ p.line) (le : p ≤ q) :
    p.byteOffset text ≤ q.byteOffset text := by
  rw [byteOffset_eq, byteOffset_eq]
  exact utf8Length_mono (front_mono counted le)

theorem byteOffset_min (counted : 1 ≤ p.line) (counted' : 1 ≤ q.line) :
    (min p q).byteOffset text = min (p.byteOffset text) (q.byteOffset text) := by
  rcases min_eq_or p q with ⟨first, le⟩ | ⟨first, le⟩
  · rw [first, Nat.min_eq_left (byteOffset_mono counted le)]
  · rw [first, Nat.min_eq_right (byteOffset_mono counted' le)]

theorem byteOffset_max (counted : 1 ≤ p.line) (counted' : 1 ≤ q.line) :
    (max p q).byteOffset text = max (p.byteOffset text) (q.byteOffset text) := by
  rcases max_eq_or p q with ⟨last, le⟩ | ⟨last, le⟩
  · rw [last, Nat.max_eq_right (byteOffset_mono counted le)]
  · rw [last, Nat.max_eq_left (byteOffset_mono counted' le)]

end Position

/-! ## Ranges -/

namespace Location

variable {l m : Location}

/-- A location that covers something: it starts on a line, and stops after it starts. -/
structure Proceeds (l : Location) : Prop where
  counted : 1 ≤ l.first.line
  ordered : l.first ≤ l.last
  nonempty : l.isEmpty = false

theorem start_byteRange (l : Location) (source : String) :
    (l.byteRange source).start = l.first.byteOffset source.toList := by
  unfold byteRange
  dsimp only
  split <;> rfl

/-- The start and the stop of a range have the text in front of them, and the start no more than
the stop. -/
theorem exists_byteRange (l : Location) (source : String) :
    ∃ before covered after : List Char, source.toList = before ++ covered ++ after ∧
      l.byteRange source = ⟨utf8Length before, utf8Length (before ++ covered)⟩ := by
  obtain ⟨rest, split⟩ := l.first.front_starts source.toList
  simp only [byteRange, Position.byteOffset_eq]
  generalize l.first.front source.toList = before at split ⊢
  cases l.isEmpty with
  | true =>
    -- What is covered is the rest of the line.
    obtain ⟨after, line⟩ := lineContent_starts rest
    refine ⟨before, lineContent rest, after, ?_, ?_⟩
    · rw [List.append_assoc, line, split]
    · rw [if_pos rfl, ← split, dropBytes_utf8Length, utf8Length_append]
  | false =>
    rw [if_neg Bool.false_ne_true]
    have last := l.last.front_starts source.toList
    rcases List.prefix_or_prefix_of_prefix last ⟨rest, split⟩ with less | more
    · refine ⟨before, [], rest, by rw [List.append_nil, split], ?_⟩
      rw [Nat.max_eq_right (utf8Length_mono less), List.append_nil]
    · rw [Nat.max_eq_left (utf8Length_mono more)]
      obtain ⟨covered, whole⟩ := more
      obtain ⟨after, split⟩ := last
      exact ⟨before, covered, after, by rw [whole, split], by rw [whole]⟩

namespace Proceeds

theorem byteRange_eq (h : l.Proceeds) (source : String) :
    l.byteRange source =
      ⟨l.first.byteOffset source.toList, l.last.byteOffset source.toList⟩ := by
  have later : l.first.byteOffset source.toList ≤ l.last.byteOffset source.toList :=
    Position.byteOffset_mono h.counted h.ordered
  simp [byteRange, h.nonempty, Nat.max_eq_left later]

theorem counted_last (h : l.Proceeds) : 1 ≤ l.last.line := by
  have counted := h.counted
  have ordered := h.ordered
  rw [Position.le_def] at ordered
  omega

theorem cover (h : l.Proceeds) (h' : m.Proceeds) : (l.cover m).Proceeds := by
  have starts := Position.min_le_left l.first m.first
  have stops := Position.le_max_left l.last m.last
  refine ⟨?_, Position.le_trans starts (Position.le_trans h.ordered stops), ?_⟩
  · show 1 ≤ (min l.first m.first).line
    rcases Position.min_eq_or l.first m.first with ⟨first, -⟩ | ⟨first, -⟩
    · rw [first]
      exact h.counted
    · rw [first]
      exact h'.counted
  · refine decide_eq_false fun (same : min l.first m.first = max l.last m.last) => ?_
    rw [same] at starts
    have back := Position.le_trans stops starts
    exact of_decide_eq_false h.nonempty (Position.le_antisymm h.ordered back)

end Proceeds

end Location

/-- A range that can be cut out of a source. -/
structure ByteRange.Cuts (range : ByteRange) (source : String) : Prop where
  ordered : range.start ≤ range.stop
  inside : range.stop ≤ source.utf8ByteSize
  starts_between : (⟨range.start⟩ : String.Pos.Raw).IsValid source
  stops_between : (⟨range.stop⟩ : String.Pos.Raw).IsValid source
  exists_parts : ∃ before after : String, source = before ++ range.slice source ++ after ∧
    before.utf8ByteSize = range.start ∧
    (before ++ range.slice source).utf8ByteSize = range.stop

theorem Location.byteRange_cuts (l : Location) (source : String) :
    (l.byteRange source).Cuts source := by
  obtain ⟨before, covered, after, split, range⟩ := l.exists_byteRange source
  obtain rfl : source = .ofList (before ++ covered ++ after) := by
    rw [← split, String.ofList_toList]
  have slice : (ByteRange.mk (utf8Length before) (utf8Length (before ++ covered))).slice
      (.ofList (before ++ covered ++ after)) = .ofList covered := by
    rw [ByteRange.slice, String.toList_ofList, List.append_assoc, dropBytes_utf8Length,
      utf8Length_append, Nat.add_sub_cancel_left, takeBytes_utf8Length]
  rw [range]
  refine ⟨?_, ?_, ?_, ?_, .ofList before, .ofList after, ?_, ?_, ?_⟩
  · exact utf8Length_mono (List.prefix_append before covered)
  · rw [utf8ByteSize_ofList]
    exact utf8Length_mono (List.prefix_append _ after)
  · rw [List.append_assoc]
    exact isValid_utf8Length before (covered ++ after)
  · exact isValid_utf8Length (before ++ covered) after
  · rw [slice, String.ofList_append, String.ofList_append]
  · exact utf8ByteSize_ofList before
  · rw [slice, ← String.ofList_append, utf8ByteSize_ofList]

/-- The range of every location can be cut out of every source. Where two locations each cover
something, the range of the location that covers both goes from the lesser start to the greater
stop. -/
theorem ranges_cut_and_cover (source : String) :
    (∀ l : Location, (l.byteRange source).Cuts source) ∧
      ∀ l m : Location, l.Proceeds → m.Proceeds →
        (l.cover m).byteRange source =
          ⟨min (l.byteRange source).start (m.byteRange source).start,
            max (l.byteRange source).stop (m.byteRange source).stop⟩ := by
  refine ⟨fun l => l.byteRange_cuts source, fun l m h h' => ?_⟩
  rw [(h.cover h').byteRange_eq, h.byteRange_eq, h'.byteRange_eq]
  rw [Location.cover, Position.byteOffset_min h.counted h'.counted,
    Position.byteOffset_max h.counted_last h'.counted_last]

theorem ranges_cut_and_cover_past_end :
    let l : Location := ⟨⟨1, 2⟩, ⟨1, 99⟩⟩
    let m : Location := ⟨⟨2, 1⟩, ⟨9, 1⟩⟩
    l.Proceeds ∧ m.Proceeds ∧ l.byteRange "é = 1\nb\n" = ⟨2, 6⟩ ∧
      m.byteRange "é = 1\nb\n" = ⟨7, 9⟩ ∧ (l.cover m).byteRange "é = 1\nb\n" = ⟨2, 9⟩ :=
  have h : (⟨⟨1, 2⟩, ⟨1, 99⟩⟩ : Location).Proceeds := ⟨by decide, by decide, by decide⟩
  have h' : (⟨⟨2, 1⟩, ⟨9, 1⟩⟩ : Location).Proceeds := ⟨by decide, by decide, by decide⟩
  ⟨h, h', by decide, by decide, (ranges_cut_and_cover "é = 1\nb\n").2 _ _ h h'⟩

end TomlSemantics
