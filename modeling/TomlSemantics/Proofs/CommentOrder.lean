import Mathlib.Data.List.Chain
import TomlSemantics.Builder.CommentQueue

/-!
# The order of waiting comments

Comments leave the queue from the front, one by one or all at once, and blank lines are only counted
until something follows them. Still nothing is lost on the way and nothing changes places. Runs of
blank lines in the queue are never empty and never follow each other, and its last entry is a
comment. So an entry that waits alone is a comment.

1. `QueueCall.run`, `QueueCall.leftAll`: one call on a queue, and calls in turn.
2. `CommentQueue.Tidy`: what the entries of a queue look like.
3. `QueueCall.run_takeOnly_eq_error_iff`: when the comment on a line cannot be taken.
4. `QueueCall.Effect`: what a call can do to such a queue. `Effect.tidy`, `Effect.lines_eq`: it
   keeps the entries in shape and the lines in order.
5. `queue_lossless`: what was put into a queue, by what came out and what waits.
-/

namespace TomlSemantics

/-! ## Calls -/

/-- A call on a queue of comments. -/
inductive QueueCall
  /-- A comment comes. -/
  | push (c : Comment)
  /-- A blank line comes. -/
  | newline
  /-- The first comment is taken, if no blank line comes before it. -/
  | takeFirst
  /-- The one comment on a line is taken. -/
  | takeOnly (site : CommentSite)
  /-- Everything is taken. -/
  | drain
deriving DecidableEq, Repr

namespace QueueCall

/-- What a call hands out, or why it fails, and the queue that it leaves. An entry that waits alone
has been taken out before it turns out to be blank lines. -/
def run (q : CommentQueue) : QueueCall → Except Cause (List BlockEntry) × CommentQueue
  | push c => (.ok [], q.push c)
  | newline =>
      match q.newline with
      | .ok counted => (.ok [], counted)
      | .error cause => (.error cause, q)
  | takeFirst =>
      match q.takeFirst with
      | some (c, rest) => (.ok [.comment c], rest)
      | none => (.ok [], q)
  | takeOnly site =>
      match q.takeOnly site with
      | .ok (some (c, rest)) => (.ok [.comment c], rest)
      | .ok none => (.ok [], q)
      | .error cause =>
          (.error cause, { q with entries := if 1 < q.entries.length then q.entries else [] })
  | drain => (.ok q.contents, {})

/-- What a call hands out. A call that fails hands out nothing. -/
def handed (q : CommentQueue) (call : QueueCall) : List BlockEntry :=
  (call.run q).1.toOption.getD []

/-- The queue that a call leaves, whether it fails or not. -/
def left (q : CommentQueue) (call : QueueCall) : CommentQueue := (call.run q).2

/-- What calls hand out in turn. -/
def handedAll : CommentQueue → List QueueCall → List BlockEntry
  | _, [] => []
  | q, call :: rest => call.handed q ++ handedAll (call.left q) rest

/-- The queue that calls leave. -/
def leftAll (q : CommentQueue) (calls : List QueueCall) : CommentQueue := calls.foldl left q

end QueueCall

variable {q q' : CommentQueue} {c : Comment} {call : QueueCall} {calls : List QueueCall}
  {out rest : List BlockEntry} {site : CommentSite}

/-! ## Entries in shape -/

/-- Whether an entry is a comment. -/
def BlockEntry.isComment : BlockEntry → Bool
  | comment _ => true
  | blankLines _ => false

/-- The entries of a queue are comments, each with at most one run of blank lines before it. -/
structure CommentQueue.Tidy (q : CommentQueue) : Prop where
  counted : .blankLines 0 ∉ q.entries
  apart : q.entries.IsChain fun e e' => e.isComment ∨ e'.isComment
  closed : ∀ e ∈ q.entries.getLast?, e.isComment

namespace CommentQueue.Tidy

theorem empty : ({} : CommentQueue).Tidy := ⟨List.not_mem_nil, .nil, by simp⟩

theorem push (h : q.Tidy) (c : Comment) : (q.push c).Tidy := by
  obtain ⟨counted, apart, closed⟩ := h
  unfold CommentQueue.push contents
  split
  · refine ⟨by simpa using counted, ?_, by simp [BlockEntry.isComment]⟩
    rw [List.isChain_append]
    exact ⟨apart, .singleton _, fun e last _ _ => .inl (closed e last)⟩
  · next some_ =>
    -- The blank lines go between two comments.
    refine ⟨by simpa [counted] using Ne.symm some_, ?_, by simp [BlockEntry.isComment]⟩
    rw [List.append_assoc, List.isChain_append]
    refine ⟨apart, ?_, fun e last _ _ => .inl (closed e last)⟩
    exact .cons_cons (.inr rfl) (.singleton _)

theorem tail {e : BlockEntry} (h : q.Tidy) (found : q.entries = e :: rest) :
    ({ q with entries := rest } : CommentQueue).Tidy := by
  obtain ⟨counted, apart, closed⟩ := h
  rw [found] at counted apart closed
  refine ⟨fun member => counted (List.mem_cons_of_mem e member), apart.tail, fun last final => ?_⟩
  refine closed last ?_
  rw [List.getLast?_cons, Option.mem_def.mp final]
  rfl

/-- An entry that waits alone is a comment. -/
theorem ne_blankLines (h : q.Tidy) (n : Nat) : q.entries ≠ [.blankLines n] := by
  intro alone
  have closed := h.closed (.blankLines n) (by rw [alone]; rfl)
  cases closed

end CommentQueue.Tidy

/-! ## What a call does -/

namespace QueueCall

/-- The lines that a call puts in: a comment, or a blank line without one. -/
def put : QueueCall → List (Option Comment)
  | push c => [some c]
  | newline => [none]
  | takeFirst | takeOnly _ | drain => []

theorem run_takeFirst_cases (q : CommentQueue) :
    takeFirst.run q = (.ok [], q) ∨ ∃ c rest, q.entries = .comment c :: rest ∧
      takeFirst.run q = (.ok [.comment c], { q with entries := rest }) := by
  obtain ⟨entries, blankLines⟩ := q
  cases entries with
  | nil => exact .inl rfl
  | cons e rest =>
    cases e with
    | comment c => exact .inr ⟨c, rest, rfl, rfl⟩
    | blankLines n => exact .inl rfl

/-- The comment on a line is the first of the queue, unless several entries wait. -/
theorem run_takeOnly (h : q.Tidy) (site : CommentSite) :
    (takeOnly site).run q =
      if 1 < q.entries.length then (.error (.severalComments site), q) else takeFirst.run q := by
  obtain ⟨entries, blankLines⟩ := q
  rcases entries with _ | ⟨e, _ | ⟨e', rest⟩⟩
  · rfl
  · cases e with
    | comment c => rfl
    | blankLines n => exact absurd rfl (h.ne_blankLines n)
  · cases e <;> simp [run, CommentQueue.takeOnly]

/-- The comment on a line cannot be taken just where several entries wait, and then they stay. -/
theorem run_takeOnly_eq_error_iff (h : q.Tidy) {cause : Cause} :
    (takeOnly site).run q = (.error cause, q') ↔
      1 < q.entries.length ∧ cause = .severalComments site ∧ q' = q := by
  rw [run_takeOnly h]
  split
  · next several => simp [several, eq_comm]
  · next alone =>
    rcases run_takeFirst_cases q with none | ⟨c, rest, -, taken⟩
    · simp [none, alone]
    · simp [taken, alone]

/-- What a call does: what it hands out, and the queue that it leaves. -/
inductive Effect (q : CommentQueue) : QueueCall → List BlockEntry → CommentQueue → Prop
  /-- A comment waits. -/
  | waits (c : Comment) : Effect q (push c) [] (q.push c)
  /-- A blank line is counted. -/
  | counts : Effect q newline [] { q with blankLines := q.blankLines + 1 }
  /-- There are as many blank lines as can be counted. -/
  | overflows : ¬ q.blankLines + 1 < CommentQueue.blankLineLimit → Effect q newline [] q
  /-- The first entry is taken, which is a comment. -/
  | takes {call : QueueCall} {c : Comment} {rest : List BlockEntry} : call.put = [] →
      q.entries = .comment c :: rest → Effect q call [.comment c] { q with entries := rest }
  /-- Everything is taken. -/
  | drains : Effect q drain q.contents {}
  /-- Nothing is taken. -/
  | rests {call : QueueCall} : call.put = [] → Effect q call [] q

theorem effect (h : q.Tidy) (call : QueueCall) : Effect q call (call.handed q) (call.left q) := by
  unfold handed left
  cases call with
  | push c => exact .waits c
  | newline =>
    by_cases few : q.blankLines + 1 < CommentQueue.blankLineLimit
    · rw [run, CommentQueue.newline, if_pos few]
      exact .counts
    · rw [run, CommentQueue.newline, if_neg few]
      exact .overflows few
  | takeFirst =>
    rcases run_takeFirst_cases q with none | ⟨c, rest, found, taken⟩
    · rw [none]
      exact .rests rfl
    · rw [taken]
      exact .takes rfl found
  | takeOnly site =>
    rw [run_takeOnly h]
    split
    · exact .rests rfl
    · rcases run_takeFirst_cases q with none | ⟨c, rest, found, taken⟩
      · rw [none]
        exact .rests rfl
      · rw [taken]
        exact .takes rfl found
  | drain => exact .drains

theorem Effect.tidy (effect : Effect q call out q') (h : q.Tidy) : q'.Tidy := by
  cases effect with
  | waits c => exact h.push c
  | counts => exact ⟨h.counted, h.apart, h.closed⟩
  | overflows _ => exact h
  | takes _ found => exact h.tail found
  | drains => exact .empty
  | rests _ => exact h

theorem tidy_leftAll (h : q.Tidy) (calls : List QueueCall) : (leftAll q calls).Tidy := by
  induction calls generalizing q with
  | nil => exact h
  | cons call rest ih => exact ih ((effect h call).tidy h)

end QueueCall

/-! ## Lines in order -/

/-- The lines of an entry: a comment, or blank lines without one. -/
def BlockEntry.lines : BlockEntry → List (Option Comment)
  | comment c => [some c]
  | blankLines n => List.replicate n none

/-- The lines that wait. -/
def CommentQueue.lines (q : CommentQueue) : List (Option Comment) :=
  q.entries.flatMap BlockEntry.lines ++ List.replicate q.blankLines none

theorem CommentQueue.lines_contents (q : CommentQueue) :
    q.contents.flatMap BlockEntry.lines = q.lines := by
  unfold contents lines
  split
  · next none => simp [none]
  · simp [BlockEntry.lines]

namespace QueueCall

/-- What a call hands out and leaves is what waited, and then what the call put in. -/
theorem Effect.lines_eq (effect : Effect q call out q')
    (few : call = newline → q.blankLines + 1 < CommentQueue.blankLineLimit) :
    out.flatMap BlockEntry.lines ++ q'.lines = q.lines ++ call.put := by
  cases effect with
  | waits c =>
    show (q.contents ++ [BlockEntry.comment c]).flatMap BlockEntry.lines ++ [] = q.lines ++ [some c]
    rw [List.append_nil, List.flatMap_append, CommentQueue.lines_contents]
    rfl
  | counts => simp [CommentQueue.lines, put, List.replicate_succ']
  | overflows many => exact absurd (few rfl) many
  | takes nothing found => simp [CommentQueue.lines, nothing, found, BlockEntry.lines]
  | drains =>
    show q.contents.flatMap BlockEntry.lines ++ [] = q.lines ++ []
    rw [CommentQueue.lines_contents]
  | rests nothing => rw [nothing, List.append_nil, List.flatMap_nil, List.nil_append]

/-- Only a blank line is counted as one. -/
theorem Effect.blankLines_le (effect : Effect q call out q') :
    q'.blankLines ≤ q.blankLines + [call].count newline := by
  cases effect with
  | waits c => exact Nat.zero_le _
  | counts => exact Nat.le_refl _
  | drains => exact Nat.zero_le _
  | overflows _ | takes _ _ | rests _ => exact Nat.le_add_right _ _

theorem lines_leftAll (h : q.Tidy)
    (few : q.blankLines + calls.count newline < CommentQueue.blankLineLimit) :
    (handedAll q calls).flatMap BlockEntry.lines ++ (leftAll q calls).lines =
      q.lines ++ calls.flatMap put := by
  induction calls generalizing q with
  | nil => exact (List.append_nil _).symm
  | cons call rest ih =>
    have first := effect h call
    have counted := first.blankLines_le
    rw [← List.singleton_append, List.count_append] at few
    have fewFirst : call = newline → q.blankLines + 1 < CommentQueue.blankLineLimit := by
      rintro rfl
      rw [List.count_singleton_self] at few
      omega
    have later := ih (first.tidy h) (by omega)
    calc (handedAll q (call :: rest)).flatMap BlockEntry.lines ++ (leftAll q (call :: rest)).lines
        = (call.handed q).flatMap BlockEntry.lines ++
            ((handedAll (call.left q) rest).flatMap BlockEntry.lines ++
              (leftAll (call.left q) rest).lines) := by
          rw [handedAll, List.flatMap_append, List.append_assoc]
          rfl
      _ = (q.lines ++ call.put) ++ rest.flatMap put := by
          rw [later, ← List.append_assoc, first.lines_eq fewFirst]
      _ = q.lines ++ (call :: rest).flatMap put := by
          rw [List.append_assoc, List.flatMap_cons]

end QueueCall

/-- After any calls on a queue that was empty at first, its runs of blank lines are not empty and do
not follow each other, and its last entry is a comment. The comment on a line cannot be taken just
where several entries wait, and then they stay. What was handed out, what waits, and the blank lines
after it are the lines that were put in, in turn, where the blank lines can be counted. -/
theorem queue_lossless (few : calls.count .newline < CommentQueue.blankLineLimit) :
    let q := QueueCall.leftAll {} calls
    q.Tidy ∧
      (∀ site cause q', (QueueCall.takeOnly site).run q = (.error cause, q') ↔
        1 < q.entries.length ∧ cause = .severalComments site ∧ q' = q) ∧
      (QueueCall.handedAll {} calls).flatMap BlockEntry.lines ++
          q.entries.flatMap BlockEntry.lines ++ List.replicate q.blankLines none =
        calls.flatMap QueueCall.put := by
  intro q
  have tidy : q.Tidy := QueueCall.tidy_leftAll .empty calls
  refine ⟨tidy, fun site cause q' => QueueCall.run_takeOnly_eq_error_iff tidy, ?_⟩
  rw [List.append_assoc]
  exact QueueCall.lines_leftAll .empty (by rwa [Nat.zero_add])

/-- Comments and blank lines, with one comment taken in between. -/
def mixedCalls : List QueueCall :=
  [.push ⟨" a", "# a"⟩, .newline, .newline, .push ⟨" b", "# b"⟩, .takeOnly .pair, .takeFirst,
    .takeFirst, .newline]

theorem queue_lossless_mixed :
    mixedCalls.count .newline < CommentQueue.blankLineLimit ∧
      QueueCall.handedAll {} mixedCalls = [.comment ⟨" a", "# a"⟩] ∧
      QueueCall.leftAll {} mixedCalls = ⟨[.blankLines 2, .comment ⟨" b", "# b"⟩], 1⟩ ∧
      (QueueCall.takeOnly .pair).run ⟨[.blankLines 2, .comment ⟨" b", "# b"⟩], 1⟩ =
        (.error (.severalComments .pair), ⟨[.blankLines 2, .comment ⟨" b", "# b"⟩], 1⟩) :=
  have few : mixedCalls.count .newline < CommentQueue.blankLineLimit := by decide
  ⟨few, by decide, by decide,
    ((queue_lossless few).2.1 .pair (.severalComments .pair) _).mpr ⟨by decide, rfl, rfl⟩⟩

end TomlSemantics
