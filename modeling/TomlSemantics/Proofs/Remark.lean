import TomlSemantics.Proofs.Assembly

/-!
# Runs of comments and blank lines

Comments and blank lines that follow each other form a run. A queue that has read a run holds the
block that the run forms, and its first comment is the one that the run starts with.

1. `blockOf`, `inlineOf`, `afterInline`: a run as a block, and the comment that it starts with.
2. `contents_queueOf`, `takeFirst_queueOf`: the queue after a run.
-/

namespace TomlSemantics

/-- A comment or a blank line on a line of its own. -/
inductive Remark
  | comment (text : String)
  | blank
deriving DecidableEq, Repr

/-- The block that a run of comments and blank lines forms. Blank lines that follow each other are
counted. -/
def blockOf : List Remark → List BlockEntry
  | [] => []
  | .comment text :: rest => .comment (.marked text) :: blockOf rest
  | .blank :: rest =>
      match blockOf rest with
      | .blankLines n :: more => .blankLines (n + 1) :: more
      | more => .blankLines 1 :: more

/-- The comment that a run starts with, which stands on the line of the element before. -/
def inlineOf : List Remark → Option Comment
  | .comment text :: _ => some (.marked text)
  | _ => none

/-- A run without the comment that it starts with. -/
def afterInline : List Remark → List Remark
  | .comment _ :: rest => rest
  | run => run

/-! ## Queues -/

/-- A queue after a comment or blank line. -/
def CommentQueue.take (q : CommentQueue) : Remark → CommentQueue
  | .comment text => q.push (.marked text)
  | .blank => { q with blankLines := q.blankLines + 1 }

/-- The queue that has read a run. -/
def queueOf (run : List Remark) : CommentQueue := run.foldl CommentQueue.take {}

theorem queueOf_concat (run : List Remark) (r : Remark) :
    queueOf (run ++ [r]) = (queueOf run).take r := by
  simp [queueOf]

theorem CommentQueue.newline_eq (q : CommentQueue) :
    q.newline = if q.blankLines + 1 < blankLineLimit then .ok (q.take .blank)
      else .error .tooManyBlankLines := rfl

/-! ## The block of a run -/

theorem blockOf_blanks_comment (n : Nat) (text : String) (rest : List Remark) :
    blockOf (List.replicate n .blank ++ .comment text :: rest) =
      (if n = 0 then [] else [.blankLines n]) ++ .comment (.marked text) :: blockOf rest := by
  induction n with
  | zero => rfl
  | succ n ih =>
    rw [List.replicate_succ, List.cons_append, blockOf, ih]
    cases n <;> rfl

theorem blockOf_blanks (n : Nat) :
    blockOf (List.replicate n .blank) = if n = 0 then [] else [.blankLines n] := by
  induction n with
  | zero => rfl
  | succ n ih =>
    rw [List.replicate_succ, blockOf, ih]
    cases n <;> rfl

/-- The blank lines that a queue has counted belong to the run that it goes on to read. -/
theorem contents_foldl_take (run : List Remark) (q : CommentQueue) :
    (run.foldl CommentQueue.take q).contents =
      q.entries ++ blockOf (List.replicate q.blankLines .blank ++ run) := by
  induction run generalizing q with
  | nil =>
    rw [List.append_nil, blockOf_blanks, List.foldl_nil, CommentQueue.contents]
    split <;> simp
  | cons r run ih =>
    rw [List.foldl_cons, ih]
    cases r with
    | comment text =>
      rw [blockOf_blanks_comment]
      simp only [CommentQueue.take, CommentQueue.push, CommentQueue.contents]
      split <;> simp
    | blank =>
      have counted : List.replicate (q.blankLines + 1) Remark.blank ++ run =
          List.replicate q.blankLines .blank ++ .blank :: run := by
        rw [List.replicate_succ', List.append_assoc, List.singleton_append]
      rw [CommentQueue.take, counted]

/-- What waits after a run is the block of the run. -/
@[simp] theorem contents_queueOf (run : List Remark) : (queueOf run).contents = blockOf run :=
  contents_foldl_take run {}

/-! ## The first comment of a run -/

theorem foldl_take_append (run : List Remark) (entries : List BlockEntry) (q : CommentQueue) :
    run.foldl CommentQueue.take { q with entries := entries ++ q.entries } =
      { run.foldl CommentQueue.take q with
        entries := entries ++ (run.foldl CommentQueue.take q).entries } := by
  induction run generalizing q with
  | nil => rfl
  | cons r run ih =>
    rw [List.foldl_cons, List.foldl_cons, ← ih]
    congr 1
    cases r with
    | comment text =>
      simp only [CommentQueue.take, CommentQueue.push, CommentQueue.contents]
      split <;> simp
    | blank => rfl

theorem head?_blockOf_blank (run : List Remark) :
    ∃ n, (blockOf (.blank :: run)).head? = some (.blankLines n) := by
  unfold blockOf
  split
  · exact ⟨_, rfl⟩
  · exact ⟨_, rfl⟩

theorem head?_contents_of_takeFirst {q rest : CommentQueue} {c : Comment}
    (h : q.takeFirst = some (c, rest)) : q.contents.head? = some (.comment c) := by
  unfold CommentQueue.takeFirst at h
  split at h
  · next found =>
    cases h
    rw [CommentQueue.contents, found]
    split <;> rfl
  · cases h

/-- The comment that comes first is the one that the run starts with. -/
theorem takeFirst_queueOf (run : List Remark) :
    (queueOf run).takeFirst = (inlineOf run).map fun c => (c, queueOf (afterInline run)) := by
  cases run with
  | nil => rfl
  | cons r run =>
    cases r with
    | comment text =>
      have first : queueOf (.comment text :: run) =
          { queueOf run with entries := .comment (.marked text) :: (queueOf run).entries } :=
        foldl_take_append run [.comment (.marked text)] {}
      rw [first]
      rfl
    | blank =>
      cases taken : (queueOf (.blank :: run)).takeFirst with
      | none => rfl
      | some found =>
        obtain ⟨n, blanks⟩ := head?_blockOf_blank run
        have comment := head?_contents_of_takeFirst taken
        rw [contents_queueOf, blanks] at comment
        cases comment

/-! ## Runs without comments -/

theorem isEmpty_foldl_take (run : List Remark) (q : CommentQueue) :
    (run.foldl CommentQueue.take q).isEmpty = (q.isEmpty && run.all (· = .blank)) := by
  induction run generalizing q with
  | nil => simp
  | cons r run ih =>
    rw [List.foldl_cons, ih]
    cases r with
    | comment text => simp [CommentQueue.take, CommentQueue.push, CommentQueue.isEmpty]
    | blank => simp [CommentQueue.take, CommentQueue.isEmpty]

/-- No comment waits after blank lines. -/
theorem isEmpty_queueOf (run : List Remark) : (queueOf run).isEmpty = run.all (· = .blank) :=
  isEmpty_foldl_take run {}

end TomlSemantics
