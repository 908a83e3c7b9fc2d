import TomlSemantics.Proofs.Balance
import TomlSemantics.Proofs.Regular

/-!
# Names that are given again

A pair or the header of a table may not give a name that another key has. But it may give that of an
array of tables, which is no array of tables after that: headers of arrays name one again and again,
and the check does not ask what kind of line it is for.

1. `KeySet.Grows`: what happens to the arrays of tables of a set whose names are given or not.
   `Outline.Regular.grows`: what a line does to them, `Document.grows`: and any number of lines.
2. `Outline.Regular.not_redefines`: lines that are read give no name of another key.
3. `refused_or_taken`: which names cannot be given again, and which arrays of tables are kept.
-/

namespace TomlSemantics

variable {o : Options} {keys keys' keys'' : KeySet} {count : Nat} {out out' : Outline}
  {closed later : List Name} {line : Line}

/-! ## Growing sets -/

/-- Arrays of tables note the same element or a later one, unless their names are given. Those names
are taken by other keys, and names that are taken stay so. -/
structure KeySet.Grows (closed : List Name) (keys' keys : KeySet) : Prop where
  array : ∀ n m, Scope.lastElement keys n = some m → n ∉ closed →
    ∃ m', m ≤ m' ∧ Scope.lastElement keys' n = some m'
  taken : ∀ n, keys.Taken n ∨ n ∈ closed → keys'.Taken n

namespace KeySet.Grows

theorem refl (keys : KeySet) : Grows [] keys keys :=
  ⟨fun _ m noted _ => ⟨m, Nat.le_refl m, noted⟩,
    fun _ taken => taken.resolve_right List.not_mem_nil⟩

theorem trans (first : Grows closed keys' keys) (next : Grows later keys'' keys') :
    Grows (closed ++ later) keys'' keys where
  array n m noted apart := by
    rw [List.mem_append, not_or] at apart
    obtain ⟨m', le, noted'⟩ := first.array n m noted apart.1
    obtain ⟨m'', le', noted''⟩ := next.array n m' noted' apart.2
    exact ⟨m'', Nat.le_trans le le', noted''⟩
  taken n given := by
    rcases given with taken | member
    · exact next.taken n (.inl (first.taken n (.inl taken)))
    · exact next.taken n ((List.mem_append.mp member).imp_left fun given =>
        first.taken n (.inr given))

end KeySet.Grows

/-- What a line does to the arrays of tables of the set. -/
theorem Outline.Regular.grows (h : out.Regular o count) (few : count < ElementIndex.limit)
    (effect : out'.Effect o count out closed) :
    KeySet.Grows closed out'.sheet.keys.unordered out.sheet.keys.unordered := by
  cases effect with
  | adds a table adds within =>
    rw [adds.follows.keys]
    refine ⟨fun n m noted apart => ⟨m, Nat.le_refl m, ?_⟩, fun n given => ?_⟩
    · -- An array of tables is spelled as a name that is given, and no other key is.
      have other := (adds.sits.mem_names_iff (h.contiguous.last noted).1 id).not.mpr apart
      rw [Scope.lastElement, KeySet.lookup_appendAll_of_not_mem other]
      exact noted
    · exact KeySet.taken_appendAll adds.sits.noTableArray (given.imp_right (adds.sits.given n))
  | heads name run c index outer array opens heads =>
    obtain ⟨plain, -, -⟩ := opens.seated.array_spec opens.standing.nested
    have next := opens.nextElement h.contiguous
    rw [heads.keys]
    refine ⟨fun n m noted _ => ⟨if n = array then index else m, ?_, ?_⟩, fun n given => ?_⟩
    · split
      · next same => exact next.noted m (same ▸ noted) ▸ Nat.le_succ m
      · exact Nat.le_refl m
    · exact h.contiguous.lastElement_element few plain next rfl noted
    · exact (given.resolve_right List.not_mem_nil).element rfl
  | take r same =>
    subst same
    exact .refl _

/-! ## Lines that give names again -/

/-- The line gives a name twice, or that of a key which is no array of tables. -/
def Line.Redefines (o : Options) (s : State) (line : Line) : Prop :=
  ¬ (line.closes o s).Nodup ∨ ∃ n ∈ line.closes o s, s.keys.Taken n

/-- A line that is read gives no name again, but for those of arrays of tables. -/
theorem Outline.Regular.not_redefines {s : State} (left : out.Left o s)
    (effect : out'.Effect o count out closed) (same : line.closes o s = closed) :
    ¬ line.Redefines o s := by
  rw [Line.Redefines, same]
  cases effect with
  | adds a table adds within =>
    rintro (twice | ⟨n, given, taken⟩)
    · exact twice adds.distinct
    · have free := adds.free n given
      rw [isFree_unordered, ← left.keys_eq, isFree_iff] at free
      obtain ⟨l, inside, rfl⟩ := List.mem_map.mp (adds.sits.given n given)
      have root := Name.ne_of_isBelow_of_isWithin (adds.sits.inside l inside) o.root.isWithin_refl
      exact free.resolve_right root taken
  | heads | take =>
    rintro (twice | ⟨n, given, -⟩)
    · exact twice List.nodup_nil
    · cases given

namespace Document

/-- The names that lines give to keys that are no arrays of tables, from a state on. -/
def closes (o : Options) : State → Nat → List Line → List Name
  | _, _, [] => []
  | s, before, line :: rest =>
      line.closes o s ++ closes o (s.feedAll o (line.events (before + 1))) (before + 1) rest

/-- What lines do to the arrays of tables of the set. -/
theorem grows (small : o.maxArrayElements < ElementIndex.limit) {lines : List Line}
    (numbered : ∀ line ∈ lines, line.isNumbered = true) (named : ∀ line ∈ lines, line.parts.Named)
    (before : Nat) {s : State} (left : out.Left o s) (none : s.fault = none)
    (h : out.Regular o count) (few : count + lines.length ≤ ElementIndex.limit)
    (ok : outline o lines out = .ok out') :
    KeySet.Grows (closes o s before lines) out'.sheet.keys.unordered out.sheet.keys.unordered := by
  induction lines generalizing out s count before with
  | nil =>
    cases ok
    exact .refl _
  | cons line rest ih =>
    obtain ⟨numbered₁, numbered⟩ := List.forall_mem_cons.mp numbered
    obtain ⟨named₁, named⟩ := List.forall_mem_cons.mp named
    rw [List.length_cons] at few
    obtain ⟨next, assembled, ok⟩ := exists_of_outline_cons ok
    obtain ⟨closed, effect, same⟩ := h.effect small numbered₁ named₁ assembled
    obtain ⟨left', none'⟩ := left.feed_line none numbered₁ assembled (before + 1)
    have regular := h.keep (by omega) effect
    have later := ih numbered named (before + 1) left' none' regular (by omega) ok
    rw [closes, same s left]
    exact (h.grows (by omega) effect).trans later

end Document

/-- A pair or the header of a table that gives the name of a key again, other than an array of
tables, is never read. -/
theorem not_read_of_redefines {done rest : List Line}
    (h : Document.Spelled (done ++ line :: rest)) (small : o.maxArrayElements < ElementIndex.limit)
    (again : line.Redefines o (Document.stateAfter o done)) :
    ∃ fault, parse o (Document.events (done ++ line :: rest)) = .error fault ∧
      (Document.Grammatical (done ++ [line]) → fault.cause.faultClass = .semantic) := by
  have member : line ∈ done ++ line :: rest := List.mem_append_right _ List.mem_cons_self
  cases first : Document.outline o (done ++ [line]) (.start ∅) with
  | ok final =>
    obtain ⟨out, before, first⟩ := Document.exists_of_outline_append first
    obtain ⟨out', assembled, -⟩ := Document.exists_of_outline_cons first
    obtain ⟨regular, left, -⟩ := h.of_append.outline small before
    obtain ⟨closed, effect, same⟩ :=
      regular.effect small (h.numbered line member) (h.named line member) assembled
    exact absurd again (Outline.Regular.not_redefines left effect (same _ left))
  | error cause =>
    have stopped : Document.outline o (done ++ line :: rest) (.start ∅) = .error cause := by
      rw [List.append_cons, Document.outline_append, first]
      rfl
    have assembled := parse_eq_assemble h.numbered o
    rw [Document.assemble, stopped] at assembled
    cases parsed : parse o (Document.events (done ++ line :: rest)) with
    | ok keys => rw [parsed] at assembled; cases assembled
    | error fault =>
      rw [parsed] at assembled
      refine ⟨fault, rfl, fun grammatical => ?_⟩
      have sound := grammatical.outline_sound (List.prefix_refl _) o ∅
      rw [first] at sound
      exact Except.error.inj assembled ▸ sound

/-- An array of tables is kept, with its element or a later one, just if no later line gives its
name. Otherwise another key has taken the name. -/
theorem kept_or_taken {done rest : List Line} (h : Document.Spelled (done ++ rest))
    (small : o.maxArrayElements < ElementIndex.limit)
    (parsed : parse o (Document.events (done ++ rest)) = .ok keys) {n : Name} {m : Nat}
    (noted : Scope.lastElement (Document.stateAfter o done).keys n = some m) :
    if n ∈ Document.closes o (Document.stateAfter o done) done.length rest then keys.Taken n
    else ∃ m', m ≤ m' ∧ Scope.lastElement keys n = some m' := by
  obtain ⟨final, ok, rfl⟩ := h.exists_outline parsed
  obtain ⟨out, before, after⟩ := Document.exists_of_outline_append ok
  obtain ⟨regular, left, none⟩ := h.of_append.outline small before
  have few := h.few
  rw [List.length_append] at few
  have grows := Document.grows small
    (fun line member => h.numbered line (List.mem_append_right _ member))
    (fun line member => h.named line (List.mem_append_right _ member)) done.length left none regular
    (by omega) after
  rw [left.keys_eq, ← Scope.lastElement_unordered] at noted
  obtain ⟨k, found, -⟩ := Scope.lastElement_of_isTableArray noted
  -- What waits in the end only changes the key of the root.
  have root := Name.ne_of_isBelow_of_isWithin (regular.contiguous.below n (found ▸ nofun))
    o.root.isWithin_refl
  rw [KeySet.Taken, Scope.lastElement, Outline.lookup_finish root, ← Scope.lastElement,
    ← Scope.lastElement_unordered]
  split
  · next given => exact KeySet.taken_unordered_iff.mp (grows.taken n (.inr given))
  · next apart => exact grows.array n m noted apart

/-- No line can give the name of a key again that is no array of tables. That of an array of tables
can be given again, and then it is kept no longer. -/
theorem refused_or_taken {done rest : List Line} (h : Document.Spelled (done ++ rest)) (o : Options)
    (small : o.maxArrayElements < ElementIndex.limit) :
    let s := Document.stateAfter o done
    let parsed := parse o (Document.events (done ++ rest))
    (∀ line later, rest = line :: later → line.Redefines o s →
      ∃ fault, parsed = .error fault ∧
        (Document.Grammatical (done ++ [line]) → fault.cause.faultClass = .semantic)) ∧
    ∀ keys, parsed = .ok keys → ∀ n m, Scope.lastElement s.keys n = some m →
      if n ∈ Document.closes o s done.length rest then keys.Taken n
      else ∃ m', m ≤ m' ∧ Scope.lastElement keys n = some m' := by
  refine ⟨fun line later rest_eq again => ?_, fun keys parsed n m noted =>
    kept_or_taken h small parsed noted⟩
  subst rest_eq
  exact not_read_of_redefines h small again

/-- Two arrays of tables. The header of a table has the name of the first, which is not open any
more. -/
def reclaimedLines : List Line :=
  [.tableArray (.ofDotted "a") none, .tableArray (.ofDotted "b") none] ++
    [.table (.ofDotted "a") none]

theorem reclaimedLines_spelled : Document.Spelled reclaimedLines :=
  ⟨by decide, by unfold Parts.Named Plain; decide, by decide⟩

theorem refused_or_taken_reclaimed :
    Document.Spelled reclaimedLines ∧ ({} : Options).maxArrayElements < ElementIndex.limit ∧
    Scope.lastElement (Document.stateAfter {} (reclaimedLines.take 2)).keys
      (({} : Options).root.join ["a"]) = some 0 ∧
    ∃ keys, parse {} (Document.events reclaimedLines) = .ok keys ∧
      keys.Taken (({} : Options).root.join ["a"]) := by
  have noted : Scope.lastElement (Document.stateAfter {} (reclaimedLines.take 2)).keys
      (({} : Options).root.join ["a"]) = some 0 := by decide
  refine ⟨reclaimedLines_spelled, by decide, noted, ?_⟩
  cases parsed : parse {} (Document.events reclaimedLines) with
  | ok keys =>
    obtain ⟨-, kept⟩ := refused_or_taken reclaimedLines_spelled {} (by decide)
    have taken := kept keys parsed _ 0 noted
    rw [if_pos (by decide)] at taken
    exact ⟨keys, rfl, taken⟩
  | error fault =>
    have read : (parse {} (Document.events reclaimedLines)).toBool = true := by decide
    rw [parsed] at read
    cases read

/-- A pair in a table around an array of tables takes its name, too. -/
theorem array_taken_by_pair :
    let before := [Line.tableArray (.ofDotted "x.b") none, .table (.ofDotted "x") none]
    let pair := Line.pair (.ofDotted "b") (.scalar (.verbatim .decimal "1")) none
    let s := Document.stateAfter {} before
    let name := ({} : Options).root.join ["x", "b"]
    (s.keys.lookup name).map Key.isTableArray = some true ∧ name ∈ pair.closes {} s ∧
      (parse {} (Document.events (before ++ [pair]))).toOption.bind
        (fun keys => (keys.lookup name).map Key.isTableArray) = some false := by
  decide

end TomlSemantics
