import TomlSemantics.Proofs.Reentry
import TomlSemantics.Proofs.Regular

/-!
# The key that a header of an array of tables goes to

The header of an array of tables names the array without the elements around it. Another key with
that name makes the header a fault. But the elements go below the array in its place, inside of the
current elements around it, and whatever key stands there is taken for the array.

1. `Scope.Headed.array_eq_iff`: both are one key just if no array of tables is around.
2. `Outline.Left.header_stops`, `Outline.Regular.feed_header`: headers that are refused, or read.
3. `header_refused_or_opens`: which headers are refused, and what the others do to the key in their
   place.
-/

namespace TomlSemantics

variable {o : Options} {root array : Name} {path : List String} {keys : KeySet} {count index : Nat}
  {out out' : Outline} {outer : List Scope} {ends : String → Prop}

/-! ## Names and places -/

/-- No document spells the name of an element. -/
theorem Scope.Standing.not_plain {scope : Scope}
    (h : Standing ends (OpenAt keys count) root (scope :: outer)) (few : count ≤ ElementIndex.limit)
    (found : element root (scope :: outer) = .ok (root.join path)) : ¬ Plain path := by
  obtain ⟨⟨array, seated, stands⟩, inner⟩ := h
  obtain ⟨-, -, below⟩ := seated.array_spec inner.nested
  obtain ⟨front, -, rfl⟩ := Name.isBelow_iff.mp below
  rw [seated.element_eq, Name.child_eq, Name.join_join] at found
  have same := Name.join_inj.mp (Except.ok.inj found)
  intro plain
  have none := plain (ElementIndex.segment scope.index) (same ▸ by simp)
  rw [ElementIndex.ofSegment_segment (Nat.lt_of_lt_of_le stands.few few)] at none
  cases none

/-- The array has the name of its header just if no array is around it. -/
theorem Scope.Headed.array_eq_iff
    (h : Headed ends (OpenAt keys count) keys root (root.join path) index outer array)
    (few : count ≤ ElementIndex.limit) (plain : Plain path) :
    array = root.join path ↔ outer = [] := by
  obtain ⟨rest, enclosing, -, at_, found, rfl⟩ := h.seated
  constructor
  · intro same
    cases outer with
    | nil => rfl
    | cons scope outer =>
      obtain ⟨front, at_front⟩ := h.standing.nested.element_eq_ok
      rw [found] at at_front
      cases at_front
      rw [Name.join_join, Name.join_inj] at same
      have inner : Plain front := fun s member => plain s (same ▸ List.mem_append_left _ member)
      exact absurd inner (h.standing.not_plain few found)
  · rintro rfl
    cases found
    exact at_.symm

/-! ## Headers after any lines -/

variable {s : State} {key : KeyPath} {c : Option String}

/-- A header that names another key stops there, and the set stays as it is. -/
theorem Outline.Left.header_stops (left : out.Left o s) (none : s.fault = none)
    (spells : key.Spells) (taken : out.sheet.keys.Taken (o.root.join key.path)) (c : Option String)
    (number : Nat) :
    let s' := s.feedAll o ((Line.tableArray key c).events number)
    (∃ location, s'.fault = some ⟨.duplicateName (o.root.join key.path), location⟩) ∧
      s'.keys = s.keys := by
  have root := Name.ne_of_isBelow_of_isWithin (Name.isBelow_join o.root spells.header.nonempty)
    o.root.isWithin_refl
  have refused : Builder.isFree o out.sheet.keys (o.root.join key.path) = false := by
    refine Bool.eq_false_of_not_eq_true fun free => ?_
    exact (isFree_iff.mp free).resolve_right root taken
  obtain ⟨s', stopped, same⟩ := Builder.tableArray_line_stops left
    (KeyPath.segments_eq spells.accepted) refused c number
  rw [State.feedAll_eq_feedUntilFault none, State.feedUntilFault_eq none, stopped]
  exact ⟨⟨_, rfl⟩, same.trans left.keys_eq.symm⟩

/-- Any other header is read, and opens the next element of its array. -/
theorem Outline.Regular.feed_header (h : out.Regular o count) (left : out.Left o s)
    (none : s.fault = none) (spells : key.Spells)
    (free : ¬ out.sheet.keys.Taken (o.root.join key.path)) (c : Option String) (number : Nat) :
    let s' := s.feedAll o ((Line.tableArray key c).events number)
    s'.fault = .none ∧ ∃ (out' : Outline) (run : List Remark) (index : Nat) (outer : List Scope)
      (array : Name), out'.Left o s' ∧
      out.Opens o count (o.root.join key.path) index outer array ∧
      out'.Heads o out (o.root.join key.path) run c index outer array := by
  have named : (Line.tableArray key c).parts.Named :=
    List.forall_mem_singleton.mpr ⟨spells.nonempty, spells.plain⟩
  have decides := h.header_decides named
  rw [isFree_unordered, isFree_iff] at decides
  cases ok : (Line.tableArray key c).assemble o out with
  | error cause =>
    rw [ok] at decides
    exact absurd ⟨spells.accepted, .inl free⟩ (decides trivial)
  | ok out' =>
    rw [ok] at decides
    obtain ⟨-, run, index, outer, array, opens, heads⟩ := decides
    obtain ⟨left', none'⟩ := left.feed_line none rfl ok number
    exact ⟨none', out', run, index, outer, array, left', opens, heads⟩

/-- The element is open after its header, innermost. -/
theorem Outline.Left.scopeName_heads {name : Name} {run : List Remark} (left : out'.Left o s)
    (opens : out.Opens o count name index outer array)
    (heads : out'.Heads o out name run c index outer array) :
    s.scopeName = array.child (ElementIndex.segment index) ∧ s.scopes = ⟨name, index⟩ :: outer := by
  obtain ⟨-, -, -, scopes⟩ := left.openNames_eq
  refine ⟨left.scopeName_eq ?_, scopes.trans heads.scopes⟩
  rw [Outline.base, heads.table, heads.scopes]
  exact opens.seated.element_eq index

/-- What stands in the place of the array is taken for it: another key notes the element, and if
there is none, the element is new. -/
theorem Outline.Regular.container_heads {name : Name} {run : List Remark} (h : out.Regular o count)
    (few : count < ElementIndex.limit) (opens : out.Opens o count name index outer array)
    (heads : out'.Heads o out name run c index outer array) :
    (out'.sheet.keys.lookup array).bind Key.arrayMarker = some (ElementIndex.segment index) ∧
    (out.sheet.keys.Taken array → out'.sheet.keys.Taken array) ∧
    (¬ out.sheet.keys.Taken array →
      out.sheet.keys.lookup (array.child (ElementIndex.segment index)) = none) := by
  obtain ⟨plain, -, -⟩ := opens.seated.array_spec opens.standing.nested
  have next := opens.nextElement h.contiguous
  have limit := Nat.lt_of_le_of_lt next.few few
  obtain ⟨-, apart⟩ := Name.stem_element plain limit rfl
  refine ⟨?_, fun taken => ?_, fun free => ?_⟩
  · have same : (out'.sheet.keys.lookup array).bind Key.arrayMarker =
        (out'.sheet.keys.unordered.lookup array).bind Key.arrayMarker := by
      rw [KeySet.lookup_unordered]
      cases out'.sheet.keys.lookup array <;> rfl
    rw [same, heads.keys, KeySet.lookup_append_of_ne _ apart, KeySet.lookup_noteElement_self]
    exact Key.arrayMarker_markLastElement _ index
  · rw [← KeySet.taken_unordered_iff, heads.keys]
    exact (KeySet.taken_unordered_iff.mpr taken).element rfl
  · have none := (h.contiguous.lookup_child_iff plain next
      (KeySet.taken_unordered_iff.not.mpr free) limit).not.mpr (Nat.lt_irrefl index)
    exact KeySet.lookup_unordered_eq_none_iff.mp (Decidable.not_not.mp none)

/-- The header of an array of tables is refused just if another key has the name that it spells.
Else it opens an element of the array in its place, which is that name just if no array is around,
and that array notes the element. Another key that stands in its place is not refused: it stays what
it is. And if there is none, the element is new. -/
theorem header_refused_or_opens {done : List Line} (h : Document.Spelled done) (o : Options)
    (small : o.maxArrayElements < ElementIndex.limit) {key : KeyPath} (spells : key.Spells)
    (c : Option String) (number : Nat) (none : (Document.stateAfter o done).fault = none) :
    let s := Document.stateAfter o done
    let s' := s.feedAll o ((Line.tableArray key c).events number)
    let name := o.root.join key.path
    (s.keys.Taken name →
      (∃ location, s'.fault = some ⟨.duplicateName name, location⟩) ∧ s'.keys = s.keys) ∧
    (¬ s.keys.Taken name → s'.fault = .none ∧ ∃ array index,
      Scope.container o.root s'.scopes.tail name = .ok array ∧
      s'.scopeName = array.child (ElementIndex.segment index) ∧
      (array = name ↔ s'.scopes.tail = []) ∧
      (s'.keys.lookup array).bind Key.arrayMarker = some (ElementIndex.segment index) ∧
      (s.keys.Taken array → s'.keys.Taken array) ∧
      (¬ s.keys.Taken array → s.keys.lookup s'.scopeName = .none)) := by
  obtain ⟨out, ok, -⟩ := (Document.reflects_lines h.numbered o ∅).exists_ok none
  obtain ⟨regular, left, -⟩ := h.outline small ok
  intro s s' name
  rw [left.keys_eq]
  refine ⟨fun taken => ?_, fun free => ?_⟩
  · obtain ⟨stopped, same⟩ := left.header_stops none spells taken c number
    exact ⟨stopped, same.trans left.keys_eq⟩
  · obtain ⟨none', out', run, index, outer, array, left', opens, heads⟩ :=
      regular.feed_header left none spells free c number
    obtain ⟨scopeName, scopes⟩ := left'.scopeName_heads opens heads
    have scopes : s'.scopes.tail = outer := congrArg List.tail scopes
    have keys : s'.keys = out'.sheet.keys := left'.keys_eq
    obtain ⟨noted, taken, new⟩ := regular.container_heads h.few opens heads
    refine ⟨none', array, index, ?_⟩
    have alone := opens.array_eq_iff (Nat.le_of_lt h.few) spells.plain
    rw [scopes, keys]
    exact ⟨opens.seated.container_eq, scopeName, alone, noted, taken, fun free =>
      scopeName ▸ new free⟩

/-- An array of tables with a value in its element, which is an array of numbers. -/
def filledLines : List Line :=
  [.tableArray (.ofDotted "a") none,
    .pair (.ofDotted "b") (.array [.value (.scalar (.verbatim .decimal "1")),
      .value (.scalar (.verbatim .decimal "2"))]) none]

theorem filledLines_spelled : Document.Spelled filledLines :=
  ⟨by decide, by unfold Parts.Named Plain; decide, by decide⟩

theorem filledKey_spells : KeyPath.Spells (.ofDotted "a.b") :=
  KeyPath.IsBare.spells (by unfold KeyPath.IsBare; decide)

theorem header_refused_or_opens_filled :
    let s := Document.stateAfter {} filledLines
    let s' := s.feedAll {} ((Line.tableArray (.ofDotted "a.b") none).events 3)
    let name := ({} : Options).root.join (KeyPath.path (.ofDotted "a.b"))
    Document.Spelled filledLines ∧ ({} : Options).maxArrayElements < ElementIndex.limit ∧
      KeyPath.Spells (.ofDotted "a.b") ∧ s.fault = none ∧ ¬ s.keys.Taken name ∧
      s'.fault = none ∧ ∃ array index,
        Scope.container ({} : Options).root s'.scopes.tail name = .ok array ∧
        s'.scopeName = array.child (ElementIndex.segment index) ∧ array ≠ name ∧
        (s'.keys.lookup array).bind Key.arrayMarker = some (ElementIndex.segment index) ∧
        (s.keys.Taken array → s'.keys.Taken array) := by
  have none : (Document.stateAfter {} filledLines).fault = none := by decide
  have free : ¬ (Document.stateAfter {} filledLines).keys.Taken
      (({} : Options).root.join (KeyPath.path (.ofDotted "a.b"))) := by
    rw [KeySet.not_taken_iff]
    have absent : (Document.stateAfter {} filledLines).keys.lookup
      (({} : Options).root.join (KeyPath.path (.ofDotted "a.b"))) = .none := by decide
    rw [absent]
    exact nofun
  obtain ⟨none', array, index, container, scopeName, alone, noted, taken, -⟩ :=
    (header_refused_or_opens filledLines_spelled {} (by decide) filledKey_spells .none 3 none).2 free
  exact ⟨filledLines_spelled, by decide, filledKey_spells, none, free, none', array, index,
    container, scopeName, alone.not.mpr (by decide), noted, taken⟩

/-- The header `[[a.b]]` goes to the array of numbers, which notes the element in place of its last
one, and the key of the first number is that of the element. -/
theorem array_opened_by_header :
    let header := Line.tableArray (.ofDotted "a.b") none
    let s := Document.stateAfter {} filledLines
    let s' := s.feedAll {} (header.events 3)
    let array := ({} : Options).root.join ["a", "#0", "b"]
    (s.keys.lookup array).map (fun k => (k.isTableArray, k.arrayMarker)) = some (false, some "#1") ∧
      (s.keys.lookup (array.child "#0")).isSome = true ∧
      (parse {} (Document.events (filledLines ++ [header]))).toBool = true ∧
      s'.scopeName = array.child "#0" ∧
      (s'.keys.lookup array).map (fun k => (k.isTableArray, k.arrayMarker)) =
        some (false, some "#0") := by
  decide

end TomlSemantics
