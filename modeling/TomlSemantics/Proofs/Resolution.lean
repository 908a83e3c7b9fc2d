import TomlSemantics.Proofs.Container

/-!
# Tables beside arrays of tables

The header of a table and that of an array of tables spell the same names, but look for their place
each on its own: a table goes into an array that is still open, and the other header opens arrays
again first that the set has.

1. `Scope.Headed.placed_eq_iff`: when both find one place.
2. `Outline.Regular.feed_table`: where the header of a table goes that is read.
3. `table_placed_iff`: when both headers go to one place, after any lines.
-/

namespace TomlSemantics

variable {o : Options} {root array placed : Name} {path : List String} {keys keys' : KeySet}
  {count index : Nat} {out : Outline} {scopes outer : List Scope} {ends : String → Prop}

namespace Scope

/-- A table with the name of an array goes into the element that the array would go into, just if
no array around that was opened again by the header. -/
theorem Headed.placed_eq_iff
    (h : Headed ends (OpenAt keys count) keys root (root.join path) index outer array)
    (few : count ≤ ElementIndex.limit) (plain : Plain path) (nested : Nested root scopes)
    (entered : enter keys' root (root.join path) scopes = .ok (⟨root.join path, index⟩ :: outer))
    (ok : placeHeader root (root.join path) scopes = .ok placed) :
    array = placed ↔ ∀ scope ∈ outer, scope ∈ scopes := by
  induction scopes with
  | nil =>
    cases ok
    rw [h.array_eq_iff few plain, List.eq_nil_iff_forall_not_mem]
    exact forall₂_congr fun _ _ => iff_of_eq (by simp)
  | cons scope rest ih =>
    rw [enter] at entered
    rw [placeHeader, place] at ok
    split at ok
    -- No table is placed at the name of an open array.
    · cases ok
    · next other =>
      rw [if_neg (Ne.symm other)] at entered
      cases relative : (root.join path).relativeTo scope.name with
      | some later =>
        have at_ := Name.relativeTo_eq_some_iff.mp relative
        have inside : (root.join path).isBelow scope.name = true := by
          refine Name.isBelow_iff.mpr ⟨later, ?_, at_⟩
          rintro rfl
          exact other (at_.trans scope.name.join_nil)
        -- The innermost open array above the name: the header opens the array in its element.
        rw [if_pos inside] at entered
        obtain rfl := eq_of_begin entered
        obtain ⟨rest', enclosing, -, at', found, rfl⟩ := h.seated
        have same : rest' = later := Name.join_inj.mp (at'.symm.trans at_)
        rw [relative, found] at ok
        cases ok
        exact iff_of_true (same ▸ rfl) fun _ member => member
      | none =>
        have outside : ¬ (root.join path).isBelow scope.name = true := by
          intro inside
          obtain ⟨later, -, at_⟩ := Name.isBelow_iff.mp inside
          rw [Name.relativeTo_eq_some_iff.mpr at_] at relative
          cases relative
        rw [if_neg outside] at entered
        rw [relative] at ok
        rw [ih nested.2 entered ok]
        -- The array is closed, so it is none of those around the name.
        have closed : scope ∉ outer := fun member =>
          outside (Name.isBelow_of_isBelow_of_isWithin h.seated.isBelow_base
            (h.standing.nested.isWithin_of_mem member))
        refine forall₂_congr fun next member => ?_
        rw [List.mem_cons, or_iff_right]
        rintro rfl
        exact closed member

end Scope

variable {s : State} {key : KeyPath} {c : Option String}

/-- The header of a table that is read opens the table at its place. -/
theorem Outline.Regular.feed_table (h : out.Regular o count) (left : out.Left o s)
    (none : s.fault = none) (spells : key.Spells) (c : Option String) (number : Nat)
    (accepted : (s.feedAll o ((Line.table key c).events number)).fault = .none) :
    Scope.placeHeader o.root (o.root.join key.path) out.scopes =
      .ok (s.feedAll o ((Line.table key c).events number)).scopeName := by
  obtain ⟨out', ok, left'⟩ := (left.reflects_line none rfl number).exists_ok accepted
  obtain ⟨run, comments⟩ := h.comments
  have named : (Line.table key c).parts.Named :=
    List.forall_mem_singleton.mpr ⟨spells.nonempty, spells.plain⟩
  obtain ⟨-, name, place, adds⟩ := Line.assembleTable_adds h.standing.nested named comments ok
  rw [place, left'.scopeName_eq]
  rw [Outline.base, adds.follows.table]

/-- A table goes to the place of the array of tables with the same name, just if the header of the
array opens none again that was not open. -/
theorem table_placed_iff {done : List Line} (h : Document.Spelled done) (o : Options)
    (small : o.maxArrayElements < ElementIndex.limit) {key : KeyPath} (spells : key.Spells)
    (c c' : Option String) (number : Nat) :
    let s := Document.stateAfter o done
    let table := s.feedAll o ((Line.table key c).events number)
    let array := s.feedAll o ((Line.tableArray key c').events number)
    table.fault = none → array.fault = none →
      (array.scopeName.parent = some table.scopeName ↔
        ∀ scope ∈ array.scopes.tail, scope ∈ s.scopes) := by
  intro s table array read read'
  have none : s.fault = none := State.fault_of_feedAll read
  obtain ⟨out, ok, -⟩ := (Document.reflects_lines h.numbered o ∅).exists_ok none
  obtain ⟨regular, left, -⟩ := h.outline small ok
  have free : ¬ out.sheet.keys.Taken (o.root.join key.path) := by
    intro taken
    obtain ⟨⟨location, stopped⟩, -⟩ := left.header_stops none spells taken c' number
    exact nomatch read'.symm.trans stopped
  obtain ⟨-, out', run, index, outer, name, left', opens, heads⟩ :=
    regular.feed_header left none spells free c' number
  obtain ⟨scopeName, around⟩ := left'.scopeName_heads opens heads
  have placed := regular.feed_table left none spells c number read
  obtain ⟨-, -, -, scopes⟩ := left.openNames_eq
  have around : array.scopes.tail = outer := congrArg List.tail around
  have scopes : s.scopes = out.scopes := scopes
  have scopeName : array.scopeName = name.child _ := scopeName
  rw [around, scopes, scopeName, Name.parent_child, Option.some_inj]
  exact opens.placed_eq_iff (Nat.le_of_lt h.few) spells.plain regular.standing.nested heads.enter
    placed

/-- An array of tables that is open. -/
def openLines : List Line := [.tableArray (.ofDotted "a") none]

theorem openLines_spelled : Document.Spelled openLines :=
  ⟨by decide, by unfold Parts.Named Plain; decide, by decide⟩

theorem openKey_spells : KeyPath.Spells (.ofDotted "a.c") :=
  KeyPath.IsBare.spells (by unfold KeyPath.IsBare; decide)

theorem table_placed_iff_open :
    let s := Document.stateAfter {} openLines
    let table := s.feedAll {} ((Line.table (.ofDotted "a.c") none).events 2)
    let array := s.feedAll {} ((Line.tableArray (.ofDotted "a.c") none).events 2)
    Document.Spelled openLines ∧ ({} : Options).maxArrayElements < ElementIndex.limit ∧
      KeyPath.Spells (.ofDotted "a.c") ∧ table.fault = none ∧ array.fault = none ∧
      array.scopeName.parent = some table.scopeName :=
  ⟨openLines_spelled, by decide, openKey_spells, by decide, by decide,
    (table_placed_iff openLines_spelled {} (by decide) openKey_spells none none 2 (by decide)
      (by decide)).mpr (by decide)⟩

/-- Another array in between closes the first. The table does not go into its element any more, but
the array of tables does. -/
theorem table_placed_outside :
    let lines := openLines ++ [.tableArray (.ofDotted "b") none]
    let table := Line.table (.ofDotted "a.c") none
    let array := Line.tableArray (.ofDotted "a.c") none
    let s := Document.stateAfter {} lines
    (parse {} (Document.events (lines ++ [table]))).toBool = true ∧
      (parse {} (Document.events (lines ++ [array]))).toBool = true ∧
      (s.feedAll {} (table.events 3)).scopeName = ({} : Options).root.join ["a", "c"] ∧
      (s.feedAll {} (array.events 3)).scopeName.parent =
        some (({} : Options).root.join ["a", "#0", "c"]) := by
  decide

end TomlSemantics
