import TomlSemantics.Proofs.Scope
import TomlSemantics.Proofs.Stem

/-!
# Where the open arrays stand

Every open array of tables has a place inside of the current element of the array around it, and
stands at one of its elements. What is known of an array and the element that it stands at is a
relation here: that the set notes the element, or less.

1. `HeaderPath`: a path down to an array of tables. `Scope.Seated`: where the array with a name is.
2. `Scope.Standing`: what is known of every open array.
3. `Scope.Headed`: what is known of an array that a header opens. `Standing.enter_eq_ok`: every
   header opens one.
-/

namespace TomlSemantics

variable {ends : String → Prop} {root name : Name} {path : List String} {keys : KeySet}

/-! ## Names of arrays of tables -/

/-- The last segment is of a kind. -/
def Name.EndsIn (ends : String → Prop) (n : Name) : Prop := ∃ s, n.base = some s ∧ ends s

/-- A path down to an array of tables: it is not empty, no segment names an element, and the last
one is of a kind. -/
structure HeaderPath (ends : String → Prop) (path : List String) : Prop where
  nonempty : path ≠ []
  plain : Plain path
  last : ∃ s, path.getLast? = some s ∧ ends s

theorem Name.base_join (n : Name) (h : path ≠ []) : (n.join path).base = path.getLast? := by
  rw [base, join, List.getLast?_append, List.getLast?_eq_some_getLast h]
  rfl

theorem HeaderPath.endsIn (h : HeaderPath ends path) (n : Name) : (n.join path).EndsIn ends := by
  obtain ⟨s, last, ends_⟩ := h.last
  exact ⟨s, (n.base_join h.nonempty).trans last, ends_⟩

/-- The path from a name on the way. -/
theorem HeaderPath.suffix {first later : List String} (h : HeaderPath ends (first ++ later))
    (nonempty : later ≠ []) : HeaderPath ends later := by
  obtain ⟨s, last, ends_⟩ := h.last
  rw [List.getLast?_append, List.getLast?_eq_some_getLast nonempty] at last
  refine ⟨nonempty, fun t member => h.plain t (List.mem_append_right _ member), s, ?_, ends_⟩
  rw [List.getLast?_eq_some_getLast nonempty]
  exact last

/-- Any path that is not empty will do where the last segment does not matter. -/
theorem HeaderPath.of_plain (nonempty : path ≠ []) (plain : Plain path) :
    HeaderPath (fun _ => True) path :=
  ⟨nonempty, plain, _, List.getLast?_eq_some_getLast nonempty, trivial⟩

namespace Scope

variable {stands : Name → Nat → Prop} {scopes outer : List Scope} {array : Name} {index : Nat}

/-! ## Places -/

/-- The array with a name lies along a path below the current element of the arrays around it. -/
def Seated (ends : String → Prop) (root : Name) (outer : List Scope) (name array : Name) : Prop :=
  ∃ path enclosing, HeaderPath ends path ∧ name = (base root outer).join path ∧
    element root outer = .ok enclosing ∧ array = enclosing.join path

namespace Seated

theorem isBelow_base (h : Seated ends root outer name array) :
    name.isBelow (base root outer) = true := by
  obtain ⟨path, -, header, rfl, -, -⟩ := h
  exact Name.isBelow_join _ header.nonempty

theorem element_eq (h : Seated ends root outer name array) (index : Nat) :
    element root (⟨name, index⟩ :: outer) = .ok (array.child (ElementIndex.segment index)) := by
  obtain ⟨path, enclosing, -, at_, found, rfl⟩ := h
  exact element_cons found at_

theorem container_eq (h : Seated ends root outer name array) :
    container root outer name = .ok array := by
  obtain ⟨path, enclosing, -, at_, found, rfl⟩ := h
  have relative : name.relativeTo (base root outer) = some path :=
    Name.relativeTo_eq_some_iff.mpr at_
  simp only [container, found, relative]
  rfl

/-- The name of the array ends as its header does, and lies below the root. -/
theorem array_spec (h : Seated ends root outer name array) (nested : Nested root outer) :
    array.stem = array ∧ array.EndsIn ends ∧ array.isBelow root = true := by
  obtain ⟨path, enclosing, header, -, found, rfl⟩ := h
  obtain ⟨front, at_⟩ := nested.element_eq_ok
  rw [found] at at_
  cases at_
  refine ⟨Name.stem_join _ header.nonempty header.plain, header.endsIn _, ?_⟩
  exact Name.isBelow_of_isBelow_of_isWithin (Name.isBelow_join _ header.nonempty)
    (Name.isWithin_join root front)

/-- The arrays around it lie above the array. -/
theorem ne_of_isBelow_element {n enclosing : Name} (h : Seated ends root outer name array)
    (found : element root outer = .ok enclosing) (above : enclosing.isBelow n = true) :
    n ≠ array := by
  obtain ⟨path, enclosing', -, -, found', rfl⟩ := h
  rw [found] at found'
  cases found'
  rintro rfl
  exact Name.not_isWithin_of_isBelow above (Name.isWithin_join enclosing path)

end Seated

/-! ## Open arrays -/

/-- The open arrays lie in each other, along paths of arrays of tables, and of each it is known
where it stands. -/
def Standing (ends : String → Prop) (stands : Name → Nat → Prop) (root : Name) : List Scope → Prop
  | [] => True
  | scope :: outer =>
      (∃ array, Seated ends root outer scope.name array ∧ stands array scope.index) ∧
      Standing ends stands root outer

theorem standing_nil : Standing ends stands root [] := trivial

theorem Standing.nested (h : Standing ends stands root scopes) : Nested root scopes := by
  induction scopes with
  | nil => trivial
  | cons scope outer ih =>
    obtain ⟨⟨array, seated, -⟩, inner⟩ := h
    exact ⟨seated.isBelow_base, ih inner⟩

/-- Only the arrays above the current element matter. -/
theorem Standing.imp {stands' : Name → Nat → Prop} {current : Name}
    (h : Standing ends stands root scopes) (at_ : element root scopes = .ok current)
    (keeps : ∀ n i, current.isBelow n = true → stands n i → stands' n i) :
    Standing ends stands' root scopes := by
  induction scopes generalizing current with
  | nil => trivial
  | cons scope outer ih =>
    obtain ⟨⟨array, seated, known⟩, inner⟩ := h
    rw [seated.element_eq] at at_
    cases at_
    have below : (array.child (ElementIndex.segment scope.index)).isBelow array = true :=
      Name.isBelow_child _ _
    refine ⟨⟨array, seated, keeps _ _ below known⟩, ?_⟩
    obtain ⟨path, enclosing, -, -, found, rfl⟩ := seated
    refine ih inner found fun n i above => keeps n i (Name.isBelow_trans below ?_)
    exact Name.isBelow_of_isWithin_of_isBelow (Name.isWithin_join enclosing path) above

/-! ## Opening an element -/

/-- An array of tables that a header opened: the arrays around it, its place in them, and where it
stands. It is at the element after the one that is noted, or after the one that it stood at. -/
structure Headed (ends : String → Prop) (stands : Name → Nat → Prop) (keys : KeySet)
    (root name : Name) (index : Nat) (outer : List Scope) (array : Name) : Prop where
  standing : Standing ends stands root outer
  seated : Seated ends root outer name array
  next : index = ((lastElement keys array).map (· + 1)).getD 0 ∨
    ∃ i, stands array i ∧ index = i + 1

/-- The array stands where its header left it. -/
theorem Headed.standing_cons {stands' : Name → Nat → Prop}
    (h : Headed ends stands keys root name index outer array) (own : stands' array index)
    (others : ∀ n i, n ≠ array → stands n i → stands' n i) :
    Standing ends stands' root (⟨name, index⟩ :: outer) := by
  obtain ⟨path, found⟩ := h.standing.nested.element_eq_ok
  refine ⟨⟨array, h.seated, own⟩, h.standing.imp found fun n i above => others n i ?_⟩
  exact h.seated.ne_of_isBelow_element found above

theorem Standing.begin_eq_ok (h : Standing ends stands root scopes) (header : HeaderPath ends path)
    (at_ : name = (base root scopes).join path) (keys : KeySet) :
    ∃ index array, begin keys root scopes name = .ok (⟨name, index⟩ :: scopes) ∧
      Headed ends stands keys root name index scopes array := by
  obtain ⟨enclosing, found, array⟩ := h.nested.container_eq_ok at_
  rw [begin_eq, array]
  exact ⟨_, _, rfl, h, ⟨path, enclosing, header, at_, found, rfl⟩, .inl rfl⟩

/-- What is noted tells where an array stands that is opened again. -/
def Reopens (ends : String → Prop) (stands : Name → Nat → Prop) (keys : KeySet) : Prop :=
  ∀ n i, lastElement keys n = some i → stands n i ∧ ∀ s, n.base = some s → ends s

theorem Standing.reopen_eq_ok (h : Standing ends stands root scopes)
    (known : Reopens ends stands keys) (nonempty : path ≠ []) (plain : Plain path)
    (at_ : name = (base root scopes).join path) :
    reopen keys root scopes name = .ok scopes ∨
      ∃ index, reopen keys root scopes name = .ok (⟨name, index⟩ :: scopes) ∧
        Standing ends stands root (⟨name, index⟩ :: scopes) := by
  obtain ⟨enclosing, found, array⟩ := h.nested.container_eq_ok at_
  rw [reopen_of_container array]
  cases last : lastElement keys (enclosing.join path) with
  | none => exact .inl rfl
  | some index =>
    obtain ⟨own, ends_⟩ := known _ _ last
    have base := List.getLast?_eq_some_getLast nonempty
    refine .inr ⟨index, rfl, ⟨_, ⟨path, enclosing, ⟨nonempty, plain, _, base, ?_⟩, at_, found, rfl⟩,
      own⟩, h⟩
    exact ends_ _ ((Name.base_join _ nonempty).trans base)

/-- The rest of a path to a name below another on the way. -/
theorem exists_rest {between : Name} (within : between.isWithin root = true)
    (at_ : name = root.join path) (below : name.isBelow between = true) :
    ∃ first later, path = first ++ later ∧ later ≠ [] ∧ name = between.join later := by
  obtain ⟨first, rfl⟩ := Name.isWithin_iff.mp within
  obtain ⟨later, nonempty, same⟩ := Name.isBelow_iff.mp below
  rw [at_, Name.join_join, Name.join_inj] at same
  exact ⟨first, later, same, nonempty, by rw [at_, same, Name.join_join]⟩

/-- Opening arrays again, from the top down, leaves it known where they stand. -/
theorem Standing.foldlM_reopen (known : Reopens ends stands keys) (above : List Name)
    (h : Standing ends stands root scopes)
    (order : (base root scopes :: (above ++ [name])).Pairwise fun a b => b.isBelow a = true)
    (spelled : ∀ n ∈ above, ∃ path, n = root.join path ∧ Plain path) :
    ∃ result, above.foldlM (reopen keys root) scopes = .ok result ∧
      Standing ends stands root result ∧ name.isBelow (base root result) = true := by
  induction above generalizing scopes with
  | nil => exact ⟨scopes, rfl, h, List.rel_of_pairwise_cons order (by simp)⟩
  | cons first above ih =>
    obtain ⟨⟨path, at_, plain⟩, spelled⟩ := List.forall_mem_cons.mp spelled
    have below := List.rel_of_pairwise_cons order List.mem_cons_self
    obtain ⟨front, rest, parts, nonempty, at_⟩ := exists_rest h.nested.isWithin_base at_ below
    have plain : Plain rest := fun s member => plain s (parts ▸ List.mem_append_right _ member)
    rw [List.cons_append] at order
    rw [List.foldlM_cons]
    rcases h.reopen_eq_ok known nonempty plain at_ with same | ⟨index, opened, standing⟩
    · rw [same]
      refine ih h (order.sublist ?_) spelled
      exact (List.sublist_cons_self _ _).cons_cons _
    · rw [opened]
      exact ih standing order.of_cons spelled

theorem ancestors_spelled (root : Name) (plain : Plain path) :
    ∀ n ∈ ancestors root (root.join path), ∃ path, n = root.join path ∧ Plain path := by
  rw [ancestors_join]
  intro n member
  obtain ⟨k, -, rfl⟩ := List.mem_map.mp member
  exact ⟨path.take k, rfl, fun s inside => plain s (List.mem_of_mem_take inside)⟩

/-- A header opens its array at the next element, and it is known where the arrays around it
stand. -/
theorem Standing.enter_eq_ok (h : Standing ends stands root scopes)
    (known : Reopens ends stands keys) (header : HeaderPath ends path)
    (at_ : name = root.join path) :
    ∃ index outer array, enter keys root name scopes = .ok (⟨name, index⟩ :: outer) ∧
      Headed ends stands keys root name index outer array := by
  induction scopes with
  | nil =>
    -- Nothing is open: what lies above the name is opened again first.
    obtain ⟨result, opened, standing, below⟩ := Standing.foldlM_reopen known
      (ancestors root (root.join path)) (standing_nil : Standing ends stands root [])
      (pairwise_ancestors root header.nonempty) (ancestors_spelled root header.plain)
    obtain ⟨first, later, rfl, nonempty, rest⟩ :=
      exists_rest standing.nested.isWithin_base rfl below
    obtain ⟨index, array, began, headed⟩ :=
      standing.begin_eq_ok (header.suffix nonempty) (at_.trans rest) keys
    refine ⟨index, result, array, ?_, headed⟩
    rw [enter, at_, opened]
    rw [at_] at began
    exact began
  | cons scope outer ih =>
    rw [enter]
    split
    · next same =>
      obtain ⟨⟨array, seated, known⟩, inner⟩ := h
      refine ⟨scope.index + 1, outer, array, ?_, inner, same ▸ seated, .inr ⟨_, known, rfl⟩⟩
      rw [← same]
    · split
      · next inside =>
        obtain ⟨first, later, rfl, nonempty, rest⟩ :=
          exists_rest h.nested.isWithin_base at_ inside
        obtain ⟨index, array, began, headed⟩ :=
          h.begin_eq_ok (header.suffix nonempty) rest keys
        exact ⟨index, _, array, began, headed⟩
      · exact ih h.2

end Scope

end TomlSemantics
