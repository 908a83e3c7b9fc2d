import TomlSemantics.Builder.Scope
import TomlSemantics.Proofs.Name

/-!
# Open arrays of tables lie in each other

Each open array lies below the one around it, and the outermost below the root. So the current
element always has a name, and headers are placed and entered without fail.

1. `Scope.Nested`: the arrays lie in each other.
2. `Nested.enter_eq_ok`: a header below the root leaves them so, with its own array innermost.
-/

namespace TomlSemantics.Scope

variable {root name array : Name} {scopes outer : List Scope} {scope : Scope} {keys : KeySet}

/-- Each array lies below the one around it, the outermost below the root. -/
def Nested (root : Name) : List Scope → Prop
  | [] => True
  | scope :: outer => scope.name.isBelow (base root outer) = true ∧ Nested root outer

theorem Nested.isBelow_root (h : Nested root (scope :: outer)) :
    scope.name.isBelow root = true := by
  induction outer generalizing scope with
  | nil => exact h.1
  | cons next outer ih => exact Name.isBelow_trans h.1 (ih h.2)

theorem nested_nil : Nested root [] := trivial

theorem Nested.isWithin_base (h : Nested root scopes) : (base root scopes).isWithin root = true := by
  cases scopes with
  | nil => exact root.isWithin_refl
  | cons scope outer => exact Name.isWithin_of_isBelow h.isBelow_root

/-- Each array lies below all that are around it. -/
theorem Nested.pairwise (h : Nested root scopes) :
    scopes.Pairwise fun a b => a.name.isBelow b.name = true := by
  induction scopes with
  | nil => exact .nil
  | cons scope outer ih =>
    refine .cons ?_ (ih h.2)
    cases outer with
    | nil => exact nofun
    | cons next outer =>
      refine List.forall_mem_cons.mpr ⟨h.1, fun other inside => ?_⟩
      exact Name.isBelow_trans h.1 (List.rel_of_pairwise_cons (ih h.2) inside)

theorem Nested.isBelow_root_of_mem (h : Nested root scopes) (inside : scope ∈ scopes) :
    scope.name.isBelow root = true := by
  induction scopes with
  | nil => cases inside
  | cons first outer ih =>
    rcases List.mem_cons.mp inside with rfl | inside
    · exact h.isBelow_root
    · exact ih h.2 inside

theorem Nested.isWithin_of_mem (h : Nested root scopes) (inside : scope ∈ scopes) :
    (base root scopes).isWithin scope.name = true := by
  cases scopes with
  | nil => cases inside
  | cons first outer =>
    rcases List.mem_cons.mp inside with rfl | inside
    · exact Name.isWithin_refl _
    · exact Name.isWithin_of_isBelow (List.rel_of_pairwise_cons h.pairwise inside)

/-! ## Current elements -/

theorem element_cons {enclosing : Name} {path : List String}
    (h : element root outer = .ok enclosing) (at_ : scope.name = (base root outer).join path) :
    element root (scope :: outer) =
      .ok ((enclosing.join path).child (ElementIndex.segment scope.index)) := by
  have relative : scope.name.relativeTo (base root outer) = some path :=
    Name.relativeTo_eq_some_iff.mpr at_
  simp only [element, h, relative]
  rfl

/-- The current element has a name, below the root. -/
theorem Nested.element_eq_ok (h : Nested root scopes) :
    ∃ path, element root scopes = .ok (root.join path) := by
  induction scopes with
  | nil => exact ⟨[], by rw [Name.join_nil]; rfl⟩
  | cons scope outer ih =>
    obtain ⟨first, found⟩ := ih h.2
    obtain ⟨path, -, at_⟩ := Name.isBelow_iff.mp h.1
    refine ⟨first ++ path ++ [ElementIndex.segment scope.index], ?_⟩
    rw [element_cons found at_, Name.child_eq, Name.join_join, Name.join_join, List.append_assoc]

/-- The name of an array in the current element around it. -/
theorem Nested.container_eq_ok (h : Nested root scopes) {path : List String}
    (at_ : name = (base root scopes).join path) :
    ∃ enclosing, element root scopes = .ok enclosing ∧
      container root scopes name = .ok (enclosing.join path) := by
  obtain ⟨above, found⟩ := h.element_eq_ok
  have relative : name.relativeTo (base root scopes) = some path :=
    Name.relativeTo_eq_some_iff.mpr at_
  refine ⟨_, found, ?_⟩
  simp only [container, found, relative]
  rfl

/-- An array in the current element around it lies inside of the root. -/
theorem Nested.isWithin_container (h : Nested root scopes)
    (found : container root scopes name = .ok array) : array.isWithin root = true := by
  obtain ⟨enclosing, element, rest⟩ := exists_of_bind_eq_ok found
  obtain ⟨path, element'⟩ := h.element_eq_ok
  rw [element'] at element
  cases element
  split at rest
  · cases rest
    rw [Name.join_join]
    exact root.isWithin_join _
  · cases rest

/-- The current element lies directly below its array. -/
theorem Nested.element_child (h : Nested root (scope :: outer)) :
    ∃ array, container root outer scope.name = .ok array ∧
      element root (scope :: outer) = .ok (array.child (ElementIndex.segment scope.index)) := by
  obtain ⟨path, -, at_⟩ := Name.isBelow_iff.mp h.1
  obtain ⟨enclosing, found, array⟩ := Nested.container_eq_ok h.2 at_
  exact ⟨_, array, element_cons found at_⟩

/-! ## Opening an element -/

theorem begin_eq (keys : KeySet) (root : Name) (scopes : List Scope) (name : Name) :
    begin keys root scopes name = (do
      let array ← container root scopes name
      return ⟨name, ((lastElement keys array).map (· + 1)).getD 0⟩ :: scopes) := by
  simp only [begin]
  congr 1
  funext array
  cases lastElement keys array <;> rfl

theorem eq_of_begin {index : Nat} (ok : begin keys root scopes name = .ok (⟨name, index⟩ :: outer)) :
    outer = scopes := by
  rw [begin_eq] at ok
  obtain ⟨array, -, opened⟩ := exists_of_bind_eq_ok ok
  cases opened
  rfl

theorem Nested.begin_eq_ok (h : Nested root scopes) (below : name.isBelow (base root scopes) = true)
    (keys : KeySet) :
    ∃ index, begin keys root scopes name = .ok (⟨name, index⟩ :: scopes) := by
  obtain ⟨path, -, at_⟩ := Name.isBelow_iff.mp below
  obtain ⟨enclosing, -, found⟩ := h.container_eq_ok at_
  rw [begin_eq, found]
  exact ⟨_, rfl⟩

theorem reopen_of_container (h : container root scopes name = .ok array) :
    reopen keys root scopes name =
      .ok (((lastElement keys array).map fun index => ⟨name, index⟩).toList ++ scopes) := by
  simp only [reopen, h]
  cases last : lastElement keys array with
  | none => simp [bind, Except.bind, last]; rfl
  | some index => simp [bind, Except.bind, last]; rfl

theorem Nested.reopen_eq_ok (h : Nested root scopes) (below : name.isBelow (base root scopes) = true)
    (keys : KeySet) :
    reopen keys root scopes name = .ok scopes ∨
      ∃ index, reopen keys root scopes name = .ok (⟨name, index⟩ :: scopes) := by
  obtain ⟨path, -, at_⟩ := Name.isBelow_iff.mp below
  obtain ⟨enclosing, -, found⟩ := h.container_eq_ok at_
  rw [reopen_of_container found]
  cases lastElement keys (enclosing.join path) with
  | none => exact .inl rfl
  | some index => exact .inr ⟨index, rfl⟩

/-- The names between the root and a name, by their paths. -/
theorem ancestors_join (root : Name) (path : List String) :
    ancestors root (root.join path) =
      (List.range' 1 (path.length - 1)).map fun n => root.join (path.take n) := by
  have count : (root.join path).size - (root.size + 1) = path.length - 1 := by
    rw [Name.size_join]
    omega
  rw [ancestors, count, ← List.map_add_range', List.map_map]
  refine List.map_congr_left fun n _ => ?_
  have above : root.segments.take (root.segments.length + n) = root.segments :=
    List.take_of_length_le (Nat.le_add_right _ _)
  simp [Name.join, Name.size, List.take_append, above]

/-- Beginnings of one path lie below each other. -/
theorem isBelow_take (root : Name) {path : List String} {m n : Nat} (less : m < n)
    (most : n ≤ path.length) :
    (root.join (path.take n)).isBelow (root.join (path.take m)) = true := by
  have parts := List.take_append_drop m (path.take n)
  rw [List.take_take, Nat.min_eq_left (Nat.le_of_lt less)] at parts
  rw [← parts, ← Name.join_join]
  refine Name.isBelow_join _ fun none => ?_
  have length := congrArg List.length none
  rw [List.length_drop, List.length_take, List.length_nil] at length
  omega

/-- From the root down to a name, every name lies below those before it. -/
theorem pairwise_ancestors (root : Name) {path : List String} (nonempty : path ≠ []) :
    (root :: (ancestors root (root.join path) ++ [root.join path])).Pairwise
      fun a b => b.isBelow a = true := by
  obtain ⟨k, length⟩ := Nat.exists_eq_succ_of_ne_zero (mt List.length_eq_zero_iff.mp nonempty)
  have steps : root :: (ancestors root (root.join path) ++ [root.join path]) =
      (List.range (k + 2)).map fun n => root.join (path.take n) := by
    rw [ancestors_join, length, List.range_eq_range', List.range'_succ, List.range'_1_concat]
    simp [Nat.add_comm 1 k, List.take_of_length_le (Nat.le_of_eq length)]
  rw [steps, List.pairwise_map]
  refine List.Pairwise.imp_of_mem ?_ List.pairwise_lt_range
  intro m n _ upper less
  rw [List.mem_range] at upper
  exact isBelow_take root less (by omega)

/-- Opening arrays again, from the top down, leaves them nested, and all above the last. -/
theorem Nested.foldlM_reopen (keys : KeySet) (above : List Name) (h : Nested root scopes)
    (order : (base root scopes :: (above ++ [name])).Pairwise fun a b => b.isBelow a = true) :
    ∃ result, above.foldlM (reopen keys root) scopes = .ok result ∧ Nested root result ∧
      name.isBelow (base root result) = true := by
  induction above generalizing scopes with
  | nil => exact ⟨scopes, rfl, h, List.rel_of_pairwise_cons order (by simp)⟩
  | cons first above ih =>
    have below := List.rel_of_pairwise_cons order (List.mem_cons_self)
    rw [List.cons_append] at order
    rw [List.foldlM_cons]
    rcases h.reopen_eq_ok below keys with same | ⟨index, opened⟩
    · rw [same]
      refine ih h (order.sublist ?_)
      exact (List.sublist_cons_self _ _).cons_cons _
    · rw [opened]
      have nested : Nested root (⟨first, index⟩ :: scopes) := ⟨below, h⟩
      exact ih nested order.of_cons

theorem begin_ne_nil {result : List Scope} (h : begin keys root scopes name = .ok result) :
    result ≠ [] := by
  rw [begin_eq] at h
  obtain ⟨array, -, opened⟩ := exists_of_bind_eq_ok h
  cases opened
  exact List.cons_ne_nil _ _

/-- An array is open after its header. -/
theorem enter_ne_nil {result : List Scope} (h : enter keys root name scopes = .ok result) :
    result ≠ [] := by
  induction scopes with
  | nil =>
    obtain ⟨outer, -, began⟩ := exists_of_bind_eq_ok h
    exact begin_ne_nil began
  | cons scope outer ih =>
    rw [enter] at h
    split at h
    · cases h
      exact List.cons_ne_nil _ _
    · split at h
      · exact begin_ne_nil h
      · exact ih h

/-- A header below the root leaves the open arrays nested, its own array innermost. -/
theorem Nested.enter_eq_ok (h : Nested root scopes) (below : name.isBelow root = true)
    (keys : KeySet) :
    ∃ index outer, enter keys root name scopes = .ok (⟨name, index⟩ :: outer) ∧
      Nested root (⟨name, index⟩ :: outer) := by
  induction scopes with
  | nil =>
    obtain ⟨path, nonempty, rfl⟩ := Name.isBelow_iff.mp below
    obtain ⟨outer, opened, nested, inside⟩ :=
      Nested.foldlM_reopen keys _ nested_nil (pairwise_ancestors root nonempty)
    obtain ⟨index, began⟩ := nested.begin_eq_ok inside keys
    refine ⟨index, outer, ?_, inside, nested⟩
    rw [enter, opened]
    exact began
  | cons scope outer ih =>
    rw [enter]
    split
    · next same =>
      subst same
      exact ⟨scope.index + 1, outer, rfl, h⟩
    · split
      · next inside =>
        obtain ⟨index, began⟩ := h.begin_eq_ok inside keys
        exact ⟨index, scope :: outer, began, inside, h⟩
      · exact ih h.2

/-- A header always has a place. -/
theorem Nested.place_eq_ok (h : Nested root scopes) (name : Name) :
    ∃ placement, place root name scopes = .ok placement := by
  induction scopes with
  | nil => exact ⟨_, rfl⟩
  | cons scope outer ih =>
    unfold place
    split
    · exact ⟨_, rfl⟩
    · split
      · obtain ⟨path, found⟩ := h.element_eq_ok
        rw [found]
        exact ⟨_, rfl⟩
      · exact ih h.2

/-- The place in the current element of an open array lies inside of the root. -/
theorem Nested.isWithin_of_place {placed : Name} (h : Nested root scopes)
    (found : place root name scopes = .ok (.inside placed)) : placed.isWithin root = true := by
  induction scopes with
  | nil => cases found
  | cons scope outer ih =>
    unfold place at found
    split at found
    · cases found
    · split at found
      · obtain ⟨path, element⟩ := h.element_eq_ok
        rw [element] at found
        cases found
        rw [Name.join_join]
        exact root.isWithin_join _
      · exact ih h.2 found

end TomlSemantics.Scope
