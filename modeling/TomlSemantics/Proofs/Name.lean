import TomlSemantics.Name.Basic

/-!
# Names above and below each other

A name is below another if a path leads down to it, and strictly below if the path is not empty.
Paths from one name can be compared without it: `join_inj`.
-/

namespace TomlSemantics.Name

variable {n m a b : Name} {path first later : List String}

@[simp] theorem join_nil (n : Name) : n.join [] = n := by
  simp [join]

theorem join_join (n : Name) (first later : List String) :
    (n.join first).join later = n.join (first ++ later) := by
  simp [join]

theorem child_eq (n : Name) (segment : String) : n.child segment = n.join [segment] := rfl

@[simp] theorem size_join (n : Name) (path : List String) :
    (n.join path).size = n.size + path.length := by
  simp [join, size]

@[simp] theorem join_inj : n.join first = n.join later ↔ first = later := by
  simp [join]

/-- The names that lead to one place by the same path are one. -/
theorem join_left_inj : n.join path = m.join path ↔ n = m := by
  cases n
  cases m
  simp [join]

/-- Of two names that lead to one place, one is on the way from the other. -/
theorem join_eq_join (h : n.join first = m.join later) :
    (∃ path, m = n.join path ∧ first = path ++ later) ∨
      ∃ path, n = m.join path ∧ later = path ++ first := by
  rcases List.append_eq_append_iff.mp (congrArg segments h) with ⟨path, eq, rest⟩ | ⟨path, eq, rest⟩
  · exact .inl ⟨path, congrArg mk eq, rest⟩
  · exact .inr ⟨path, congrArg mk eq, rest⟩

theorem join_eq_self : n.join path = n ↔ path = [] := by
  rw [← join_inj (n := n), join_nil]

/-! ## Below -/

theorem isBelow_iff : n.isBelow a = true ↔ ∃ path, path ≠ [] ∧ n = a.join path := by
  rw [isBelow, Bool.and_eq_true, decide_eq_true_iff, isWithin_iff]
  constructor
  · rintro ⟨longer, path, rfl⟩
    refine ⟨path, ?_, rfl⟩
    rintro rfl
    simp at longer
  · rintro ⟨path, nonempty, rfl⟩
    refine ⟨?_, path, rfl⟩
    have := List.length_pos_iff.mpr nonempty
    simpa using this

theorem isBelow_join (n : Name) (h : path ≠ []) : (n.join path).isBelow n = true :=
  isBelow_iff.mpr ⟨path, h, rfl⟩

theorem isBelow_trans (h : n.isBelow m = true) (k : m.isBelow a = true) : n.isBelow a = true := by
  obtain ⟨later, nonempty, rfl⟩ := isBelow_iff.mp h
  obtain ⟨first, -, rfl⟩ := isBelow_iff.mp k
  rw [join_join]
  exact isBelow_join a (by simp [nonempty])

theorem isBelow_irrefl (n : Name) : ¬ n.isBelow n = true := by
  simp [isBelow]

/-! ## Below, or the same -/

theorem isWithin_refl (n : Name) : n.isWithin n = true :=
  isWithin_iff.mpr ⟨[], (join_nil n).symm⟩

theorem isWithin_of_isBelow (h : n.isBelow a = true) : n.isWithin a = true := by
  obtain ⟨path, -, rfl⟩ := isBelow_iff.mp h
  exact isWithin_iff.mpr ⟨path, rfl⟩

theorem eq_or_isBelow_of_isWithin (h : n.isWithin a = true) : n = a ∨ n.isBelow a = true := by
  obtain ⟨path, rfl⟩ := isWithin_iff.mp h
  by_cases nonempty : path = []
  · exact .inl (join_eq_self.mpr nonempty)
  · exact .inr (isBelow_join a nonempty)

theorem isBelow_of_isWithin_of_isBelow (h : n.isWithin m = true) (k : m.isBelow a = true) :
    n.isBelow a = true := by
  obtain ⟨later, rfl⟩ := isWithin_iff.mp h
  obtain ⟨first, nonempty, rfl⟩ := isBelow_iff.mp k
  rw [join_join]
  exact isBelow_join a (by simp [nonempty])

theorem isBelow_of_isBelow_of_isWithin (h : n.isBelow m = true) (k : m.isWithin a = true) :
    n.isBelow a = true := by
  obtain ⟨later, nonempty, rfl⟩ := isBelow_iff.mp h
  obtain ⟨first, rfl⟩ := isWithin_iff.mp k
  rw [join_join]
  exact isBelow_join a (by simp [nonempty])

theorem isBelow_child (n : Name) (s : String) : (n.child s).isBelow n = true :=
  isBelow_join n (List.cons_ne_nil _ _)

theorem isWithin_join (n : Name) (path : List String) : (n.join path).isWithin n = true :=
  isWithin_iff.mpr ⟨path, rfl⟩

theorem isWithin_trans (h : n.isWithin m = true) (k : m.isWithin a = true) :
    n.isWithin a = true := by
  obtain ⟨later, rfl⟩ := isWithin_iff.mp h
  obtain ⟨first, rfl⟩ := isWithin_iff.mp k
  rw [join_join]
  exact isWithin_join a _

theorem ne_of_isBelow_of_isWithin (h : n.isBelow m = true) (k : m.isWithin a = true) : n ≠ a := by
  rintro rfl
  exact isBelow_irrefl n (isBelow_of_isBelow_of_isWithin h k)

/-- Nothing lies strictly below what lies below it. -/
theorem not_isWithin_of_isBelow (h : n.isBelow a = true) : ¬ a.isWithin n = true := by
  intro k
  exact isBelow_irrefl a (isBelow_of_isWithin_of_isBelow k h)

/-- A name lies inside of one child only. -/
theorem segment_eq_of_isWithin_child (h : n.isWithin (a.child s) = true)
    (k : n.isWithin (a.child t) = true) : s = t := by
  obtain ⟨first, rfl⟩ := isWithin_iff.mp h
  obtain ⟨later, same⟩ := isWithin_iff.mp k
  rw [child_eq, child_eq, join_join, join_join, join_inj] at same
  exact (List.cons.inj same).1

/-! ## Directly above -/

@[simp] theorem parent_child (n : Name) (segment : String) : (n.child segment).parent = some n := by
  simp [parent, child_eq, join]

end TomlSemantics.Name
