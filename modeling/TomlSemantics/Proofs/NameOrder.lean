import TomlSemantics.Proofs.KeySet
import TomlSemantics.Proofs.Name

/-!
# Names in order

Names are compared segment by segment, and a name that ends first comes first. So a name comes
before all names below it, and what lies between two names below it lies below it as well. Segments
are compared as a whole: a sibling whose segment goes on where another ends comes after everything
below that.

1. `join_lt_join_iff`: names below one name are in the order of their paths.
2. `le_of_isWithin`, `isWithin_of_between`: a name and all below it stand together, the name first.
3. `lt_of_isWithin_child`: what lies below siblings is in the order of their segments.
-/

namespace TomlSemantics.Name

variable {n m a b c p : Name} {s t : String}

/-- A name comes before another or is that. -/
instance : LE Name := ⟨fun m n => ¬ n < m⟩

/-- Names below one name are in the order of their paths. -/
theorem join_lt_join_iff {first later : List String} (n : Name) :
    n.join first < n.join later ↔ first < later := by
  have lt_join {first later : List String} (h : first < later) : n.join first < n.join later :=
    List.append_left_lt h
  refine ⟨fun less => ?_, lt_join⟩
  by_contra notLess
  have notMore : ¬ later < first := fun more => SortedMap.not_lt_of_lt less (lt_join more)
  have same : first = later :=
    Std.Trichotomous.trichotomous (r := (· < · : List String → List String → Prop)) _ _
      notLess notMore
  exact SortedMap.ne_of_lt less (congrArg n.join same)

/-- A name comes before what lies below it. -/
theorem le_of_isWithin (h : n.isWithin a = true) : a ≤ n := by
  obtain ⟨path, rfl⟩ := isWithin_iff.mp h
  intro less
  have less : a.join path < a.join [] := by rwa [join_nil]
  exact List.not_lt_nil _ ((join_lt_join_iff a).mp less)

theorem isPrefix_of_between {front first between last : List String}
    (notBefore : ¬ between < front ++ first) (notAfter : ¬ front ++ last < between) :
    front <+: between := by
  induction front generalizing between with
  | nil => exact List.nil_prefix
  | cons s front ih =>
    cases between with
    | nil => exact absurd .nil notBefore
    | cons t between =>
      have same : s = t :=
        Std.Trichotomous.trichotomous (r := (· < · : String → String → Prop)) _ _
          (fun less => notAfter (.rel less)) fun less => notBefore (.rel less)
      subst same
      rw [List.cons_prefix_cons]
      exact ⟨rfl, ih (fun less => notBefore (.cons less)) fun less => notAfter (.cons less)⟩

/-- What lies between names below one name lies below it too. -/
theorem isWithin_of_between (first : a ≤ b) (last : b ≤ c) (h : a.isWithin p = true)
    (k : c.isWithin p = true) : b.isWithin p = true := by
  obtain ⟨path, rfl⟩ := isWithin_iff.mp h
  obtain ⟨path', rfl⟩ := isWithin_iff.mp k
  rw [isWithin, List.isPrefixOf_iff_prefix]
  exact isPrefix_of_between first last

/-- What lies below siblings is in the order of these. -/
theorem lt_of_isWithin_child (less : s < t) (h : m.isWithin (p.child s) = true)
    (k : n.isWithin (p.child t) = true) : m < n := by
  obtain ⟨path, rfl⟩ := isWithin_iff.mp h
  obtain ⟨path', rfl⟩ := isWithin_iff.mp k
  rw [child_eq, child_eq, join_join, join_join, join_lt_join_iff]
  exact .rel less

end TomlSemantics.Name
