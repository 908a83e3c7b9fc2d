/-!
# Names of keys

A name is a path: the list of its segments from the root of all names down. Names are compared
segment by segment, so that a name comes directly before everything below it, and segments by
code point, which is the order of their UTF-8 bytes.
-/

namespace TomlSemantics

/-- A path of segments. -/
structure Name where
  segments : List String := []
deriving DecidableEq, Repr, Inhabited

namespace Name

/-! ## Order -/

instance : LT Name := ⟨fun m n => m.segments < n.segments⟩

instance : DecidableLT Name := fun m n => inferInstanceAs (Decidable (m.segments < n.segments))

theorem lt_def {m n : Name} : m < n ↔ m.segments < n.segments := .rfl

instance : Trans (α := Name) (· < ·) (· < ·) (· < ·) :=
  ⟨fun h k => List.lt_trans (lt_def.mp h) (lt_def.mp k)⟩

instance : Std.Irrefl (α := Name) (· < ·) :=
  ⟨fun n h => Std.Irrefl.irrefl (r := (· < · : List String → List String → Prop)) n.segments h⟩

instance : Std.Trichotomous (α := Name) (· < ·) where
  trichotomous m n h k := by
    cases m; cases n
    exact congrArg mk
      (Std.Trichotomous.trichotomous (r := (· < · : List String → List String → Prop)) _ _ h k)

/-! ## Building names -/

/-- The number of segments. -/
def size (n : Name) : Nat := n.segments.length

/-- Whether the name has no segment. -/
def isEmpty (n : Name) : Bool := n.segments.isEmpty

/-- The name below `n` along a path of segments. -/
def join (n : Name) (path : List String) : Name := ⟨n.segments ++ path⟩

/-- The name directly below `n`. -/
def child (n : Name) (segment : String) : Name := n.join [segment]

/-- The name directly above `n`. The empty name has none. -/
def parent (n : Name) : Option Name :=
  if n.segments.isEmpty then none else some ⟨n.segments.dropLast⟩

/-- The last segment. -/
def base (n : Name) : Option String := n.segments.getLast?

/-! ## Places in the tree -/

/-- Whether `n` is `ancestor` or lies below it. -/
def isWithin (n ancestor : Name) : Bool := ancestor.segments.isPrefixOf n.segments

/-- Whether `n` lies below `ancestor`. -/
def isBelow (n ancestor : Name) : Bool := ancestor.size < n.size && n.isWithin ancestor

/-- The path from `ancestor` down to `n`. -/
def relativeTo (n ancestor : Name) : Option (List String) :=
  if n.isWithin ancestor then some (n.segments.drop ancestor.size) else none

theorem isWithin_iff {n ancestor : Name} :
    n.isWithin ancestor = true ↔ ∃ path, n = ancestor.join path := by
  rw [isWithin, List.isPrefixOf_iff_prefix]
  constructor
  · rintro ⟨path, h⟩
    exact ⟨path, by cases n; simp [join, h]⟩
  · rintro ⟨path, rfl⟩
    exact ⟨path, rfl⟩

theorem relativeTo_eq_some_iff {n ancestor : Name} {path : List String} :
    n.relativeTo ancestor = some path ↔ n = ancestor.join path := by
  constructor
  · intro h
    simp only [relativeTo] at h
    split at h
    · next within =>
        obtain ⟨rest, rfl⟩ := isWithin_iff.mp within
        cases h
        simp [join, size]
    · cases h
  · rintro rfl
    have within : (ancestor.join path).isWithin ancestor = true := isWithin_iff.mpr ⟨path, rfl⟩
    rw [relativeTo, if_pos within]
    simp [join, size]

end Name

end TomlSemantics
