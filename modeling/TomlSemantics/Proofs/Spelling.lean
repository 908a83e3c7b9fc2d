import TomlSemantics.Proofs.Assembly

/-!
# Keys and values as they are written

A key that is accepted gives at least one segment for each of its parts. The events of a value hold
those of everything inside of it.
-/

namespace TomlSemantics

/-! ## Values -/

theorem itemEvents_sublist (line : Nat) (items : List Item) :
    (itemEvents line items).Sublist ((Value.array items).events line) := by
  cases items with
  | nil => exact List.nil_sublist _
  | cons item items => exact (List.sublist_append_left _ _).cons _

theorem pairsEvents_sublist (line : Nat) (pairs : List (KeyPath × Value)) :
    (pairsEvents line pairs).Sublist ((Value.inlineTable pairs).events line) := by
  cases pairs with
  | nil => exact List.nil_sublist _
  | cons pair pairs => exact (List.sublist_append_left _ _).cons _

/-! ## Keys -/

theorem splitAtPoint_ne_nil (s : String) : splitAtPoint s ≠ [] := by
  unfold splitAtPoint
  split <;> exact List.cons_ne_nil _ _

theorem Scalar.keySegments_ne_nil {s : Scalar} {segments : List String}
    (h : s.keySegments = .ok segments) : segments ≠ [] := by
  unfold keySegments at h
  cases kind : s.kind with
  | comment | multilineBasic | multilineLiteral => simp [kind] at h
  | bare | basic | literal =>
    simp only [kind, Except.ok.injEq] at h
    exact h ▸ List.cons_ne_nil _ _
  | float =>
    simp only [kind] at h
    obtain ⟨-, -, taken⟩ := exists_of_bind_eq_ok h
    cases taken
    exact splitAtPoint_ne_nil _
  | _ =>
    simp only [kind] at h
    obtain ⟨-, -, taken⟩ := exists_of_bind_eq_ok h
    cases taken
    exact List.cons_ne_nil _ _

namespace KeyPath

variable {key : KeyPath} {found : List String}

/-- Every part of a key gives segments. -/
def Accepted (key : KeyPath) : Prop := ∀ s ∈ key, ∃ segments, s.keySegments = .ok segments

/-- The segments of a key, without those of parts that give none. -/
def path (key : KeyPath) : List String :=
  key.flatMap fun s => (s.keySegments.toOption).getD []

theorem segments_eq (h : key.Accepted) : key.segments = .ok key.path := by
  induction key with
  | nil => rfl
  | cons s key ih =>
    obtain ⟨⟨first, found⟩, others⟩ := List.forall_mem_cons.mp h
    rw [segments, found, ih others]
    simp [path, found, Except.toOption, bind, Except.bind, pure, Except.pure]

theorem accepted_of_segments (h : key.segments = .ok found) : key.Accepted := by
  induction key generalizing found with
  | nil => exact nofun
  | cons s key ih =>
    obtain ⟨first, found, h⟩ := exists_of_bind_eq_ok h
    obtain ⟨later, rest, -⟩ := exists_of_bind_eq_ok h
    exact List.forall_mem_cons.mpr ⟨⟨first, found⟩, ih rest⟩

theorem path_ne_nil (h : key.Accepted) (nonempty : key ≠ []) : key.path ≠ [] := by
  cases key with
  | nil => exact absurd rfl nonempty
  | cons s key =>
    obtain ⟨⟨first, found⟩, -⟩ := List.forall_mem_cons.mp h
    have some_ := Scalar.keySegments_ne_nil found
    simp [path, found, Except.toOption, some_]

end KeyPath

end TomlSemantics
