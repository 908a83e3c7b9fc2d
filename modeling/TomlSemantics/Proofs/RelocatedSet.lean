import TomlSemantics.Proofs.DocumentRun
import TomlSemantics.Proofs.IntegrityRun
import TomlSemantics.Proofs.NameOrder
import TomlSemantics.Proofs.RelocatedRun

/-!
# The root is only a prefix

What a document says does not depend on the root below which it is read. The keys are the same but
for the root of their names, they are listed in the same order, and faults are raised by the same
events.

1. `Name.Moved.lt_iff`: names that differ in the root keep their order.
2. `KeySet.Moved.toList`: so sets with nothing outside of the roots list their keys alike.
3. `parse_within`: a document has no key outside of the root.
4. `parse_relocates`: the same document below two roots.
-/

namespace TomlSemantics

variable {r r' : Name}

/-! ## Order -/

namespace Name

theorem Moved.lt_iff {n n' m m' : Name} (h : Moved r r' n n') (k : Moved r r' m m') :
    n < m ↔ n' < m' := by
  obtain ⟨first, rfl, rfl⟩ := h
  obtain ⟨later, rfl, rfl⟩ := k
  rw [join_lt_join_iff, join_lt_join_iff]

end Name

section InOrder

variable {α β : Type} {lt : α → α → Prop} {lt' : β → β → Prop} {R : α → β → Prop}
  {l : List α} {l' : List β} {a : α} {b : β}

/-- Where the first elements correspond, the later ones correspond to later ones. -/
theorem exists_later (irrefl : ∀ b, ¬ lt' b b)
    (order : ∀ a b c d, R a b → R c d → lt a c → lt' b d) (head : R a b)
    (sorted : (a :: l).Pairwise lt) (all : ∀ c ∈ a :: l, ∃ d ∈ b :: l', R c d) :
    ∀ c ∈ l, ∃ d ∈ l', R c d := by
  intro c inside
  obtain ⟨d, member, related⟩ := all c (List.mem_cons_of_mem _ inside)
  rcases List.mem_cons.mp member with rfl | later
  · have less := order _ _ _ _ head related (List.rel_of_pairwise_cons sorted inside)
    exact absurd less (irrefl d)
  · exact ⟨d, later, related⟩

/-- Lists in order correspond in order, if what they hold does. -/
theorem forall₂_of_pairwise (asymm : ∀ a b, lt a b → ¬ lt b a) (asymm' : ∀ a b, lt' a b → ¬ lt' b a)
    (order : ∀ a b c d, R a b → R c d → (lt a c ↔ lt' b d)) (sorted : l.Pairwise lt)
    (sorted' : l'.Pairwise lt') (left : ∀ a ∈ l, ∃ b ∈ l', R a b)
    (right : ∀ b ∈ l', ∃ a ∈ l, R a b) : List.Forall₂ R l l' := by
  induction l generalizing l' with
  | nil =>
    cases l' with
    | nil => exact .nil
    | cons b l' =>
      obtain ⟨a, none, -⟩ := right b List.mem_cons_self
      cases none
  | cons a l ih =>
    obtain ⟨b, member, related⟩ := left a List.mem_cons_self
    cases l' with
    | nil => cases member
    | cons first l' =>
      -- What corresponds to the first of one list cannot come later in the other.
      have head : R a first := by
        obtain ⟨c, inside, firsts⟩ := right first List.mem_cons_self
        rcases List.mem_cons.mp member with rfl | later
        · exact related
        rcases List.mem_cons.mp inside with rfl | later'
        · exact firsts
        have less := (order _ _ _ _ related firsts).mp (List.rel_of_pairwise_cons sorted later')
        exact absurd (List.rel_of_pairwise_cons sorted' later) (asymm' _ _ less)
      refine .cons head (ih sorted.of_cons sorted'.of_cons ?_ ?_)
      · exact exists_later (fun b less => asymm' b b less less)
          (fun _ _ _ _ h k => (order _ _ _ _ h k).mp) head sorted left
      · exact exists_later (fun a less => asymm a a less less)
          (fun _ _ _ _ h k => (order _ _ _ _ h k).mpr) head sorted' right

end InOrder

/-! ## Sets of keys -/

namespace KeySet

/-- The set has nothing outside of a name. -/
def Within (root : Name) (s : KeySet) : Prop :=
  ∀ name k, s.lookup name = some k → name.isWithin root = true

theorem Within.lookup_eq_none {root name : Name} {s : KeySet} (h : s.Within root)
    (elsewhere : ¬ name.isWithin root = true) : s.lookup name = none := by
  cases found : s.lookup name with
  | none => rfl
  | some k => exact absurd (h name k found) elsewhere

/-- Below one root, the sets find the same. -/
theorem Moved.lookup_eq {s s' : KeySet} (h : s.Moved r r s') (path : List String) :
    s.lookup (r.join path) = s'.lookup (r.join path) := by
  have found := h _ _ ⟨path, rfl, rfl⟩
  generalize s.lookup (r.join path) = k at found ⊢
  generalize s'.lookup (r.join path) = k' at found ⊢
  cases found with
  | none => rfl
  | some moved => rw [moved.eq]

theorem Moved.symm {s s' : KeySet} (h : s.Moved r r' s') : s'.Moved r' r s := by
  rintro _ _ ⟨path, rfl, rfl⟩
  have found := h _ _ ⟨path, rfl, rfl⟩
  generalize s.lookup (r.join path) = k at found ⊢
  generalize s'.lookup (r'.join path) = k' at found ⊢
  cases found with
  | none => exact .none
  | some moved => exact .some moved.symm

/-- What one set has inside of its root, the other has. -/
theorem Moved.exists_entry {s s' : KeySet} (h : s.Moved r r' s') (within : s.Within r)
    {e : Name × Key} (inside : e ∈ s.byName.entries) :
    ∃ e' ∈ s'.byName.entries, Name.Moved r r' e.1 e'.1 ∧ Key.Moved r r' e.2 e'.2 := by
  have here := (SortedMap.lookup_eq_some_iff _).mpr inside
  obtain ⟨path, at_⟩ := Name.isWithin_iff.mp (within e.1 e.2 here)
  have names : Name.Moved r r' e.1 (r'.join path) := ⟨path, at_, rfl⟩
  have found := h _ _ names
  rw [lookup, here] at found
  generalize there : s'.lookup (r'.join path) = k' at found
  cases found with
  | some moved => exact ⟨_, (SortedMap.lookup_eq_some_iff _).mp there, names, moved⟩

/-- Sets with nothing outside of the roots list their keys alike. -/
theorem Moved.toList {s s' : KeySet} (h : s.Moved r r' s') (within : s.Within r)
    (within' : s'.Within r') : List.Forall₂ (Key.Moved r r') s.toList s'.toList := by
  have entries : List.Forall₂ (fun e e' => Name.Moved r r' e.1 e'.1 ∧ Key.Moved r r' e.2 e'.2)
      s.byName.entries s'.byName.entries := by
    refine forall₂_of_pairwise (fun _ _ => SortedMap.not_lt_of_lt)
      (fun _ _ => SortedMap.not_lt_of_lt) (fun _ _ _ _ h k => h.1.lt_iff k.1) s.byName.sorted
      s'.byName.sorted (fun e => h.exists_entry within) fun e' inside => ?_
    obtain ⟨e, here, names, keys⟩ := h.symm.exists_entry within' inside
    exact ⟨e, here, names.symm, keys.symm⟩
  simp only [KeySet.toList, SortedMap.values, List.forall₂_map_left_iff, List.forall₂_map_right_iff]
  exact entries.imp fun _ _ moved => moved.2

end KeySet

/-! ## Documents -/

/-- The states before the end are proper. -/
theorem State.proper_feedUntilFault (o : Options) (keys : KeySet) (events : List Event) :
    ((start o keys).feedUntilFault o events).Proper o keys := by
  rw [← feedAll_eq_feedUntilFault rfl]
  exact proper_feedAll o keys events

/-- Reading below two roots, from sets that have the same below them, ends alike. -/
theorem State.finish_outcome {o o' : Options} {keys keys' : KeySet}
    (limit : o.maxArrayElements = o'.maxArrayElements) (h : keys.Moved o.root o'.root keys')
    (events : List Event) :
    Outcome (Fault.Moved o.root o'.root) (KeySet.Moved o.root o'.root)
      ((start o keys).feedUntilFault o events).finish
      ((start o' keys').feedUntilFault o' events).finish := by
  rw [← feedAll_eq_feedUntilFault rfl, ← feedAll_eq_feedUntilFault rfl]
  exact ((moved_start h).feedAll limit events).finish

theorem State.keys_of_finish {s : State} {done : KeySet} (h : s.finish = .ok done) :
    done = s.keys := by
  unfold State.finish at h
  split at h
  · cases h
  · cases h
    rfl

/-- A document has no key outside of the root. -/
theorem parse_within {o : Options} {events : List Event} {keys : KeySet}
    (h : parse o events = .ok keys) : keys.Within o.root := by
  have proper := State.proper_feedUntilFault o ∅ events
  intro name k found
  by_contra elsewhere
  rw [State.keys_of_finish h, State.keys, proper.output.lookup_outside elsewhere] at found
  cases found

/-- A document that is read below two roots. After the same events, an event raises faults of one
class at one place in both readings, or none in either. In the end both have the same keys, but for
the root, listed in the same order, or both have such faults. -/
theorem parse_relocates (o : Options) (r r' : Name) :
    let o₁ : Options := { o with root := r }
    let o₂ : Options := { o with root := r' }
    (∀ (done : List Event) (e : Event),
      Option.Rel Fault.Alike (((State.start o₁ ∅).feedAll o₁ done).feed o₁ e).2
        (((State.start o₂ ∅).feedAll o₂ done).feed o₂ e).2) ∧
    ∀ events : List Event,
      Outcome Fault.Alike
        (fun keys keys' => List.Forall₂ (Key.Moved r r') keys.toList keys'.toList)
        (parse o₁ events) (parse o₂ events) := by
  intro o₁ o₂
  have limit : o₁.maxArrayElements = o₂.maxArrayElements := rfl
  have empty : KeySet.Moved o₁.root o₂.root ∅ ∅ := fun _ _ _ => .none
  refine ⟨fun done e => ?_, fun events => ?_⟩
  · have before : ((State.start o₁ ∅).feedAll o₁ done).Moved o₁.root o₂.root
        ((State.start o₂ ∅).feedAll o₂ done) := (State.moved_start empty).feedAll limit done
    have raised := (before.feed limit e).2
    generalize (((State.start o₁ ∅).feedAll o₁ done).feed o₁ e).2 = fault at raised ⊢
    generalize (((State.start o₂ ∅).feedAll o₂ done).feed o₂ e).2 = fault' at raised ⊢
    cases raised with
    | none => exact .none
    | some moved => exact .some moved.alike
  · have finished := State.finish_outcome limit empty events
    exact finished.imp (fun _ _ moved => moved.alike) fun _ _ parsed parsed' moved =>
      moved.toList (parse_within parsed) (parse_within parsed')

end TomlSemantics
