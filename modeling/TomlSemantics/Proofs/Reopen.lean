import TomlSemantics.Proofs.Recorded

/-!
# Arrays that stay open and arrays that are opened again

A header keeps the arrays open that lie above it. Only if there is none, those that the set has are
opened again, from the top down. Both give the same arrays just if every array that would be opened
again is open.

1. `Indexed.eq_of_element`: the element of the innermost array tells all that are open.
2. `enter_suffix`: the arrays that a header keeps open.
3. `Tracked.foldlM_reopen_eq`: opening arrays again that are open gives just these.
4. `Tracked.outer_eq_iff`: when both ways agree. `Entered.element_eq_iff`: and then so do the elements.
-/

namespace TomlSemantics.Scope

variable {ends : String → Prop} {root name array : Name} {path : List String} {keys : KeySet}
  {scopes outer upper : List Scope} {scope : Scope} {last : Name → Option Nat}

/-! ## Elements tell the open arrays -/

/-- The open arrays lie in each other, along paths without elements, and their indices are words. -/
def Indexed (root : Name) : List Scope → Prop
  | [] => True
  | scope :: outer =>
      (scope.index < ElementIndex.limit ∧
        ∃ path, path ≠ [] ∧ Plain path ∧ scope.name = (base root outer).join path) ∧
      Indexed root outer

theorem Indexed.nested (h : Indexed root scopes) : Nested root scopes := by
  induction scopes with
  | nil => trivial
  | cons scope outer ih =>
    obtain ⟨⟨-, path, nonempty, -, at_⟩, inner⟩ := h
    exact ⟨at_ ▸ Name.isBelow_join _ nonempty, ih inner⟩

theorem Tracked.indexed (h : Tracked ends last root scopes)
    (bound : ∀ n m, last n = some m → m < ElementIndex.limit) : Indexed root scopes := by
  induction scopes with
  | nil => trivial
  | cons scope outer ih =>
    obtain ⟨⟨path, enclosing, header, at_, -, noted⟩, inner⟩ := h
    exact ⟨⟨bound _ _ noted, path, header.nonempty, header.plain, at_⟩, ih inner⟩

/-- An element does not lie below a name along a path without elements. -/
theorem eq_nil_of_child_eq_join {a n : Name} {index : Nat} (bound : index < ElementIndex.limit)
    (plain : Plain path) (same : a.child (ElementIndex.segment index) = n.join path) :
    path = [] := by
  by_contra nonempty
  have stem := Name.stem_child_segment a bound
  rw [same, Name.stem_join n nonempty plain, ← same] at stem
  exact Name.ne_stem_of_isBelow (Name.isBelow_child a _) stem

theorem Indexed.eq_nil_of_element {a n : Name} (h : Indexed root scopes)
    (within : a.isWithin root = true) (base_eq : base root scopes = a.join path)
    (found : element root scopes = .ok (n.join path)) (plain : Plain path) : path = [] := by
  cases scopes with
  | nil =>
    by_contra nonempty
    have root_eq : root = a.join path := base_eq
    exact Name.not_isWithin_of_isBelow (root_eq ▸ Name.isBelow_join a nonempty) within
  | cons scope outer =>
    obtain ⟨array, -, at_⟩ := h.nested.element_child
    rw [at_] at found
    exact eq_nil_of_child_eq_join h.1.1 plain (Except.ok.inj found)

/-- The path below the arrays that are open can be read off the name of an array and its place. -/
theorem Indexed.path_eq {others : List Scope} {n m : Name} {path' : List String}
    (h : Indexed root scopes) (h' : Indexed root others) (plain : Plain path)
    (plain' : Plain path') (found : element root scopes = .ok n)
    (found' : element root others = .ok m) (arrays : n.join path = m.join path')
    (names : (base root scopes).join path = (base root others).join path') : path = path' := by
  -- One of the paths ends in the other, and what stands before that would end in an element.
  rcases Name.join_eq_join names with ⟨more, above, rfl⟩ | ⟨more, above, rfl⟩
  · rw [← Name.join_join, Name.join_left_inj] at arrays
    rw [← arrays] at found'
    have plain : Plain more := fun s inside => plain s (List.mem_append_left _ inside)
    rw [h'.eq_nil_of_element h.nested.isWithin_base above found' plain, List.nil_append]
  · rw [← Name.join_join, Name.join_left_inj] at arrays
    rw [arrays] at found
    have plain : Plain more := fun s inside => plain' s (List.mem_append_left _ inside)
    rw [h.eq_nil_of_element h'.nested.isWithin_base above found plain, List.nil_append]

/-- The name of the innermost array and its element tell all open arrays. -/
theorem Indexed.eq_of_element {others : List Scope} (h : Indexed root scopes)
    (h' : Indexed root others) (names : base root scopes = base root others)
    (elements : element root scopes = element root others) : scopes = others := by
  induction scopes generalizing others with
  | nil =>
    cases others with
    | nil => rfl
    | cons other _ =>
      have same : root = other.name := names
      exact absurd (same ▸ h'.nested.isBelow_root) (Name.isBelow_irrefl root)
  | cons scope outer ih =>
    cases others with
    | nil =>
      have same : scope.name = root := names
      exact absurd (same ▸ h.nested.isBelow_root) (Name.isBelow_irrefl root)
    | cons other outer' =>
      have names : scope.name = other.name := names
      obtain ⟨⟨bound, path, -, plain, at_⟩, inner⟩ := h
      obtain ⟨⟨bound', path', -, plain', at'⟩, inner'⟩ := h'
      obtain ⟨front, found⟩ := inner.nested.element_eq_ok
      obtain ⟨front', found'⟩ := inner'.nested.element_eq_ok
      rw [element_cons found at_, element_cons found' at'] at elements
      -- Equal elements are the same index of the same array, and so lie in the same element.
      obtain ⟨arrays, index⟩ := Name.child_segment_inj bound bound' (Except.ok.inj elements)
      have places := names
      rw [at_, at'] at places
      have same := inner.path_eq inner' plain plain' found found' arrays places
      subst same
      rw [Name.join_left_inj] at arrays places
      rw [arrays] at found
      have scopes : scope = other := by
        cases scope
        cases other
        simp_all
      rw [scopes, ih inner inner' places (found.trans found'.symm)]

/-! ## Arrays that stay open -/

/-- Without an array that lies above, all are closed. -/
theorem enter_of_closed (keys : KeySet)
    (closed : ∀ scope ∈ scopes, ¬ name.isWithin scope.name = true) :
    enter keys root name scopes = enter keys root name [] := by
  induction scopes with
  | nil => rfl
  | cons scope outer ih =>
    obtain ⟨away, closed⟩ := List.forall_mem_cons.mp closed
    have other : scope.name ≠ name := fun same => away (same ▸ name.isWithin_refl)
    have outside : ¬ name.isBelow scope.name = true := mt Name.isWithin_of_isBelow away
    rw [← ih closed, enter, if_neg other, if_neg outside]

/-- With one, those that lie above stay open, in their order. -/
theorem enter_suffix {index : Nat}
    (open_ : ∃ scope ∈ scopes, name.isWithin scope.name = true)
    (ok : enter keys root name scopes = .ok (⟨name, index⟩ :: outer)) :
    outer <:+ scopes ∧ ∀ scope ∈ scopes, name.isBelow scope.name = true → scope ∈ outer := by
  induction scopes with
  | nil => obtain ⟨scope, ⟨⟩, -⟩ := open_
  | cons scope rest ih =>
    rw [enter] at ok
    split at ok
    · next same =>
      cases ok
      refine ⟨List.suffix_cons _ _, List.forall_mem_cons.mpr ⟨fun below => ?_, fun _ inside _ => inside⟩⟩
      exact absurd (same ▸ below) (Name.isBelow_irrefl scope.name)
    · next other =>
      split at ok
      · next below =>
        rw [eq_of_begin ok]
        exact ⟨List.suffix_refl _, fun _ inside _ => inside⟩
      · next outside =>
        have away : ¬ name.isWithin scope.name = true := fun within =>
          (Name.eq_or_isBelow_of_isWithin within).elim (fun same => other same.symm) outside
        obtain ⟨scope', inside, within⟩ := open_
        have inside := (List.mem_cons.mp inside).resolve_left fun same => away (same ▸ within)
        obtain ⟨suffix, above⟩ := ih ⟨scope', inside, within⟩ ok
        exact ⟨suffix.trans (List.suffix_cons _ _),
          List.forall_mem_cons.mpr ⟨fun below => absurd below outside, above⟩⟩

/-! ## Arrays that are opened again -/

theorem Tracked.of_append (h : Tracked ends last root (upper ++ scopes)) :
    Tracked ends last root scopes := by
  induction upper with
  | nil => exact h
  | cons _ _ ih => exact ih h.2

/-- No array is closed by opening others again. -/
theorem foldlM_reopen_suffix {above : List Name}
    (ok : above.foldlM (reopen keys root) scopes = .ok outer) : scopes <:+ outer := by
  induction above generalizing scopes with
  | nil => cases ok; exact List.suffix_refl _
  | cons first above ih =>
    rw [List.foldlM_cons] at ok
    obtain ⟨opened, reopened, ok⟩ := exists_of_bind_eq_ok ok
    obtain ⟨array, found, -⟩ := exists_of_bind_eq_ok reopened
    rw [reopen_of_container found] at reopened
    cases reopened
    exact (List.suffix_append _ _).trans (ih ok)

/-- Of arrays with names from the top down, that with the first name is the outermost. -/
theorem Nested.exists_concat {first : Name} {above : List Name} (h : Nested root (upper ++ scopes))
    (names : ∀ s ∈ upper, s.name ∈ first :: above)
    (order : (first :: above).Pairwise fun a b => b.isBelow a = true) (inside : scope ∈ upper)
    (name : scope.name = first) :
    ∃ inner, upper = inner ++ [scope] ∧ ∀ s ∈ inner, s.name ∈ above := by
  subst name
  obtain ⟨inner, outermost, rfl⟩ := 
    (List.eq_nil_or_concat' upper).resolve_left (List.ne_nil_of_mem inside)
  have pairs : (inner ++ [outermost]).Pairwise fun a b => a.name.isBelow b.name = true :=
    (List.pairwise_append.mp h.pairwise).1
  have lower : ∀ s ∈ inner, s.name.isBelow outermost.name = true := fun s member =>
    (List.pairwise_append.mp pairs).2.2 s member outermost List.mem_cons_self
  have same : scope = outermost := by
    rcases List.mem_append.mp inside with inside | inside
    · have below := lower scope inside
      rcases List.mem_cons.mp (names outermost (by simp)) with same | later
      · rw [same] at below
        exact absurd below (Name.isBelow_irrefl _)
      · have above := List.rel_of_pairwise_cons order later
        exact absurd (Name.isWithin_of_isBelow above) (Name.not_isWithin_of_isBelow below)
    · exact List.mem_singleton.mp inside
  subst same
  refine ⟨inner, rfl, fun s member => ?_⟩
  refine (List.mem_cons.mp (names s (List.mem_append_left _ member))).resolve_left fun same => ?_
  exact Name.isBelow_irrefl _ (same ▸ lower s member)

/-- An array that is open inside of others is at the element that is noted for its name there. -/
theorem Tracked.last_of_mem {first enclosing : Name} {above : List Name}
    (h : Tracked ends last root (upper ++ scopes)) (names : ∀ s ∈ upper, s.name ∈ first :: above)
    (order : (first :: above).Pairwise fun a b => b.isBelow a = true) (inside : scope ∈ upper)
    (name : scope.name = first) (at_ : first = (base root scopes).join path)
    (found : element root scopes = .ok enclosing) :
    last (enclosing.join path) = some scope.index := by
  obtain ⟨inner, rfl, -⟩ := h.nested.exists_concat names order inside name
  rw [List.append_assoc, List.singleton_append] at h
  obtain ⟨⟨path', enclosing', -, at', found', noted⟩, -⟩ := h.of_append
  rw [found] at found'
  cases found'
  rw [name, at_, Name.join_inj] at at'
  rwa [at']

/-- Opening arrays again gives those that are open, if it opens none but these. -/
theorem Tracked.foldlM_reopen_eq {above : List Name}
    (h : Tracked ends (lastElement keys) root (upper ++ scopes))
    (order : (base root scopes :: above).Pairwise fun a b => b.isBelow a = true)
    (names : ∀ s ∈ upper, s.name ∈ above)
    (ok : above.foldlM (reopen keys root) scopes = .ok outer)
    (all : ∀ s ∈ outer, s ∈ upper ++ scopes) : outer = upper ++ scopes := by
  induction above generalizing upper scopes with
  | nil =>
    cases upper with
    | nil => cases ok; rfl
    | cons s upper => exact absurd (names s List.mem_cons_self) List.not_mem_nil
  | cons first above ih =>
    have nested := h.of_append.nested
    have below := List.rel_of_pairwise_cons order List.mem_cons_self
    obtain ⟨path, -, at_⟩ := Name.isBelow_iff.mp below
    obtain ⟨enclosing, found, array⟩ := nested.container_eq_ok at_
    rw [List.foldlM_cons, reopen_of_container array] at ok
    -- Whether the first array above is opened depends on what is noted for it.
    cases last : lastElement keys (enclosing.join path) with
    | none =>
      have others : ∀ s ∈ upper, s.name ∈ above := fun s inside =>
        (List.mem_cons.mp (names s inside)).resolve_left fun same => by
          rw [h.last_of_mem names order.of_cons inside same at_ found] at last
          cases last
      rw [last] at ok
      exact ih h (order.sublist ((List.sublist_cons_self _ _).cons_cons _)) others ok all
    | some index =>
      rw [last] at ok
      have ok : above.foldlM (reopen keys root) (⟨first, index⟩ :: scopes) = .ok outer := ok
      have inside := all _ ((foldlM_reopen_suffix ok).subset List.mem_cons_self)
      rcases List.mem_append.mp inside with inside | inside
      · obtain ⟨inner, rfl, others⟩ := h.nested.exists_concat names order.of_cons inside rfl
        rw [List.append_assoc, List.singleton_append] at h all ⊢
        exact ih h order.of_cons others ok all
      -- It lies below all arrays that were open at the start, and so is none of them.
      · exact absurd (nested.isWithin_of_mem inside) (Name.not_isWithin_of_isBelow below)

/-! ## Both ways -/

theorem mem_ancestors {n : Name} (below : n.isBelow root = true)
    (above : (root.join path).isBelow n = true) : n ∈ ancestors root (root.join path) := by
  obtain ⟨first, nonempty, rfl⟩ := Name.isBelow_iff.mp below
  obtain ⟨later, rest, same⟩ := Name.isBelow_iff.mp above
  rw [Name.join_join, Name.join_inj] at same
  subst same
  have front := List.length_pos_iff.mpr nonempty
  have back := List.length_pos_iff.mpr rest
  rw [ancestors_join, List.mem_map]
  refine ⟨first.length, ?_, by rw [List.take_left]⟩
  rw [List.mem_range'_1, List.length_append]
  omega

theorem foldlM_of_enter_nil {index : Nat}
    (ok : enter keys root name [] = .ok (⟨name, index⟩ :: outer)) :
    (ancestors root name).foldlM (reopen keys root) [] = .ok outer := by
  obtain ⟨result, opened, began⟩ := exists_of_bind_eq_ok ok
  rwa [eq_of_begin began]

/-- A header lies below all arrays that it stays in. -/
theorem Nested.isBelow_of_enter {index : Nat} (h : Nested root scopes)
    (below : name.isBelow root = true)
    (ok : enter keys root name scopes = .ok (⟨name, index⟩ :: outer)) :
    ∀ scope ∈ outer, name.isBelow scope.name = true := by
  obtain ⟨_, _, ok', nested⟩ := h.enter_eq_ok below keys
  rw [ok] at ok'
  cases ok'
  exact fun scope inside => List.rel_of_pairwise_cons nested.pairwise inside

/-- A header finds the same arrays around it as one that finds none open, just if all are closed,
or none is opened again that was not open. -/
theorem Tracked.outer_eq_iff (h : Tracked ends (lastElement keys) root scopes)
    {index index' : Nat} {outer' : List Scope} (nonempty : path ≠ [])
    (live : enter keys root (root.join path) scopes = .ok (⟨root.join path, index⟩ :: outer))
    (fresh : enter keys root (root.join path) [] = .ok (⟨root.join path, index'⟩ :: outer')) :
    outer = outer' ↔ (∀ scope ∈ scopes, ¬ (root.join path).isWithin scope.name = true) ∨
      ∀ scope ∈ outer', scope ∈ scopes := by
  by_cases closed : ∀ scope ∈ scopes, ¬ (root.join path).isWithin scope.name = true
  · rw [enter_of_closed keys closed, fresh] at live
    cases live
    exact iff_of_true rfl (.inl closed)
  · have open_ : ∃ scope ∈ scopes, (root.join path).isWithin scope.name = true := by
      simpa using closed
    obtain ⟨⟨popped, rfl⟩, stay⟩ := enter_suffix open_ live
    refine ⟨fun same => .inr fun scope inside => ?_, fun all => ?_⟩
    · exact List.mem_append_right _ (same ▸ inside)
    · have all := all.resolve_left closed
      have below := Name.isBelow_join root nonempty
      have tracked : Tracked ends (lastElement keys) root (outer ++ []) := by
        rw [List.append_nil]
        exact h.of_append
      have names : ∀ scope ∈ outer, scope.name ∈ ancestors root (root.join path) :=
        fun scope inside => mem_ancestors
          (h.nested.isBelow_root_of_mem (List.mem_append_right _ inside))
          (h.nested.isBelow_of_enter below live scope inside)
      have order := (pairwise_ancestors root nonempty).sublist
        ((List.sublist_append_left _ _).cons_cons _)
      -- Whatever is opened again lies above the header, and so it is among the arrays that stay.
      have kept : ∀ scope ∈ outer', scope ∈ outer ++ [] := by
        intro scope inside
        rw [List.append_nil]
        exact stay scope (all scope inside) (nested_nil.isBelow_of_enter below fresh scope inside)
      rw [tracked.foldlM_reopen_eq order names (foldlM_of_enter_nil fresh) kept, List.append_nil]

namespace Entered

/-- Two elements of a header are one just if the arrays around them are. -/
theorem element_eq_iff {index index' count : Nat} {outer' : List Scope} {array' : Name}
    (h : Entered ends last root name index outer array)
    (h' : Entered ends last root name index' outer' array') (few : count < ElementIndex.limit)
    (bound : ∀ n m, last n = some m → m < count) :
    array.child (ElementIndex.segment index) = array'.child (ElementIndex.segment index') ↔
      outer = outer' := by
  constructor
  · intro same
    have indexed {index : Nat} {outer : List Scope} {array : Name}
        (h : Entered ends last root name index outer array) : Indexed root (⟨name, index⟩ :: outer) := by
      obtain ⟨path, enclosing, header, at_, -, -⟩ := h.place
      have most := h.index_le (bound array)
      refine ⟨⟨Nat.lt_of_le_of_lt most few, path, header.nonempty, header.plain, at_⟩, ?_⟩
      exact h.tracked.indexed fun n m noted => Nat.lt_trans (bound n m noted) few
    have elements := h.element_eq.trans ((congrArg Except.ok same).trans h'.element_eq.symm)
    exact (List.cons.inj ((indexed h).eq_of_element (indexed h') rfl elements)).2
  · rintro rfl
    obtain ⟨path, enclosing, -, at_, found, rfl⟩ := h.place
    obtain ⟨path', enclosing', -, at', found', rfl⟩ := h'.place
    rw [found] at found'
    cases found'
    rw [at_, Name.join_inj] at at'
    subst at'
    rw [h.next, h'.next]

end Entered

end TomlSemantics.Scope
