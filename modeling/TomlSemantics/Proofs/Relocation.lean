import Mathlib.Data.List.Forall2
import TomlSemantics.Builder.Step
import TomlSemantics.Proofs.Edit
import TomlSemantics.Proofs.Scope

/-!
# The same below another root

Two readings of the same events below different roots go through states that differ only in the
beginning of the names. Whatever is done with names gives the same answer for such states, or again
names that differ in the beginning only.

1. `Name.Moved`: two names have one path from two roots. Comparisons, paths and names below agree.
2. `Key.Moved`, `NodePool.Moved`, `OpenNodes.Moved`, `KeySet.Moved`, `State.Moved`: what holds such
   names and is otherwise the same.
3. `Cause.Moved`: causes that differ in the names they tell. They have one class.
4. `Outcome`: two results that are both there or both missing. One lemma for each function on open
   arrays of tables.
-/

namespace TomlSemantics

variable {r r' : Name}

/-! ## Names -/

namespace Name

/-- The names have one path from two roots. -/
def Moved (r r' n n' : Name) : Prop := ∃ path, n = r.join path ∧ n' = r'.join path

namespace Moved

variable {n n' m m' : Name}

theorem root (r r' : Name) : Moved r r' r r' := ⟨[], (join_nil r).symm, (join_nil r').symm⟩

theorem join (h : Moved r r' n n') (path : List String) :
    Moved r r' (n.join path) (n'.join path) := by
  obtain ⟨first, rfl, rfl⟩ := h
  exact ⟨first ++ path, join_join r first path, join_join r' first path⟩

theorem child (h : Moved r r' n n') (segment : String) :
    Moved r r' (n.child segment) (n'.child segment) :=
  h.join [segment]

theorem eq_iff (h : Moved r r' n n') (k : Moved r r' m m') : n = m ↔ n' = m' := by
  obtain ⟨first, rfl, rfl⟩ := h
  obtain ⟨later, rfl, rfl⟩ := k
  rw [join_inj, join_inj]

theorem relativeTo_eq (h : Moved r r' n n') (k : Moved r r' m m') :
    n.relativeTo m = n'.relativeTo m' := by
  obtain ⟨first, rfl, rfl⟩ := h
  obtain ⟨later, rfl, rfl⟩ := k
  apply Option.ext
  intro path
  rw [relativeTo_eq_some_iff, relativeTo_eq_some_iff, join_join, join_join, join_inj, join_inj]

theorem isBelow_eq (h : Moved r r' n n') (k : Moved r r' m m') : n.isBelow m = n'.isBelow m' := by
  obtain ⟨first, rfl, rfl⟩ := h
  obtain ⟨later, rfl, rfl⟩ := k
  rw [Bool.eq_iff_iff, isBelow_iff, isBelow_iff]
  simp only [join_join, join_inj]

theorem symm (h : Moved r r' n n') : Moved r' r n' n := by
  obtain ⟨path, rfl, rfl⟩ := h
  exact ⟨path, rfl, rfl⟩

end Moved

/-- Names of one path from one root are one. -/
theorem Moved.eq {n n' : Name} (h : Moved r r n n') : n = n' := by
  obtain ⟨path, rfl, rfl⟩ := h
  rfl

end Name

/-! ## Keys -/

namespace Key

/-- The keys differ in the root of their names only. -/
def Moved (r r' : Name) (k k' : Key) : Prop :=
  ∃ name, Name.Moved r r' k.name name ∧ k' = { k with name }

variable {k k' : Key} {f : Key → Key}

theorem Moved.name (h : Moved r r' k k') : Name.Moved r r' k.name k'.name := by
  obtain ⟨name, moved, rfl⟩ := h
  exact moved

theorem Moved.symm (h : Moved r r' k k') : Moved r' r k' k := by
  obtain ⟨name, moved, rfl⟩ := h
  exact ⟨k.name, moved.symm, rfl⟩

theorem Moved.empty {n n' : Name} (h : Name.Moved r r' n n') :
    Moved r r' { name := n } { name := n' } :=
  ⟨n', h, rfl⟩

theorem Moved.arrayMarker_eq (h : Moved r r' k k') : k.arrayMarker = k'.arrayMarker := by
  obtain ⟨name, -, rfl⟩ := h
  rfl

theorem Moved.edit (h : Moved r r' k k') (edit : Edit f) : Moved r r' (f k) (f k') := by
  obtain ⟨name, moved, rfl⟩ := h
  refine ⟨name, ?_, edit.rename k name⟩
  rwa [edit.name_eq]

/-- Keys of one path from one root are one. -/
theorem Moved.eq (h : Moved r r k k') : k = k' := by
  obtain ⟨name, moved, rfl⟩ := h
  rw [← moved.eq]

end Key

/-! ## Nodes -/

/-- The nodes have keys that differ in the root only. -/
def Node.Moved (r r' : Name) (node node' : Node) : Prop :=
  ∃ key, node.key.Moved r r' key ∧ node' = { node with key }

section Slots

variable {α β : Type} {R : α → β → Prop} {l : List α} {l' : List β} {a : α} {b : β}

theorem forall₂_set (h : List.Forall₂ R l l') (i : Nat) (rel : R a b) :
    List.Forall₂ R (l.set i a) (l'.set i b) := by
  induction h generalizing i with
  | nil => exact .nil
  | cons first _ ih =>
    cases i with
    | zero => exact .cons rel ‹_›
    | succ i => exact .cons first (ih i)

theorem rel_getElem? (h : List.Forall₂ R l l') (i : Nat) : Option.Rel R l[i]? l'[i]? := by
  induction h generalizing i with
  | nil => exact .none
  | cons first _ ih =>
    cases i with
    | zero => exact .some first
    | succ i => exact ih i

end Slots

namespace NodePool

/-- The pools have the same slots free, and in the others nodes whose keys differ in the root
only. -/
def Moved (r r' : Name) (p p' : NodePool) : Prop :=
  ∃ slots, List.Forall₂ (Option.Rel (Node.Moved r r')) p.slots slots ∧ p' = { p with slots }

namespace Moved

variable {p p' : NodePool} {node node' : Node} {k k' : Key}

theorem get? (h : Moved r r' p p') (id : NodeId) :
    Option.Rel (Node.Moved r r') (p.get? id) (p'.get? id) := by
  obtain ⟨slots, same, rfl⟩ := h
  have here := rel_getElem? same id.slot
  simp only [NodePool.get?]
  generalize p.slots[id.slot]? = found at here ⊢
  generalize slots[id.slot]? = found' at here ⊢
  cases here with
  | none => exact .none
  | some inside => exact inside

theorem put (h : Moved r r' p p') (id : NodeId) (moved : Node.Moved r r' node node') :
    Moved r r' (p.put id node) (p'.put id node') := by
  obtain ⟨slots, same, rfl⟩ := h
  exact ⟨_, forall₂_set same id.slot (.some moved), rfl⟩

theorem store (h : Moved r r' p p') (moved : k.Moved r r' k') :
    (p.store k).1 = (p'.store k').1 ∧ Moved r r' (p.store k).2 (p'.store k').2 := by
  obtain ⟨slots, same, rfl⟩ := h
  have new : Option.Rel (Node.Moved r r') (some { key := k }) (some { key := k' }) :=
    .some ⟨k', moved, rfl⟩
  simp only [NodePool.store]
  split
  · next slot free _ => exact ⟨rfl, _, forall₂_set same slot new, rfl⟩
  · refine ⟨congrArg NodeId.mk same.length_eq, _, ?_, rfl⟩
    exact List.rel_append same (.cons new .nil)

theorem retain (h : Moved r r' p p') (id : NodeId) :
    Moved r r' (p.retain id) (p'.retain id) := by
  have here := h.get? id
  unfold NodePool.retain
  generalize p.get? id = found at here ⊢
  generalize p'.get? id = found' at here ⊢
  cases here with
  | none => exact h
  | some moved =>
    obtain ⟨key, moved, rfl⟩ := moved
    exact h.put id ⟨key, moved, rfl⟩

theorem release (h : Moved r r' p p') (id : NodeId) :
    Moved r r' (p.release id) (p'.release id) := by
  have here := h.get? id
  unfold NodePool.release
  generalize p.get? id = found at here ⊢
  generalize p'.get? id = found' at here ⊢
  cases here with
  | none => exact h
  | some moved =>
    obtain ⟨key, moved, rfl⟩ := moved
    dsimp only
    split
    · obtain ⟨slots, same, rfl⟩ := h
      exact ⟨_, forall₂_set same id.slot .none, rfl⟩
    · exact h.put id ⟨key, moved, rfl⟩

end Moved

end NodePool

namespace OpenNodes

/-- The open nodes are the same, but for the root of their names. -/
def Moved (r r' : Name) (n n' : OpenNodes) : Prop :=
  ∃ pool, n.pool.Moved r r' pool ∧ n' = { n with pool }

namespace Moved

variable {n n' : OpenNodes} {node node' : Node} {k k' : Key}

theorem stack (h : Moved r r' n n') : n.stack = n'.stack := by
  obtain ⟨pool, same, rfl⟩ := h
  rfl

theorem previous (h : Moved r r' n n') : n.previous = n'.previous := by
  obtain ⟨pool, same, rfl⟩ := h
  rfl

theorem get? (h : Moved r r' n n') (id : NodeId) :
    Option.Rel (Node.Moved r r') (n.get? id) (n'.get? id) := by
  obtain ⟨pool, same, rfl⟩ := h
  exact same.get? id

theorem put (h : Moved r r' n n') (id : NodeId) (moved : Node.Moved r r' node node') :
    Moved r r' (n.put id node) (n'.put id node') := by
  obtain ⟨pool, same, rfl⟩ := h
  exact ⟨_, same.put id moved, rfl⟩

theorem push (h : Moved r r' n n') (moved : k.Moved r r' k') :
    (n.push k).1 = (n'.push k').1 ∧ Moved r r' (n.push k).2 (n'.push k').2 := by
  obtain ⟨pool, same, rfl⟩ := h
  obtain ⟨slot, stored⟩ := same.store moved
  refine ⟨slot, _, stored, ?_⟩
  simp only [OpenNodes.push, slot]

theorem pop? (h : Moved r r' n n') : Option.Rel (Moved r r') n.pop? n'.pop? := by
  obtain ⟨pool, same, rfl⟩ := h
  unfold OpenNodes.pop?
  dsimp only
  split
  · next id _ _ _ => exact .some ⟨_, same.release id, rfl⟩
  · exact .none

theorem remember (h : Moved r r' n n') (id : NodeId) :
    Moved r r' (n.remember id) (n'.remember id) := by
  obtain ⟨pool, same, rfl⟩ := h
  refine ⟨_, ?_, rfl⟩
  unfold OpenNodes.remember
  dsimp only
  split
  · exact (same.retain id).release _
  · exact same.retain id

theorem start (r r' : Name) : Moved r r' (.start { name := r }) (.start { name := r' }) := by
  have empty : Moved r r' {} {} := ⟨{}, ⟨[], .nil, rfl⟩, rfl⟩
  exact (empty.push (.empty (.root r r'))).2

end Moved

end OpenNodes

/-! ## Sets of keys -/

namespace KeySet

/-- Below two roots, the sets have keys at the same paths, and the keys differ in the root only.
What else the sets have does not matter. -/
def Moved (r r' : Name) (s s' : KeySet) : Prop :=
  ∀ n n', Name.Moved r r' n n' → Option.Rel (Key.Moved r r') (s.lookup n) (s'.lookup n')

namespace Moved

variable {s s' : KeySet} {k k' : Key} {n n' : Name} {f : Key → Key}

theorem append (h : Moved r r' s s') (moved : k.Moved r r' k') :
    Moved r r' (s.append k) (s'.append k') := by
  intro n n' names
  rw [lookup_append, lookup_append]
  by_cases here : k.name = n
  · rw [if_pos here, if_pos ((moved.name.eq_iff names).mp here)]
    exact .some moved
  · rw [if_neg here, if_neg (mt (moved.name.eq_iff names).mpr here)]
    exact h n n' names

theorem adjust (h : Moved r r' s s') (names : Name.Moved r r' n n') (edit : Key.Edit f) :
    Moved r r' (s.adjust n f) (s'.adjust n' f) := by
  intro m m' others
  have found := h m m' others
  rw [lookup_adjust, lookup_adjust]
  by_cases here : m = n
  · rw [if_pos here, if_pos ((others.eq_iff names).mp here)]
    generalize s.lookup m = key at found ⊢
    generalize s'.lookup m' = key' at found ⊢
    cases found with
    | none => exact .none
    | some moved => exact .some (moved.edit edit)
  · rw [if_neg here, if_neg (mt (others.eq_iff names).mpr here)]
    exact found

theorem isSome_eq (h : Moved r r' s s') (names : Name.Moved r r' n n') :
    (s.lookup n).isSome = (s'.lookup n').isSome := by
  have found := h n n' names
  generalize s.lookup n = key at found ⊢
  generalize s'.lookup n' = key' at found ⊢
  cases found <;> rfl

/-- The last element of an array of tables is the same. -/
theorem lastElement_eq (h : Moved r r' s s') (names : Name.Moved r r' n n') :
    Scope.lastElement s n = Scope.lastElement s' n' := by
  have found := h n n' names
  unfold Scope.lastElement
  generalize s.lookup n = key at found ⊢
  generalize s'.lookup n' = key' at found ⊢
  cases found with
  | none => rfl
  | some moved =>
    obtain ⟨name, -, rfl⟩ := moved
    rfl

/-- A name is free in both sets or in none. -/
theorem isFree_eq {o o' : Options} (h : Moved o.root o'.root s s')
    (names : Name.Moved o.root o'.root n n') :
    Builder.isFree o s n = Builder.isFree o' s' n' := by
  have found := h n n' names
  have root := names.eq_iff (.root o.root o'.root)
  unfold Builder.isFree
  generalize s.lookup n = key at found ⊢
  generalize s'.lookup n' = key' at found ⊢
  cases found with
  | none => rfl
  | some moved =>
    obtain ⟨name, -, rfl⟩ := moved
    simp only [root]
    rfl

end Moved

end KeySet

/-! ## Causes -/

/-- The causes are the same, or tell names that differ in the root. -/
inductive Cause.Moved (r r' : Name) : Cause → Cause → Prop
  | same (cause : Cause) : Moved r r' cause cause
  | duplicateName {n n' : Name} : Name.Moved r r' n n' →
      Moved r r' (.duplicateName n) (.duplicateName n')
  | tableIsTableArray {n n' : Name} : Name.Moved r r' n n' →
      Moved r r' (.tableIsTableArray n) (.tableIsTableArray n')
  | scopeOutside {n n' base base' : Name} : Name.Moved r r' n n' → Name.Moved r r' base base' →
      Moved r r' (.scopeOutside n base) (.scopeOutside n' base')

theorem Cause.Moved.faultClass_eq {cause cause' : Cause} (h : Cause.Moved r r' cause cause') :
    cause.faultClass = cause'.faultClass := by
  cases h <;> rfl

/-- Causes that tell names from one root are one. -/
theorem Cause.Moved.eq {cause cause' : Cause} (h : Cause.Moved r r cause cause') :
    cause = cause' := by
  cases h with
  | same => rfl
  | duplicateName name => rw [name.eq]
  | tableIsTableArray name => rw [name.eq]
  | scopeOutside name base => rw [name.eq, base.eq]

/-! ## Results -/

/-- Two results are both there, and their values fit, or both missing, and the reasons fit. -/
inductive Outcome {ε ε' α β : Type} (E : ε → ε' → Prop) (V : α → β → Prop) :
    Except ε α → Except ε' β → Prop
  | ok {a : α} {b : β} : V a b → Outcome E V (.ok a) (.ok b)
  | error {e : ε} {e' : ε'} : E e e' → Outcome E V (.error e) (.error e')

namespace Outcome

variable {ε ε' α β γ δ : Type} {E : ε → ε' → Prop} {V : α → β → Prop} {W : γ → δ → Prop}
  {x : Except ε α} {y : Except ε' β}

theorem bind {f : α → Except ε γ} {g : β → Except ε' δ} (h : Outcome E V x y)
    (hf : ∀ a b, V a b → Outcome E W (f a) (g b)) : Outcome E W (x >>= f) (y >>= g) := by
  cases h with
  | ok v => exact hf _ _ v
  | error e => exact .error e

/-- What fits more closely fits. -/
theorem imp {E' : ε → ε' → Prop} {V' : α → β → Prop} (h : Outcome E V x y)
    (errors : ∀ e e', E e e' → E' e e')
    (values : ∀ a b, x = .ok a → y = .ok b → V a b → V' a b) : Outcome E' V' x y := by
  cases h with
  | ok v => exact .ok (values _ _ rfl rfl v)
  | error e => exact .error (errors _ _ e)

theorem refl {E : ε → ε → Prop} (errors : ∀ e, E e e) (x : Except ε α) :
    Outcome E (· = ·) x x := by
  cases x with
  | ok a => exact .ok rfl
  | error e => exact .error (errors e)

theorem foldlM {f : β → α → Except ε β} {g : δ → γ → Except ε' δ} {U : α → γ → Prop}
    {V : β → δ → Prop} (step : ∀ b d a c, V b d → U a c → Outcome E V (f b a) (g d c))
    {l : List α} {l' : List γ} (elements : List.Forall₂ U l l') {b : β} {d : δ} (start : V b d) :
    Outcome E V (l.foldlM f b) (l'.foldlM g d) := by
  induction elements generalizing b d with
  | nil => exact .ok start
  | cons first _ ih => exact (step _ _ _ _ start first).bind fun b d v => ih v

end Outcome

/-! ## Open arrays of tables -/

namespace Scope

/-- The arrays have names that differ in the root only, and the same current element. -/
def Moved (r r' : Name) (scope scope' : Scope) : Prop :=
  ∃ name, Name.Moved r r' scope.name name ∧ scope' = { scope with name }

/-- The same arrays are open, but for the root of their names. -/
abbrev AllMoved (r r' : Name) : List Scope → List Scope → Prop := List.Forall₂ (Moved r r')

/-- The placements are of one kind, and what they name differs in the root only. -/
inductive Placement.Moved (r r' : Name) : Placement → Placement → Prop
  | outside : Moved r r' .outside .outside
  | inside {n n' : Name} : Name.Moved r r' n n' → Moved r r' (.inside n) (.inside n')
  | arrayItself : Moved r r' .arrayItself .arrayItself

variable {scope scope' : Scope} {scopes scopes' : List Scope} {n n' : Name} {keys keys' : KeySet}

theorem base_moved (h : AllMoved r r' scopes scopes') :
    Name.Moved r r' (base r scopes) (base r' scopes') := by
  cases h with
  | nil => exact .root r r'
  | cons first _ =>
    obtain ⟨name, moved, rfl⟩ := first
    exact moved

theorem isEmpty_moved (h : AllMoved r r' scopes scopes') : scopes.isEmpty = scopes'.isEmpty := by
  cases h <;> rfl

theorem index_moved (h : AllMoved r r' scopes scopes') :
    scopes.head?.map index = scopes'.head?.map index := by
  cases h with
  | nil => rfl
  | cons first _ =>
    obtain ⟨name, -, rfl⟩ := first
    rfl

/-- The current element lies directly below its array, and both names differ in the root only. -/
def ChildrenMoved (r r' n n' : Name) : Prop :=
  ∃ array array' segment, Name.Moved r r' array array' ∧
    n = array.child segment ∧ n' = array'.child segment

theorem ChildrenMoved.moved (h : ChildrenMoved r r' n n') : Name.Moved r r' n n' := by
  obtain ⟨array, array', segment, names, rfl, rfl⟩ := h
  exact names.child segment

/-- The step from the element around an array to its own. -/
theorem element_step (h : AllMoved r r' (scope :: scopes) (scope' :: scopes'))
    (around : Outcome (Cause.Moved r r') (Name.Moved r r') (element r scopes)
      (element r' scopes')) :
    Outcome (Cause.Moved r r') (ChildrenMoved r r') (element r (scope :: scopes))
      (element r' (scope' :: scopes')) := by
  cases h with
  | cons first rest =>
    obtain ⟨name, moved, rfl⟩ := first
    refine around.bind fun enclosing enclosing' names => ?_
    dsimp only
    rw [moved.relativeTo_eq (base_moved rest)]
    split
    · next path _ => exact .ok ⟨_, _, _, names.join path, rfl, rfl⟩
    · exact .error (.scopeOutside moved (base_moved rest))

theorem element_outcome (h : AllMoved r r' scopes scopes') :
    Outcome (Cause.Moved r r') (Name.Moved r r') (element r scopes) (element r' scopes') := by
  induction h with
  | nil => exact .ok (.root r r')
  | cons first rest ih =>
    exact (element_step (.cons first rest) ih).imp (fun _ _ cause => cause)
      fun _ _ _ _ child => child.moved

/-- Where an array is open, its current element lies directly below it. -/
theorem element_children (h : AllMoved r r' scopes scopes') (open_ : scopes ≠ []) :
    Outcome (Cause.Moved r r') (ChildrenMoved r r') (element r scopes) (element r' scopes') := by
  cases h with
  | nil => exact absurd rfl open_
  | cons first rest => exact element_step (.cons first rest) (element_outcome rest)

theorem container_outcome (h : AllMoved r r' scopes scopes') (names : Name.Moved r r' n n') :
    Outcome (Cause.Moved r r') (Name.Moved r r') (container r scopes n)
      (container r' scopes' n') := by
  refine (element_outcome h).bind fun enclosing enclosing' moved => ?_
  rw [names.relativeTo_eq (base_moved h)]
  split
  · next path _ => exact .ok (moved.join path)
  · exact .error (.scopeOutside names (base_moved h))

theorem ancestors_moved (names : Name.Moved r r' n n') :
    List.Forall₂ (Name.Moved r r') (ancestors r n) (ancestors r' n') := by
  obtain ⟨path, rfl, rfl⟩ := names
  rw [ancestors_join, ancestors_join, List.forall₂_map_left_iff, List.forall₂_map_right_iff,
    List.forall₂_same]
  exact fun length _ => ⟨path.take length, rfl, rfl⟩

theorem reopen_outcome (sets : KeySet.Moved r r' keys keys') (h : AllMoved r r' scopes scopes')
    (names : Name.Moved r r' n n') :
    Outcome (Cause.Moved r r') (AllMoved r r') (reopen keys r scopes n)
      (reopen keys' r' scopes' n') := by
  refine (container_outcome h names).bind fun array array' moved => ?_
  rw [sets.lastElement_eq moved]
  split
  · exact .ok (.cons ⟨n', names, rfl⟩ h)
  · exact .ok h

theorem begin_outcome (sets : KeySet.Moved r r' keys keys') (h : AllMoved r r' scopes scopes')
    (names : Name.Moved r r' n n') :
    Outcome (Cause.Moved r r') (AllMoved r r') (begin keys r scopes n)
      (begin keys' r' scopes' n') := by
  refine (container_outcome h names).bind fun array array' moved => ?_
  rw [sets.lastElement_eq moved]
  split
  · exact .ok (.cons ⟨n', names, rfl⟩ h)
  · exact .ok (.cons ⟨n', names, rfl⟩ h)

theorem enter_outcome (sets : KeySet.Moved r r' keys keys') (h : AllMoved r r' scopes scopes')
    (names : Name.Moved r r' n n') :
    Outcome (Cause.Moved r r') (AllMoved r r') (enter keys r n scopes)
      (enter keys' r' n' scopes') := by
  induction h with
  | nil =>
    refine Outcome.bind ?_ fun scopes scopes' h => begin_outcome sets h names
    refine Outcome.foldlM (fun _ _ _ _ h names => ?_) (ancestors_moved names) .nil
    exact reopen_outcome sets h names
  | cons first rest ih =>
    obtain ⟨name, moved, rfl⟩ := first
    have all := List.Forall₂.cons (R := Moved r r') ⟨name, moved, rfl⟩ rest
    unfold enter
    simp only [moved.eq_iff names, names.isBelow_eq moved]
    split
    · exact .ok (.cons ⟨name, moved, rfl⟩ rest)
    · split
      · exact begin_outcome sets all names
      · exact ih

theorem place_outcome (h : AllMoved r r' scopes scopes') (names : Name.Moved r r' n n') :
    Outcome (Cause.Moved r r') (Placement.Moved r r') (place r n scopes) (place r' n' scopes') := by
  induction h with
  | nil => exact .ok .outside
  | cons first rest ih =>
    obtain ⟨name, moved, rfl⟩ := first
    have all := List.Forall₂.cons (R := Moved r r') ⟨name, moved, rfl⟩ rest
    unfold place
    simp only [names.eq_iff moved, names.relativeTo_eq moved]
    split
    · exact .ok .arrayItself
    · split
      · next path _ =>
        exact (element_outcome all).bind fun _ _ moved => .ok (.inside (moved.join path))
      · exact ih

end Scope

/-! ## States -/

/-- The faults were noticed at one place, with causes that differ in the root only. -/
def Fault.Moved (r r' : Name) (fault fault' : Fault) : Prop :=
  ∃ cause, fault.cause.Moved r r' cause ∧ fault' = { fault with cause }

/-- The faults are of one class and were noticed at one place. -/
def Fault.Alike (fault fault' : Fault) : Prop :=
  fault.faultClass = fault'.faultClass ∧ fault.location = fault'.location

theorem Fault.Moved.alike {fault fault' : Fault} (h : Fault.Moved r r' fault fault') :
    fault.Alike fault' := by
  obtain ⟨cause, moved, rfl⟩ := h
  exact ⟨moved.faultClass_eq, rfl⟩

/-- Faults that tell names from one root are one. -/
theorem Fault.Moved.eq {fault fault' : Fault} (h : Fault.Moved r r fault fault') :
    fault = fault' := by
  obtain ⟨cause, moved, rfl⟩ := h
  rw [← moved.eq]

/-- The states are the same but for the root. -/
structure State.Moved (r r' : Name) (s t : State) : Prop where
  nodes : s.nodes.Moved r r' t.nodes
  scopes : Scope.AllMoved r r' s.scopes t.scopes
  draft : Option.Rel (Name.Moved r r') s.draft t.draft
  keys : s.output.keys.Moved r r' t.output.keys
  fault : Option.Rel (Fault.Moved r r') s.fault t.fault
  arrays : s.arrays = t.arrays
  comments : s.comments = t.comments
  held : s.held = t.held
  nextOrder : s.nextOrder = t.nextOrder
  inTable : s.inTable = t.inTable
  tableHeader : s.tableHeader = t.tableHeader
  keyTakesComments : s.keyTakesComments = t.keyTakesComments
  started : s.started = t.started
  location : s.location = t.location

end TomlSemantics
