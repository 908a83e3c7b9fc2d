import TomlSemantics.Proofs.Name
import TomlSemantics.Proofs.View

/-!
# Actions on comments, keys and nodes

What the actions of the builder do to the view of a state, one lemma for each action.

1. `Builder.Mirrors`: an action stops with the cause of a result, or ends in a state that fits it.
   `Mirrors.bind` follows a sequence of actions beside a sequence of results.
2. `Event.runAll`: the step of a list of events.
3. Comments: `leadWithComments_run`, `trailWithComments_run`, `settlePrevious_run`.
4. Keys: `segments_mirrors` for the parts of a key, `openKey_mirrors` for the key that they make.
-/

namespace TomlSemantics

/-! ## Actions beside results -/

namespace Builder

/-- The action stops with the cause of the result, or ends in a state that fits the result. -/
def Mirrors {α : Type} (x : Builder Unit) (s : State) (r : Except Cause α)
    (fits : α → State → Prop) : Prop :=
  match r with
  | .ok a => ∃ s', x.run s = .ok () s' ∧ fits a s'
  | .error cause => ∃ s', x.run s = .error cause s'

namespace Mirrors

variable {α β : Type} {x y : Builder Unit} {s : State} {r : Except Cause α}
  {fits : α → State → Prop}

theorem bind {f : α → Except Cause β} {next : β → State → Prop} (hx : Mirrors x s r fits)
    (hy : ∀ a s', fits a s' → Mirrors y s' (f a) next) :
    Mirrors (do x; y) s (r >>= f) next := by
  cases r with
  | ok a =>
    obtain ⟨s', ran, fit⟩ := hx
    have rest := hy a s' fit
    simp only [Mirrors, EStateM.run_bind, ran] at rest ⊢
    exact rest
  | error cause =>
    obtain ⟨s', stopped⟩ := hx
    exact ⟨s', by simp only [EStateM.run_bind, stopped]⟩

/-- Only how the action runs matters. -/
theorem of_run_eq {s' : State} (same : x.run s = y.run s') (h : Mirrors y s' r fits) :
    Mirrors x s r fits := by
  unfold Mirrors
  rw [same]
  exact h

/-- An action before, which does not stop. -/
theorem after {s' : State} (ran : x.run s = .ok () s') (h : Mirrors y s' r fits) :
    Mirrors (do x; y) s r fits := by
  refine h.of_run_eq ?_
  simp only [EStateM.run_bind, ran]

/-- An action after, which does not stop. -/
theorem andThen (next : α → State → Prop) (hx : Mirrors x s r fits)
    (hy : ∀ a s', fits a s' → ∃ t, y.run s' = .ok () t ∧ next a t) :
    Mirrors (do x; y) s r next := by
  cases r with
  | ok a =>
    obtain ⟨s', ran, fit⟩ := hx
    obtain ⟨t, ended, fit⟩ := hy a s' fit
    exact ⟨t, by simp only [EStateM.run_bind, ran, ended], fit⟩
  | error cause =>
    obtain ⟨s', stopped⟩ := hx
    exact ⟨s', by simp only [EStateM.run_bind, stopped]⟩

theorem map {f : α → β} {next : β → State → Prop} (hx : Mirrors x s r fits)
    (hf : ∀ a s', fits a s' → next (f a) s') :
    Mirrors x s (do return f (← r)) next := by
  cases r with
  | ok a =>
    obtain ⟨s', ran, fit⟩ := hx
    exact ⟨s', ran, hf a s' fit⟩
  | error cause => exact hx

theorem imp {next : α → State → Prop} (h : Mirrors x s r fits)
    (weaker : ∀ a s', fits a s' → next a s') : Mirrors x s r next := by
  cases r with
  | ok a =>
    obtain ⟨s', ran, fit⟩ := h
    exact ⟨s', ran, weaker a s' fit⟩
  | error cause => exact h

end Mirrors

end Builder

/-- The step that a list of events stands for. -/
def Event.runAll (o : Options) : List Event → Builder Unit
  | [] => pure ()
  | e :: rest => do e.step o; runAll o rest

theorem Event.runAll_append (o : Options) (first later : List Event) :
    runAll o (first ++ later) = (do runAll o first; runAll o later) := by
  induction first with
  | nil => simp [runAll]
  | cons e first ih => simp only [List.cons_append, runAll, ih, bind_assoc]

theorem Event.runAll_singleton (o : Options) (e : Event) : runAll o [e] = e.step o := by
  simp [runAll]

/-! ## Names and keys -/

@[simp] theorem Key.addLeading_nil (k : Key) : k.addLeading [] = k := by
  simp [addLeading]

@[simp] theorem Key.addTrailing_nil (k : Key) : k.addTrailing [] = k := by
  simp [addTrailing]

namespace Builder

variable {s : State} {v : View} {id : NodeId} {key : Key} {stack : List Node} {o : Options}

/-! ## Waiting comments -/

theorem drainComments_run (h : s.Shows v) :
    drainComments.run s = .ok v.comments.contents { s with comments := {} } := by
  simp [drainComments, h.comments]

theorem queueComment_run (h : s.Shows v) (scalar : Scalar) (comment : scalar.kind = .comment) :
    ∃ s', (queueComment scalar).run s = .ok () s' ∧ s'.Shows { v with
      comments := v.comments.push ⟨scalar.text, scalar.spelling⟩ } := by
  simp only [queueComment, setLocation, EStateM.run_bind, EStateM.run_modify,
    require_run (decide_eq_true comment)]
  exact ⟨_, rfl, { h with comments := by rw [h.comments] }⟩

theorem queueBlankLine_mirrors (h : s.Shows v) :
    Mirrors queueBlankLine s v.comments.newline fun comments s' =>
      s'.Shows { v with comments } := by
  unfold Mirrors
  simp only [queueBlankLine, EStateM.run_bind, EStateM.run_get, h.comments]
  cases v.comments.newline with
  | error cause => exact ⟨s, rfl⟩
  | ok comments => exact ⟨_, rfl, { h with comments := rfl }⟩

theorem leadWithComments_run (h : s.Shows v) (hv : v.stack = .fresh key :: stack) (t : s.Top id) :
    ∃ s', (leadWithComments id).run s = .ok () s' ∧ s'.Top id ∧ s'.Shows { v with
      stack := .fresh (key.addLeading v.comments.contents) :: stack, comments := {} } := by
  have drained : ({ s with comments := {} } : State).Shows { v with comments := {} } :=
    { h with comments := rfl }
  simp only [leadWithComments, EStateM.run_bind, drainComments_run h]
  cases block : v.comments.contents with
  | nil =>
    refine ⟨_, rfl, t, ?_⟩
    rw [Key.addLeading_nil, ← hv]
    exact drained
  | cons entry rest => exact change_fresh_run drained hv t (·.addLeading (entry :: rest))

theorem trailWithComments_run (h : s.Shows v) (hv : v.stack = .fresh key :: stack) (t : s.Top id) :
    ∃ s', (trailWithComments id).run s = .ok () s' ∧ s'.Top id ∧ s'.Shows { v with
      stack := .fresh (key.addTrailing v.comments.contents) :: stack, comments := {} } := by
  have drained : ({ s with comments := {} } : State).Shows { v with comments := {} } :=
    { h with comments := rfl }
  simp only [trailWithComments, EStateM.run_bind, drainComments_run h]
  cases block : v.comments.contents with
  | nil =>
    refine ⟨_, rfl, t, ?_⟩
    rw [Key.addTrailing_nil, ← hv]
    exact drained
  | cons entry rest => exact change_fresh_run drained hv t (·.addTrailing (entry :: rest))

/-- A change to the last pair or element, which is in the set. -/
theorem change_previous_run (h : s.Shows v) (hv : v.previous = some (.recorded key))
    (last : s.nodes.previous = some id) (f : Key → Key) :
    ∃ s', (change id f).run s = .ok () s' ∧ s'.Shows { v with
      previous := some (.recorded (f key)), keys := v.keys.append (f key) } := by
  have nodes := h.nodes
  rw [hv] at nodes
  obtain ⟨other, same, found⟩ := nodes.last
  rw [last] at same
  cases same
  have changed : (s.nodes.put id (.recorded (f key))).Shows v.stack _ :=
    nodes.put_previous last rfl
  simp only [change, EStateM.run_bind, node_run found, setNode, EStateM.run_modify]
  refine ⟨_, rfl, { h with nodes := changed, keys := ?_ }⟩
  rw [← h.keys]
  rfl

theorem settlePrevious_run (h : s.Shows v) (hv : v.previous = some (.recorded key)) :
    ∃ s', settlePrevious.run s = .ok () s' ∧ s'.Shows
      (match v.comments.takeFirst with
      | some (comment, rest) => { v with
          previous := some (.recorded (key.setInline comment)), comments := rest
          keys := v.keys.append (key.setInline comment) }
      | none => v) := by
  have nodes := h.nodes
  rw [hv] at nodes
  obtain ⟨id, last, -⟩ := nodes.last
  simp only [settlePrevious, EStateM.run_bind, EStateM.run_get, last, h.comments]
  cases taken : v.comments.takeFirst with
  | none => exact ⟨s, rfl, h⟩
  | some first =>
    obtain ⟨comment, rest⟩ := first
    have waiting : ({ s with comments := rest } : State).Shows { v with comments := rest } :=
      { h with comments := rfl }
    exact change_previous_run waiting hv last (·.setInline comment)

/-! ## Keys -/

theorem draftBase_run {top : Node} (h : s.Shows v) (hv : v.stack = top :: stack) :
    (draftBase o).run s =
      .ok (if v.tableHeader && !v.scopes.isEmpty then o.root else top.key.name) s := by
  simp only [draftBase, EStateM.run_bind, EStateM.run_get, h.tableHeader, h.scopes]
  cases v.tableHeader && !v.scopes.isEmpty with
  | true => rfl
  | false => exact topName_run h hv

theorem startDraft_run {top : Node} (h : s.Shows v) (hv : v.stack = top :: stack) :
    ∃ s', (startDraft o).run s = .ok () s' ∧ s'.Shows { v with
      draft := some (if v.tableHeader && !v.scopes.isEmpty then o.root else top.key.name) } := by
  simp only [startDraft, EStateM.run_bind, draftBase_run h hv, setDraft, EStateM.run_modify]
  exact ⟨_, rfl, { h with draft := rfl }⟩

theorem extendDraft_mirrors {name : Name} (h : s.Shows v) (hv : v.draft = some name)
    (scalar : Scalar) : Mirrors (extendDraft scalar) s scalar.keySegments fun segments s' =>
      s'.Shows { v with draft := some (name.join segments) } := by
  unfold Mirrors
  simp only [extendDraft, setLocation, EStateM.run_bind, EStateM.run_modify]
  cases scalar.keySegments with
  | error cause => exact ⟨_, rfl⟩
  | ok segments =>
    simp only [lift_ok_run, EStateM.run_get, h.draft, hv]
    exact ⟨_, rfl, { h with draft := rfl }⟩

/-- The parts of a key extend the draft of its name. -/
theorem segments_mirrors {name : Name} (h : s.Shows v) (hv : v.draft = some name) (line : Nat)
    (key : KeyPath) :
    Mirrors (Event.runAll o (key.map fun part => .keySegment (part.atLine line))) s key.segments
      fun segments s' => s'.Shows { v with draft := some (name.join segments) } := by
  induction key generalizing s v name with
  | nil =>
    refine ⟨s, rfl, ?_⟩
    show s.Shows { v with draft := some (name.join []) }
    rw [Name.join_nil, ← hv]
    exact h
  | cons part key ih =>
    simp only [List.map_cons, Event.runAll, KeyPath.segments]
    refine (extendDraft_mirrors h hv (part.atLine line)).bind fun first s₁ h₁ => ?_
    have rest := ih h₁ rfl
    simp only [Name.join_join] at rest
    cases later : KeyPath.segments key with
    | error cause => rwa [later] at rest
    | ok segments => rwa [later] at rest

theorem checkFree_mirrors (h : s.Shows v) (name : Name) :
    Mirrors (checkFree o name) s (v.sheet.checkFree o name) fun _ s' => s'.Shows v := by
  have same : s.keys = v.sheet.keys := h.keys
  simp only [Sheet.checkFree, ← same]
  by_cases free : isFree o s.keys name = true
  · rw [if_pos free]
    exact ⟨s, require_run free _ s, h⟩
  · rw [if_neg free]
    exact ⟨s, require_stops (Bool.eq_false_iff.mpr free) _ s⟩

/-- What is left of a key that ends once its name is known. -/
def openKey (o : Options) (name : Name) : Builder Unit := do
  checkFree o name
  let id ← openNode { name }
  takeComments id
  numberKey id

theorem endKey_eq (o : Options) : endKey o = (do openKey o (← finishDraft o)) := rfl

theorem numberKey_run (h : s.Shows v) (hv : v.stack = .fresh key :: stack) (t : s.Top id) :
    ∃ s', (numberKey id).run s = .ok () s' ∧ s'.Shows { v with
      stack := .fresh (key.setOrder v.nextOrder) :: stack, nextOrder := v.nextOrder + 1 } := by
  have next : ({ s with nextOrder := s.nextOrder + 1 } : State).Shows
      { v with nextOrder := v.nextOrder + 1 } := { h with nextOrder := by rw [h.nextOrder] }
  obtain ⟨s', ran, -, shown⟩ := change_fresh_run next hv t (·.setOrder v.nextOrder)
  refine ⟨s', ?_, shown⟩
  simpa only [numberKey, takeOrder, EStateM.run_bind, EStateM.run_modifyGet, h.nextOrder] using ran

theorem takeComments_run (h : s.Shows v) (takes : v.keyTakesComments = true) :
    (takeComments id).run s = (leadWithComments id).run s := by
  simp only [takeComments, EStateM.run_bind, EStateM.run_get, h.keyTakesComments, takes, if_true]

theorem takeComments_leaves (h : s.Shows v) (leaves : v.keyTakesComments = false) :
    (takeComments id).run s = .ok () s := by
  simp only [takeComments, EStateM.run_bind, EStateM.run_get, h.keyTakesComments, leaves]
  rfl

/-- A key whose name is free gets a node, the waiting comments, and its number. -/
theorem openKey_mirrors (h : s.Shows v) (takes : v.keyTakesComments = true) (name : Name) :
    Mirrors (openKey o name) s
      (v.sheet.begin o name v.comments.contents) fun opened s' =>
        opened.1.arrayMarker = none ∧
          s'.Shows { (v.onSheet opened.2).inside (.fresh opened.1) with comments := {} } := by
  refine (checkFree_mirrors h name).bind fun _ s₀ h₀ => ?_
  obtain ⟨id, s₁, opened, t₁, h₁⟩ := openNode_run h₀ { name }
  obtain ⟨s₂, led, t₂, h₂⟩ := leadWithComments_run h₁ rfl t₁
  obtain ⟨s₃, numbered, h₃⟩ := numberKey_run h₂ rfl t₂
  refine ⟨s₃, ?_, rfl, h₃⟩
  simp only [EStateM.run_bind, opened, takeComments_run h₁ takes, led, numbered]

/-- The key of a table array's header gets a node and a number, but no comments. -/
theorem openKey_header_mirrors (h : s.Shows v) (leaves : v.keyTakesComments = false) (name : Name) :
    Mirrors (openKey o name) s (v.sheet.checkFree o name) fun _ s' =>
      s'.Shows { v.inside (.fresh (({ name } : Key).setOrder v.nextOrder)) with
        nextOrder := v.nextOrder + 1 } := by
  refine (checkFree_mirrors h name).andThen _ fun _ s₀ h₀ => ?_
  obtain ⟨id, s₁, opened, t₁, h₁⟩ := openNode_run h₀ { name }
  obtain ⟨s₂, numbered, h₂⟩ := numberKey_run h₁ rfl t₁
  refine ⟨s₂, ?_, h₂⟩
  simp only [EStateM.run_bind, opened, takeComments_leaves h₁ leaves, numbered]

/-- The key that has been read, of anything but a table, has the name of its draft. -/
theorem finishDraft_run {name : Name} (h : s.Shows v) (hv : v.draft = some name)
    (pair : v.tableHeader = false) :
    ∃ s', (finishDraft o).run s = .ok name s' ∧ s'.Shows { v with draft := none } := by
  simp only [finishDraft, EStateM.run_bind, EStateM.run_get, h.draft, hv, h.tableHeader, pair]
  exact ⟨_, rfl, { h with draft := rfl, tableHeader := rfl }⟩

end Builder

end TomlSemantics
