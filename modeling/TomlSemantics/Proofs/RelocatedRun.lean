import TomlSemantics.Proofs.Relocation

/-!
# Two readings below different roots

From states that are the same but for the root, one action does the same in both: it ends in both or
stops in both, and leaves states that are again the same but for the root.

1. `Builder.Together`: two actions that end or stop together, with results that fit each other.
   `Builder.Alike`: with the same result.
2. One lemma for each action.
3. `Event.step_alike`, `State.Moved.feed`, `State.Moved.feedAll`: so do steps, and all events.
-/

namespace TomlSemantics

namespace Builder

variable {α β : Type} {r r' : Name} {x y : Builder α} {s t : State} {V : α → α → Prop}
  {W : β → β → Prop}

/-- Two runs ended, with values that fit each other, or stopped, with causes that differ in the root
only; so do the states that they left. -/
inductive Ends (r r' : Name) (V : α → α → Prop) :
    EStateM.Result Cause State α → EStateM.Result Cause State α → Prop
  | ok {a b : α} {s t : State} : s.Moved r r' t → V a b → Ends r r' V (.ok a s) (.ok b t)
  | error {cause cause' : Cause} {s t : State} : s.Moved r r' t → cause.Moved r r' cause' →
      Ends r r' V (.error cause s) (.error cause' t)

/-- Two actions end together, with results that fit each other, or stop together. -/
def Together (r r' : Name) (x y : Builder α) (s t : State) (V : α → α → Prop) : Prop :=
  Ends r r' V (x.run s) (y.run t)

/-- Two actions end together with the same result, or stop together. -/
abbrev Alike (r r' : Name) (x y : Builder α) (s t : State) : Prop :=
  Together r r' x y s t (· = ·)

namespace Together

/-- What comes later may use how the first action ended. -/
theorem bind {f g : α → Builder β} (hx : Together r r' x y s t V)
    (hf : ∀ a b s' t', x.run s = .ok a s' → s'.Moved r r' t' → V a b →
      Together r r' (f a) (g b) s' t' W) : Together r r' (x >>= f) (y >>= g) s t W := by
  unfold Together at hx ⊢
  rw [EStateM.run_bind, EStateM.run_bind]
  generalize ran : x.run s = ended at hx ⊢
  generalize y.run t = ended' at hx ⊢
  cases hx with
  | ok h v => exact hf _ _ _ _ ran h v
  | error h cause => exact .error h cause

/-- What comes later does so from all states that are the same but for the root. -/
theorem andThen {f g : α → Builder β} (hx : Together r r' x y s t V)
    (hf : ∀ a b s' t', s'.Moved r r' t' → V a b → Together r r' (f a) (g b) s' t' W) :
    Together r r' (x >>= f) (y >>= g) s t W :=
  hx.bind fun a b s' t' _ => hf a b s' t'

/-- After the same result. -/
theorem thenAll {f g : α → Builder β} (hx : Alike r r' x y s t)
    (hf : ∀ a s' t', s'.Moved r r' t' → Together r r' (f a) (g a) s' t' W) :
    Together r r' (x >>= f) (y >>= g) s t W :=
  hx.andThen fun a _ s' t' h same => same ▸ hf a s' t' h

theorem of_get_bind {f g : State → Builder α} (h : Together r r' (f s) (g t) s t V) :
    Together r r' (get >>= f) (get >>= g) s t V := h

theorem of_set_bind {s' t' : State} {f g : PUnit → Builder α}
    (h : Together r r' (f ⟨⟩) (g ⟨⟩) s' t' V) :
    Together r r' (set s' >>= f) (set t' >>= g) s t V := h

theorem of_modify_bind {p q : State → State} {f g : PUnit → Builder α}
    (h : Together r r' (f ⟨⟩) (g ⟨⟩) (p s) (q t) V) :
    Together r r' (modify p >>= f) (modify q >>= g) s t V := h

theorem of_pure {a b : α} (h : s.Moved r r' t) (fits : V a b) :
    Together r r' (pure a) (pure b) s t V :=
  .ok h fits

theorem of_throw {cause cause' : Cause} (h : s.Moved r r' t) (moved : cause.Moved r r' cause') :
    Together r r' (throw cause : Builder α) (throw cause') s t V :=
  .error h moved

theorem of_set {s' t' : State} (h : s'.Moved r r' t') :
    Alike r r' (set s' : Builder PUnit) (set t') s t :=
  .ok h rfl

theorem of_modify {p q : State → State} (h : (p s).Moved r r' (q t)) :
    Alike r r' (modify p : Builder PUnit) (modify q) s t :=
  .ok h rfl

theorem ite {c : Prop} [Decidable c] {x' y' : Builder α} (hx : Together r r' x y s t V)
    (hy : Together r r' x' y' s t V) :
    Together r r' (if c then x else x') (if c then y else y') s t V := by
  split
  · exact hx
  · exact hy

end Together

theorem lift_together {a b : Except Cause α} (h : s.Moved r r' t)
    (outcome : Outcome (Cause.Moved r r') V a b) : Together r r' (lift a) (lift b) s t V := by
  cases outcome with
  | ok v => exact .of_pure h v
  | error cause => exact .of_throw h cause

theorem lift_alike (a : Except Cause α) (h : s.Moved r r' t) : Alike r r' (lift a) (lift a) s t :=
  lift_together h (.refl .same a)

theorem require_alike (c : Bool) {cause cause' : Cause} (h : s.Moved r r' t)
    (moved : cause.Moved r r' cause') : Alike r r' (require c cause) (require c cause') s t :=
  .ite (.of_pure h rfl) (.of_throw h moved)

/-! ## Nodes -/

theorem top_alike (h : s.Moved r r' t) : Alike r r' top top s t := by
  refine .of_get_bind ?_
  rw [h.nodes.stack]
  split
  · exact .of_pure h rfl
  · exact .of_throw h (.same _)

theorem node_together (id : NodeId) (h : s.Moved r r' t) :
    Together r r' (node id) (node id) s t (Node.Moved r r') := by
  have found := h.nodes.get? id
  refine .of_get_bind ?_
  generalize s.nodes.get? id = old at found ⊢
  generalize t.nodes.get? id = old' at found ⊢
  cases found with
  | none => exact .of_throw h (.same _)
  | some moved => exact .of_pure h moved

theorem topName_together (h : s.Moved r r' t) :
    Together r r' topName topName s t (Name.Moved r r') :=
  (top_alike h).thenAll fun id _ _ h => (node_together id h).andThen fun _ _ _ _ h moved => by
    obtain ⟨key, moved, rfl⟩ := moved
    exact .of_pure h moved.name

theorem setNode_alike {node node' : Node} (id : NodeId) (h : s.Moved r r' t)
    (moved : node.Moved r r' node') : Alike r r' (setNode id node) (setNode id node') s t :=
  .of_modify { h with nodes := h.nodes.put id moved }

theorem handOver_alike {k k' : Key} (h : s.Moved r r' t) (moved : k.Moved r r' k') :
    Alike r r' (handOver k) (handOver k') s t :=
  .of_modify { h with keys := h.keys.append moved }

theorem change_alike {f : Key → Key} (id : NodeId) (edit : Key.Edit f) (h : s.Moved r r' t) :
    Alike r r' (change id f) (change id f) s t := by
  refine (node_together id h).andThen fun old old' s t h moved => ?_
  obtain ⟨key, moved, rfl⟩ := moved
  have edited := moved.edit edit
  exact (setNode_alike id h ⟨f key, edited, rfl⟩).thenAll fun _ _ _ h =>
    .ite (handOver_alike h edited) (.of_pure h rfl)

theorem emit_alike (id : NodeId) (h : s.Moved r r' t) : Alike r r' (emit id) (emit id) s t := by
  refine (node_together id h).andThen fun old old' s t h moved => ?_
  obtain ⟨key, moved, rfl⟩ := moved
  have emitted : Node.Moved r r' { old with emitted := true }
      { key, holders := old.holders, emitted := true } := ⟨key, moved, rfl⟩
  exact (setNode_alike id h emitted).thenAll fun _ _ _ h => handOver_alike h moved

theorem openNode_alike {k k' : Key} (h : s.Moved r r' t) (moved : k.Moved r r' k') :
    Alike r r' (openNode k) (openNode k') s t :=
  .ok { h with nodes := (h.nodes.push moved).2 } (h.nodes.push moved).1

theorem closeNode_alike (h : s.Moved r r' t) : Alike r r' closeNode closeNode s t := by
  have popped := h.nodes.pop?
  refine .of_get_bind ?_
  generalize s.nodes.pop? = nodes at popped ⊢
  generalize t.nodes.pop? = nodes' at popped ⊢
  cases popped with
  | none => exact .of_throw h (.same _)
  | some moved => exact .of_set { h with nodes := moved }

theorem closePrevious_alike (h : s.Moved r r' t) : Alike r r' closePrevious closePrevious s t :=
  (top_alike h).thenAll fun id _ _ h => .of_modify_bind <|
    closeNode_alike { h with nodes := h.nodes.remember id }

theorem takeOrder_alike (h : s.Moved r r' t) : Alike r r' takeOrder takeOrder s t :=
  .ok { h with nextOrder := congrArg (· + 1) h.nextOrder } h.nextOrder

theorem drainComments_alike (h : s.Moved r r' t) : Alike r r' drainComments drainComments s t :=
  .ok { h with comments := rfl } (congrArg CommentQueue.contents h.comments)

/-- The waiting comments go to a node. -/
theorem drainTo_alike {f : List BlockEntry → Key → Key} (id : NodeId)
    (edit : ∀ block, Key.Edit (f block)) (h : s.Moved r r' t) :
    let drain := do
      let block ← drainComments
      if !block.isEmpty then change id (f block)
    Alike r r' drain drain s t :=
  (drainComments_alike h).thenAll fun block _ _ h =>
    .ite (change_alike id (edit block) h) (.of_pure h rfl)

theorem leadWithComments_alike (id : NodeId) (h : s.Moved r r' t) :
    Alike r r' (leadWithComments id) (leadWithComments id) s t :=
  drainTo_alike id .leading h

theorem settlePrevious_alike (h : s.Moved r r' t) :
    Alike r r' settlePrevious settlePrevious s t := by
  refine .of_get_bind ?_
  rw [h.nodes.previous, h.comments]
  split
  · next id comment rest _ _ =>
    exact .of_set_bind (change_alike id (.inline comment) { h with comments := rfl })
  · exact .of_pure h rfl

theorem setLocation_alike (location : Location) (h : s.Moved r r' t) :
    Alike r r' (setLocation location) (setLocation location) s t :=
  .of_modify { h with location := rfl }

/-! ## Keys -/

variable {o o' : Options} {n n' : Name}

theorem setDraft_alike (h : s.Moved r r' t) (names : Name.Moved r r' n n') :
    Alike r r' (setDraft n) (setDraft n') s t :=
  .of_modify { h with draft := .some names }

theorem draftBase_together (h : s.Moved o.root o'.root t) :
    Together o.root o'.root (draftBase o) (draftBase o') s t (Name.Moved o.root o'.root) := by
  refine .of_get_bind ?_
  rw [h.tableHeader, Scope.isEmpty_moved h.scopes]
  exact .ite (.of_pure h (.root o.root o'.root)) (topName_together h)

theorem startDraft_alike (h : s.Moved o.root o'.root t) :
    Alike o.root o'.root (startDraft o) (startDraft o') s t :=
  (draftBase_together h).andThen fun _ _ _ _ h names => setDraft_alike h names

theorem extendDraft_alike (scalar : Scalar) (h : s.Moved r r' t) :
    Alike r r' (extendDraft scalar) (extendDraft scalar) s t := by
  refine (setLocation_alike _ h).thenAll fun _ s t h => ?_
  refine (lift_alike _ h).thenAll fun segments s t h => .of_get_bind ?_
  have draft := h.draft
  generalize s.draft = name at draft ⊢
  generalize t.draft = name' at draft ⊢
  cases draft with
  | none => exact .of_throw h (.same _)
  | some names => exact setDraft_alike h (names.join segments)

theorem placeTable_together (h : s.Moved o.root o'.root t)
    (names : Name.Moved o.root o'.root n n') :
    Together o.root o'.root (placeTable o n) (placeTable o' n') s t
      (Name.Moved o.root o'.root) := by
  refine .of_get_bind <| (lift_together h (Scope.place_outcome h.scopes names)).andThen ?_
  intro placement placement' s t h places
  cases places with
  | outside => exact .of_pure h names
  | inside placed => exact .of_pure h placed
  | arrayItself => exact .of_throw h (.tableIsTableArray names)

theorem finishDraft_together (h : s.Moved o.root o'.root t) :
    Together o.root o'.root (finishDraft o) (finishDraft o') s t (Name.Moved o.root o'.root) := by
  have draft := h.draft
  refine .of_get_bind ?_
  generalize s.draft = name at draft ⊢
  generalize t.draft = name' at draft ⊢
  cases draft with
  | none => exact .of_throw h (.same _)
  | some names =>
    have read : State.Moved o.root o'.root { s with draft := none, tableHeader := false }
        { t with draft := none, tableHeader := false } :=
      { h with draft := .none, tableHeader := rfl }
    refine .of_set_bind ?_
    rw [h.tableHeader]
    exact .ite (placeTable_together read names) (.of_pure read names)

theorem checkFree_alike (h : s.Moved o.root o'.root t) (names : Name.Moved o.root o'.root n n') :
    Alike o.root o'.root (checkFree o n) (checkFree o' n') s t := by
  refine .of_get_bind ?_
  rw [State.keys, State.keys, h.keys.isFree_eq names]
  exact require_alike _ h (.duplicateName names)

theorem takeComments_alike (id : NodeId) (h : s.Moved r r' t) :
    Alike r r' (takeComments id) (takeComments id) s t := by
  refine .of_get_bind ?_
  rw [h.keyTakesComments]
  exact .ite (leadWithComments_alike id h) (.of_pure h rfl)

theorem numberKey_alike (id : NodeId) (h : s.Moved r r' t) :
    Alike r r' (numberKey id) (numberKey id) s t :=
  (takeOrder_alike h).thenAll fun order _ _ h => change_alike id (.order order) h

theorem endKey_alike (h : s.Moved o.root o'.root t) :
    Alike o.root o'.root (endKey o) (endKey o') s t :=
  (finishDraft_together h).andThen fun _ _ _ _ h names =>
    (checkFree_alike h names).thenAll fun _ _ _ h =>
      (openNode_alike h (.empty names)).thenAll fun id _ _ h =>
        (takeComments_alike id h).thenAll fun _ _ _ h => numberKey_alike id h

/-! ## Values -/

theorem dropHeld_alike (h : s.Moved r r' t) : Alike r r' dropHeld dropHeld s t :=
  .of_modify { h with held := rfl }

theorem holdValue_alike (scalar : Scalar) (h : s.Moved r r' t) :
    Alike r r' (holdValue scalar) (holdValue scalar) s t :=
  (setLocation_alike _ h).thenAll fun _ _ _ h => (lift_alike _ h).thenAll fun _ _ _ h =>
    .of_modify { h with held := rfl }

theorem storeValue_alike (scalar : Scalar) (h : s.Moved r r' t) :
    Alike r r' (storeValue scalar) (storeValue scalar) s t := by
  unfold storeValue
  cases stored : storedForm scalar with
  | error cause => exact .of_throw h (.same cause)
  | ok form =>
    have edit : Key.Edit (·.store form.2 form.1 scalar.spelling) := .value scalar _ _ stored
    exact (top_alike h).thenAll fun id _ _ h =>
      (change_alike id edit h).thenAll fun _ _ _ h => emit_alike id h

theorem endValue_alike (h : s.Moved r r' t) : Alike r r' endValue endValue s t := by
  have stored : Alike r r' storeHeld storeHeld s t := by
    refine .of_get_bind ?_
    rw [h.held]
    split
    · exact .of_pure h rfl
    · next scalar _ => exact (dropHeld_alike h).thenAll fun _ _ _ h => storeValue_alike scalar h
  exact stored.thenAll fun _ _ _ h => closePrevious_alike h

/-! ## Tables -/

theorem replaceTable_alike (h : s.Moved r r' t) : Alike r r' replaceTable replaceTable s t := by
  refine .of_get_bind ?_
  rw [h.inTable]
  exact .ite (closeNode_alike h) (.of_modify { h with inTable := rfl })

theorem startTable_alike (h : s.Moved o.root o'.root t) :
    Alike o.root o'.root (startTable o) (startTable o') s t :=
  (replaceTable_alike h).thenAll fun _ _ _ h => .of_modify_bind <|
    startDraft_alike { h with tableHeader := rfl }

theorem emitAs_alike (c : Construct) (h : s.Moved r r' t) :
    Alike r r' (emitAs c) (emitAs c) s t :=
  (top_alike h).thenAll fun id _ _ h =>
    (change_alike id (.construct c) h).thenAll fun _ _ _ h => emit_alike id h

theorem leaveTable_alike (h : s.Moved r r' t) : Alike r r' leaveTable leaveTable s t := by
  refine .of_get_bind ?_
  rw [h.inTable]
  refine .ite ?_ (.of_pure h rfl)
  exact (closeNode_alike h).thenAll fun _ _ _ h => .of_modify { h with inTable := rfl }

theorem leaveElement_alike (h : s.Moved r r' t) : Alike r r' leaveElement leaveElement s t := by
  refine .of_get_bind ?_
  rw [Scope.isEmpty_moved h.scopes]
  exact .ite (closeNode_alike h) (.of_pure h rfl)

theorem startTableArray_alike (h : s.Moved o.root o'.root t) :
    Alike o.root o'.root (startTableArray o) (startTableArray o') s t :=
  (leaveTable_alike h).thenAll fun _ _ _ h => (leaveElement_alike h).thenAll fun _ _ _ h =>
    (setDraft_alike h (.root o.root o'.root)).thenAll fun _ _ _ h =>
      .of_modify { h with keyTakesComments := rfl }

theorem enterScope_alike (h : s.Moved o.root o'.root t) (names : Name.Moved o.root o'.root n n') :
    Alike o.root o'.root (enterScope o n) (enterScope o' n') s t :=
  .of_get_bind <| (lift_together h (Scope.enter_outcome h.keys h.scopes names)).andThen
    fun _ _ _ _ _ scopes => .of_set { h with scopes }

theorem scopes_ne_nil_of_enterScope {s' : State} (ran : (enterScope o n).run s = .ok () s') :
    s'.scopes ≠ [] := by
  simp only [enterScope, EStateM.run_bind, EStateM.run_get] at ran
  cases entered : Scope.enter s.keys o.root n s.scopes with
  | error cause => rw [entered] at ran; cases ran
  | ok scopes =>
    rw [entered] at ran
    cases ran
    exact Scope.enter_ne_nil entered

theorem dropHeader_alike (h : s.Moved r r' t) : Alike r r' dropHeader dropHeader s t :=
  (closeNode_alike h).thenAll fun _ _ _ h =>
    .of_modify { h with nextOrder := congrArg (· - 1) h.nextOrder }

theorem scopes_of_dropHeader {s' : State} (ran : dropHeader.run s = .ok () s') :
    s'.scopes = s.scopes := by
  simp only [dropHeader, closeNode, EStateM.run_bind, EStateM.run_get] at ran
  cases popped : s.nodes.pop? with
  | none => rw [popped] at ran; cases ran
  | some nodes =>
    rw [popped] at ran
    cases ran
    rfl

theorem recordTableArray_alike (index : Nat) (h : s.Moved r r' t) (names : Name.Moved r r' n n') :
    Alike r r' (recordTableArray n index) (recordTableArray n' index) s t := by
  refine .of_get_bind ?_
  rw [Output.has, Output.has, h.keys.isSome_eq names]
  refine .ite ?_ ?_
  · exact .of_modify { h with keys := h.keys.adjust names (.element index) }
  · refine (takeOrder_alike h).thenAll fun order _ _ h => ?_
    have moved := Key.Moved.empty names
    exact handOver_alike h (((moved.edit (.construct .tableArray)).edit (.element index)).edit
      (.order order))

theorem recordElement_together (h : s.Moved o.root o'.root t) (open_ : s.scopes ≠ []) :
    Together o.root o'.root (recordElement o) (recordElement o') s t
      (Name.Moved o.root o'.root) := by
  refine .of_get_bind ?_
  dsimp only
  rw [Scope.index_moved h.scopes]
  refine (lift_together h (Scope.element_children h.scopes open_)).andThen ?_
  rintro _ _ s t h ⟨array, array', segment, names, rfl, rfl⟩
  rw [Name.parent_child, Name.parent_child]
  exact (recordTableArray_alike _ h names).thenAll fun _ _ _ h => .of_pure h (names.child segment)

theorem openElement_alike (h : s.Moved r r' t) (names : Name.Moved r r' n n') :
    Alike r r' (openElement n) (openElement n') s t :=
  (openNode_alike h (.empty names)).thenAll fun id _ _ h =>
    (leadWithComments_alike id h).thenAll fun _ _ _ h => emit_alike id h

theorem endTableArray_alike (h : s.Moved o.root o'.root t) :
    Alike o.root o'.root (endTableArray o) (endTableArray o') s t := by
  refine (topName_together h).andThen fun name name' s t h names => ?_
  rw [names.isBelow_eq (.root o.root o'.root)]
  refine (require_alike _ h (.same _)).thenAll fun _ s t h => ?_
  -- The header opens an array. Without one, the element would be the root, and roots differ in
  -- whether they have a name above them.
  refine (enterScope_alike h names).bind fun _ _ s t entered h _ => ?_
  refine (dropHeader_alike h).bind fun _ _ s' t dropped h _ => ?_
  have open_ : s'.scopes ≠ [] := by
    rw [scopes_of_dropHeader dropped]
    exact scopes_ne_nil_of_enterScope entered
  refine (recordElement_together h open_).andThen fun _ _ _ _ h names => ?_
  exact (openElement_alike h names).thenAll fun _ _ _ h =>
    .of_modify { h with keyTakesComments := rfl }

/-! ## Arrays -/

theorem pushArray_alike (id : NodeId) (ownNode : Bool) (h : s.Moved r r' t) :
    Alike r r' (pushArray id ownNode) (pushArray id ownNode) s t :=
  .of_modify_bind <|
    change_alike id .array { h with arrays := congrArg (List.cons { ownNode }) h.arrays }

theorem openInnerArray_alike (h : s.Moved r r' t) (names : Name.Moved r r' n n') :
    Alike r r' (openInnerArray n) (openInnerArray n') s t :=
  (takeOrder_alike h).thenAll fun order _ _ h =>
    openNode_alike h ((Key.Moved.empty (names.child _)).edit (.order order))

theorem startArray_alike (h : s.Moved r r' t) : Alike r r' startArray startArray s t := by
  refine (top_alike h).thenAll fun id _ _ h => ?_
  refine (node_together id h).andThen fun _ _ s t h moved => ?_
  obtain ⟨key, moved, rfl⟩ := moved
  dsimp only
  rw [moved.arrayMarker_eq]
  split
  · exact pushArray_alike id false h
  · refine (require_alike _ h (.same _)).thenAll fun _ _ _ h => ?_
    exact (openInnerArray_alike h moved.name).thenAll fun id _ _ h => pushArray_alike id true h

theorem settleElement_alike (level : ArrayLevel) (h : s.Moved r r' t) :
    Alike r r' (settleElement level) (settleElement level) s t :=
  .ite (settlePrevious_alike h) (.of_pure h rfl)

theorem endArray_alike (h : s.Moved r r' t) : Alike r r' endArray endArray s t := by
  refine .of_get_bind ?_
  rw [h.arrays]
  split
  · exact .of_throw h (.same _)
  · next level _ _ =>
    refine (settleElement_alike level h).thenAll fun _ _ _ h => ?_
    refine (top_alike h).thenAll fun id _ _ h => ?_
    refine (drainTo_alike id .trailing h).thenAll fun _ s t h => .of_modify_bind ?_
    have ended : State.Moved r r' { s with arrays := s.arrays.tail }
        { t with arrays := t.arrays.tail } := { h with arrays := congrArg List.tail h.arrays }
    refine (emit_alike id ended).thenAll fun _ _ _ h => ?_
    exact .ite (closeNode_alike h) (.of_pure h rfl)

theorem openNextElement_alike (index : Nat) (h : s.Moved r r' t) :
    Alike r r' (openNextElement index) (openNextElement index) s t := by
  refine (top_alike h).thenAll fun array _ _ h => ?_
  refine (node_together array h).andThen fun _ _ s t h moved => ?_
  obtain ⟨_, moved, rfl⟩ := moved
  exact (change_alike array (.element index) h).thenAll fun _ _ _ h =>
    openNode_alike h (.empty (moved.name.child _))

theorem startElement_alike (limit : o.maxArrayElements = o'.maxArrayElements)
    (h : s.Moved r r' t) : Alike r r' (startElement o) (startElement o') s t := by
  refine .of_get_bind ?_
  rw [h.arrays, limit]
  split
  · exact .of_throw h (.same _)
  · next level outer _ =>
    refine (require_alike _ h (.same _)).thenAll fun _ _ _ h => ?_
    refine (settleElement_alike level h).thenAll fun _ _ _ h => ?_
    refine (openNextElement_alike level.next h).thenAll fun id _ _ h => .of_modify_bind ?_
    exact leadWithComments_alike id { h with arrays := rfl }

/-! ## The document and its comments -/

theorem startDocument_alike (h : s.Moved r r' t) :
    Alike r r' startDocument startDocument s t := by
  refine .of_get_bind ?_
  rw [h.started]
  exact (require_alike _ h (.same _)).thenAll fun _ _ _ h => .of_modify { h with started := rfl }

theorem leadRoot_alike (block : List BlockEntry) (h : s.Moved o.root o'.root t) :
    Alike o.root o'.root (leadRoot o block) (leadRoot o' block) s t := by
  have root := Name.Moved.root o.root o'.root
  refine .of_get_bind ?_
  rw [Output.has, Output.has, h.keys.isSome_eq root]
  refine .ite ?_ ?_
  · exact .of_modify { h with keys := h.keys.adjust root (.leading block) }
  · exact handOver_alike h ((Key.Moved.empty root).edit (.leading block))

theorem endDocument_alike (h : s.Moved o.root o'.root t) :
    Alike o.root o'.root (endDocument o) (endDocument o') s t := by
  refine .of_get_bind ?_
  rw [h.comments]
  exact .ite ((drainComments_alike h).thenAll fun block _ _ h => leadRoot_alike block h)
    (.of_pure h rfl)

theorem queueComment_alike (scalar : Scalar) (h : s.Moved r r' t) :
    Alike r r' (queueComment scalar) (queueComment scalar) s t :=
  (setLocation_alike _ h).thenAll fun _ _ _ h =>
    (require_alike _ h (.same _)).thenAll fun _ _ _ h =>
      .of_modify { h with comments := congrArg (CommentQueue.push · _) h.comments }

theorem queueBlankLine_alike (h : s.Moved r r' t) :
    Alike r r' queueBlankLine queueBlankLine s t := by
  refine .of_get_bind ?_
  rw [h.comments]
  exact (lift_alike _ h).thenAll fun comments _ _ _ => .of_set { h with comments := rfl }

theorem takeLineComment_alike (site : CommentSite) (h : s.Moved r r' t) :
    Alike r r' (takeLineComment site) (takeLineComment site) s t := by
  refine .of_get_bind ?_
  rw [h.comments]
  refine (lift_alike _ h).thenAll fun taken _ _ h' => ?_
  split
  · exact .of_pure h' rfl
  · exact .of_set_bind (.of_pure { h with comments := rfl } rfl)

theorem commentPair_alike (h : s.Moved r r' t) : Alike r r' commentPair commentPair s t := by
  refine (takeLineComment_alike .pair h).thenAll fun comment s t h => ?_
  split
  · exact .of_pure h rfl
  · next comment =>
    refine .of_get_bind ?_
    rw [h.nodes.previous]
    split
    · exact .of_throw h (.same _)
    · next id _ => exact change_alike id (.inline comment) h

theorem commentHeader_alike (h : s.Moved r r' t) :
    Alike r r' commentHeader commentHeader s t := by
  refine (takeLineComment_alike .header h).thenAll fun comment s t h => ?_
  split
  · exact .of_pure h rfl
  · next comment =>
    exact (top_alike h).thenAll fun id _ _ h => change_alike id (.inline comment) h

theorem reject_alike (message : String) (location : Location) (h : s.Moved r r' t) :
    Alike r r' (reject message location) (reject message location) s t :=
  (setLocation_alike location h).thenAll fun _ _ _ h => .of_throw h (.same _)

end Builder

/-! ## Steps -/

variable {r r' : Name} {o o' : Options} {s t : State}

open Builder in
/-- A step does the same below both roots. -/
theorem Event.step_alike (e : Event) (limit : o.maxArrayElements = o'.maxArrayElements)
    (h : s.Moved o.root o'.root t) : Alike o.root o'.root (e.step o) (e.step o') s t := by
  cases e with
  | documentStart => exact startDocument_alike h
  | documentEnd => exact endDocument_alike h
  | keyStart => exact startDraft_alike h
  | keyEnd => exact endKey_alike h
  | keySegment scalar => exact extendDraft_alike scalar h
  | pairEnd => exact endValue_alike h
  | pairComment => exact commentPair_alike h
  | headerComment => exact commentHeader_alike h
  | value scalar => exact holdValue_alike scalar h
  | tableStart => exact startTable_alike h
  | tableEnd => exact emitAs_alike .table h
  | tableArrayStart => exact startTableArray_alike h
  | tableArrayEnd => exact endTableArray_alike h
  | arrayStart => exact startArray_alike h
  | arrayEnd => exact endArray_alike h
  | emptyArray => exact (startArray_alike h).thenAll fun _ _ _ h => endArray_alike h
  | elementStart => exact startElement_alike limit h
  | elementEnd => exact endValue_alike h
  | inlineTableStart => exact emitAs_alike .inlineTable h
  | emptyInlineTable => exact emitAs_alike .inlineTable h
  | inlineTableEnd => exact dropHeld_alike h
  | comment scalar => exact queueComment_alike scalar h
  | blankLine => exact queueBlankLine_alike h
  | syntaxError message location => exact reject_alike message location h

/-! ## Events -/

namespace State

/-- Nothing read yet, from sets that have the same below the roots. -/
theorem moved_start {keys keys' : KeySet} (h : keys.Moved o.root o'.root keys') :
    (start o keys).Moved o.root o'.root (start o' keys') where
  nodes := .start o.root o'.root
  scopes := .nil
  draft := .none
  keys := h
  fault := .none
  arrays := rfl
  comments := rfl
  held := rfl
  nextOrder := rfl
  inTable := rfl
  tableHeader := rfl
  keyTakesComments := rfl
  started := rfl
  location := rfl

namespace Moved

/-- An event raises the same fault in both states, or none. -/
theorem feed (h : s.Moved o.root o'.root t) (limit : o.maxArrayElements = o'.maxArrayElements)
    (e : Event) :
    (s.feed o e).1.Moved o.root o'.root (t.feed o' e).1 ∧
      Option.Rel (Fault.Moved o.root o'.root) (s.feed o e).2 (t.feed o' e).2 := by
  have step := e.step_alike limit h
  have fault := h.fault
  unfold State.feed
  unfold Builder.Alike Builder.Together at step
  generalize s.fault = stopped at fault ⊢
  generalize t.fault = stopped' at fault ⊢
  cases fault with
  | some _ => exact ⟨h, .none⟩
  | none =>
    generalize (e.step o).run s = ended at step ⊢
    generalize (e.step o').run t = ended' at step ⊢
    cases step with
    | ok after _ => exact ⟨after, .none⟩
    | @error cause cause' s t after moved =>
      have raised : Fault.Moved o.root o'.root ⟨cause, some s.location⟩ ⟨cause', some t.location⟩ :=
        ⟨cause', moved, by rw [after.location]⟩
      exact ⟨{ after with fault := .some raised }, .some raised⟩

theorem feedAll (h : s.Moved o.root o'.root t) (limit : o.maxArrayElements = o'.maxArrayElements)
    (events : List Event) : (s.feedAll o events).Moved o.root o'.root (t.feedAll o' events) := by
  induction events generalizing s t with
  | nil => exact h
  | cons e rest ih => exact ih (h.feed limit e).1

/-- In the end there are the same keys below both roots, or the same fault. -/
theorem finish (h : s.Moved r r' t) :
    Outcome (Fault.Moved r r') (KeySet.Moved r r') s.finish t.finish := by
  have keys := h.keys
  have fault := h.fault
  unfold State.finish State.close State.keys
  dsimp only
  generalize s.fault = stopped at fault ⊢
  generalize t.fault = stopped' at fault ⊢
  cases fault with
  | none => exact .ok keys
  | some moved => exact .error moved

end Moved

end State

end TomlSemantics
