import TomlSemantics.Proofs.Integrity

/-!
# States after any events

Every action leaves a proper state, wherever it stops. So every state that events lead to is proper,
and no event brings about a cause that says that something in the reading itself went wrong.

1. One lemma for each action: with keys, values, tables, arrays and comments.
2. `Event.step_keeps`: so for every event.
3. `State.Proper.feed`, `State.proper_feedAll`: so for all events.
-/

namespace TomlSemantics

namespace Builder

variable {o : Options} {keys : KeySet} {s : State} {id : NodeId} {name : Name}

/-! ### Keys -/

theorem setDraft_keeps (h : s.Proper o keys) (within : name.isWithin o.root = true) :
    Keeps o keys (setDraft name) s :=
  .of_modify { h with draft := fun _ same => Option.some.inj same ▸ within }

theorem draftBase_yields (h : s.Proper o keys) :
    Yields o keys (draftBase o) s fun name _ => name.isWithin o.root = true :=
  .of_get_bind <| .ite (fun _ => .of_pure h o.root.isWithin_refl) fun _ =>
    (topName_yields h).imp fun _ _ read => read.2

theorem startDraft_keeps (h : s.Proper o keys) : Keeps o keys (startDraft o) s :=
  (draftBase_yields h).bind fun _ _ h within => setDraft_keeps h within

theorem extendDraft_keeps (scalar : Scalar) (h : s.Proper o keys) :
    Keeps o keys (extendDraft scalar) s := by
  refine (setLocation_keeps _ h).andThen fun _ s h => ?_
  refine (lift_yields h (keySegments_unbroken scalar)).andThen fun segments s h => ?_
  refine .of_get_bind ?_
  split
  · next name draft =>
    exact setDraft_keeps h (Name.isWithin_trans (name.isWithin_join segments) (h.draft name draft))
  · exact .of_throw h rfl

theorem placeTable_yields (h : s.Proper o keys) (within : name.isWithin o.root = true) :
    Yields o keys (placeTable o name) s fun placed _ => placed.isWithin o.root = true := by
  have sound : Unbroken (Scope.place o.root name s.scopes) := by
    obtain ⟨placement, found⟩ := h.scopes.place_eq_ok name
    rw [found]
    trivial
  refine .of_get_bind <| (lift_yields h sound).bind fun placement s' h' read => ?_
  obtain ⟨rfl, found⟩ := read
  cases placement with
  | outside => exact .of_pure h within
  | inside placed => exact .of_pure h (h.scopes.isWithin_of_place found)
  | arrayItself => exact .of_throw h rfl

theorem finishDraft_yields (h : s.Proper o keys) :
    Yields o keys (finishDraft o) s fun name _ => name.isWithin o.root = true := by
  refine .of_get_bind ?_
  split
  · exact .of_throw h rfl
  · next name draft =>
    have within := h.draft name draft
    have h' : ({ s with draft := none, tableHeader := false } : State).Proper o keys :=
      { h with draft := nofun }
    exact .of_set_bind <| .ite (fun _ => placeTable_yields h' within) fun _ => .of_pure h' within

theorem checkFree_keeps (h : s.Proper o keys) : Keeps o keys (checkFree o name) s :=
  .of_get_bind (require_yields h rfl).keeps

theorem takeComments_yields (h : s.Proper o keys) (held : s.Holds id) :
    Yields o keys (takeComments id) s fun _ s' => s'.Holds id :=
  .of_get_bind <| .ite (fun _ => leadWithComments_yields h held) fun _ => .of_pure h held

theorem numberKey_keeps (h : s.Proper o keys) (held : s.Holds id) :
    Keeps o keys (numberKey id) s :=
  (takeOrder_yields h).bind fun order _ h same =>
    (change_yields h (held.of_nodes same) (.order order)).keeps

theorem endKey_keeps (h : s.Proper o keys) : Keeps o keys (endKey o) s :=
  (finishDraft_yields h).bind fun name _ h within => (checkFree_keeps h).andThen fun _ _ h =>
    (openNode_yields h (.empty name within)).bind fun _ _ h held =>
      (takeComments_yields h held).bind fun _ _ h held => numberKey_keeps h held

/-! ### Values -/

theorem dropHeld_keeps (h : s.Proper o keys) : Keeps o keys dropHeld s := .of_modify { h with }

theorem holdValue_keeps (scalar : Scalar) (h : s.Proper o keys) :
    Keeps o keys (holdValue scalar) s :=
  (setLocation_keeps _ h).andThen fun _ _ h =>
    (lift_yields h (checkValue_unbroken scalar)).andThen fun _ _ h => .of_modify { h with }

theorem storeValue_keeps (scalar : Scalar) (h : s.Proper o keys) :
    Keeps o keys (storeValue scalar) s := by
  refine (lift_yields h (storedForm_unbroken scalar)).bind fun form s h read => ?_
  refine .top_bind h fun id open_ => ?_
  have edit : Key.Edit (·.store form.2 form.1 scalar.spelling) := .value scalar _ _ read.2
  exact (change_yields h (State.holds_of_mem_stack open_) edit).bind fun _ _ h held =>
    emit_keeps h held

theorem endValue_keeps (h : s.Proper o keys) : Keeps o keys endValue s := by
  have stored : Keeps o keys storeHeld s := by
    refine .of_get_bind ?_
    split
    · exact .of_pure h trivial
    · exact (dropHeld_keeps h).andThen fun _ _ h => storeValue_keeps _ h
  exact stored.andThen fun _ _ h => closePrevious_keeps h

/-! ### Tables -/

theorem replaceTable_keeps (h : s.Proper o keys) : Keeps o keys replaceTable s :=
  .of_get_bind <| .ite (fun _ => closeNode_keeps h) fun _ => .of_modify { h with }

theorem startTable_keeps (h : s.Proper o keys) : Keeps o keys (startTable o) s :=
  (replaceTable_keeps h).andThen fun _ _ h => .of_modify_bind (startDraft_keeps { h with })

theorem emitAs_keeps (c : Construct) (h : s.Proper o keys) : Keeps o keys (emitAs c) s :=
  .top_bind h fun _ open_ =>
    (change_yields h (State.holds_of_mem_stack open_) (.construct c)).bind fun _ _ h held =>
      emit_keeps h held

theorem leaveTable_keeps (h : s.Proper o keys) : Keeps o keys leaveTable s :=
  .of_get_bind <| .ite
    (fun _ => (closeNode_keeps h).andThen fun _ _ h => .of_modify { h with })
    fun _ => .of_pure h trivial

theorem leaveElement_keeps (h : s.Proper o keys) : Keeps o keys leaveElement s :=
  .of_get_bind <| .ite (fun _ => closeNode_keeps h) fun _ => .of_pure h trivial

theorem startTableArray_keeps (h : s.Proper o keys) : Keeps o keys (startTableArray o) s :=
  (leaveTable_keeps h).andThen fun _ _ h => (leaveElement_keeps h).andThen fun _ _ h =>
    (setDraft_keeps h o.root.isWithin_refl).andThen fun _ _ h => .of_modify { h with }

/-- An array is open after its header. -/
theorem enterScope_yields (h : s.Proper o keys) (below : name.isBelow o.root = true) :
    Yields o keys (enterScope o name) s fun _ s' => s'.scopes ≠ [] := by
  obtain ⟨index, outer, entered, nested⟩ := h.scopes.enter_eq_ok below s.keys
  refine .of_get_bind ?_
  rw [entered]
  exact ⟨{ h with scopes := nested }, List.cons_ne_nil _ _⟩

theorem dropHeader_yields (h : s.Proper o keys) :
    Yields o keys dropHeader s fun _ s' => s'.scopes = s.scopes :=
  (closeNode_yields h).bind fun _ _ h same => ⟨{ h with }, same⟩

theorem recordTableArray_keeps (index : Nat) (h : s.Proper o keys)
    (within : name.isWithin o.root = true) : Keeps o keys (recordTableArray name index) s := by
  refine .of_get_bind <| .ite (fun _ => ?_) fun _ => ?_
  · have edited := h.output.tail (.adjust name _ within (.element index))
    exact .of_modify { h with output := edited }
  · refine (takeOrder_yields h).andThen fun order _ h => ?_
    have built := Key.Built.edit (.order order) <| .edit (.element index) <|
      .edit (.construct .tableArray) (.empty name within)
    exact ⟨{ h with output := h.output.tail (.put _ built) }, trivial⟩

/-- Where an array is open, its current element lies below a key. -/
theorem recordElement_yields (h : s.Proper o keys) (open_ : s.scopes ≠ []) :
    Yields o keys (recordElement o) s fun element _ => element.isWithin o.root = true := by
  -- The root may have no name above it, but an element has the name of its array.
  obtain ⟨scope, outer, scopes⟩ := List.exists_cons_of_ne_nil open_
  have nested := h.scopes
  rw [scopes] at nested
  obtain ⟨container, found, element⟩ := nested.element_child
  have within := Scope.Nested.isWithin_container nested.2 found
  have sound : Unbroken (Scope.element o.root s.scopes) := by
    rw [scopes, element]
    trivial
  refine .of_get_bind <| (lift_yields h sound).bind fun name s' h' read => ?_
  obtain ⟨rfl, same⟩ := read
  rw [scopes, element] at same
  cases same
  rw [Name.parent_child]
  refine (recordTableArray_keeps _ h within).andThen fun _ _ h => ?_
  exact .of_pure h (Name.isWithin_trans (Name.isWithin_join _ _) within)

theorem openElement_keeps (h : s.Proper o keys) (within : name.isWithin o.root = true) :
    Keeps o keys (openElement name) s :=
  (openNode_yields h (.empty name within)).bind fun _ _ h held =>
    (leadWithComments_yields h held).bind fun _ _ h held => emit_keeps h held

theorem endTableArray_keeps (h : s.Proper o keys) : Keeps o keys (endTableArray o) s := by
  -- The header opens an array, and it is still open when its element is recorded.
  refine (topName_yields h).andThen fun name s h => ?_
  refine (require_yields h rfl).bind fun _ s h read => ?_
  refine (enterScope_yields h read.2).bind fun _ s h open_ => ?_
  refine (dropHeader_yields h).bind fun _ s h same => ?_
  refine (recordElement_yields h (same ▸ open_)).bind fun element s h within => ?_
  exact (openElement_keeps h within).andThen fun _ _ h => .of_modify { h with }

/-! ### Arrays -/

theorem pushArray_keeps (ownNode : Bool) (h : s.Proper o keys) (held : s.Holds id) :
    Keeps o keys (pushArray id ownNode) s := by
  have h' : ({ s with arrays := { ownNode } :: s.arrays } : State).Proper o keys := { h with }
  exact .of_modify_bind (change_yields h' held .array).keeps

theorem openInnerArray_yields (h : s.Proper o keys) (within : name.isWithin o.root = true) :
    Yields o keys (openInnerArray name) s fun id s' => s'.Holds id :=
  (takeOrder_yields h).andThen fun order _ h => openNode_yields h <| .edit (.order order) <|
    .empty _ (Name.isWithin_trans (name.isWithin_join _) within)

theorem startArray_keeps (h : s.Proper o keys) : Keeps o keys startArray s := by
  refine .top_bind h fun id open_ => ?_
  have held := State.holds_of_mem_stack open_
  refine .node_bind h held fun old found => ?_
  have within := (h.nodes.built id old found).isWithin
  dsimp only
  split
  · exact pushArray_keeps false h held
  · exact (require_yields h rfl).bind fun _ s' h' read => by
      obtain ⟨rfl, -⟩ := read
      exact (openInnerArray_yields h within).bind fun _ _ h held => pushArray_keeps true h held

theorem settleElement_keeps (level : ArrayLevel) (h : s.Proper o keys) :
    Keeps o keys (settleElement level) s :=
  .ite (fun _ => settlePrevious_keeps h) fun _ => .of_pure h trivial

theorem endArray_keeps (h : s.Proper o keys) : Keeps o keys endArray s := by
  refine .of_get_bind ?_
  split
  · exact .of_throw h rfl
  · next level _ _ =>
    refine (settleElement_keeps level h).andThen fun _ s h => .top_bind h fun id open_ => ?_
    have held := State.holds_of_mem_stack open_
    refine (drainTo_yields h held .trailing).bind fun _ s h held => .of_modify_bind ?_
    have h' : ({ s with arrays := s.arrays.tail } : State).Proper o keys := { h with }
    refine (emit_keeps h' held).andThen fun _ s h => ?_
    exact .ite (fun _ => closeNode_keeps h) fun _ => .of_pure h trivial

theorem openNextElement_yields (index : Nat) (h : s.Proper o keys) :
    Yields o keys (openNextElement index) s fun id s' => s'.Holds id := by
  refine .top_bind h fun array open_ => ?_
  have held := State.holds_of_mem_stack open_
  refine .node_bind h held fun old found => ?_
  have within := (h.nodes.built array old found).isWithin
  refine (change_yields h held (.element index)).andThen fun _ s h => ?_
  exact openNode_yields h (.empty _ (Name.isWithin_trans (Name.isWithin_join _ _) within))

theorem startElement_keeps (h : s.Proper o keys) : Keeps o keys (startElement o) s := by
  refine .of_get_bind ?_
  split
  · exact .of_throw h rfl
  · next level outer _ =>
    refine (require_yields h rfl).andThen fun _ s h => ?_
    refine (settleElement_keeps level h).andThen fun _ s h => ?_
    refine (openNextElement_yields level.next h).bind fun id s h held => .of_modify_bind ?_
    have counted : State.Proper o keys { s with
        arrays := { level with next := level.next + 1 } :: outer } := { h with }
    exact (leadWithComments_yields counted held).keeps

/-! ### The document and its comments -/

theorem startDocument_keeps (h : s.Proper o keys) : Keeps o keys startDocument s :=
  .of_get_bind <| (require_yields h rfl).andThen fun _ _ h => .of_modify { h with }

theorem leadRoot_keeps (block : List BlockEntry) (h : s.Proper o keys) :
    Keeps o keys (leadRoot o block) s := by
  have within := o.root.isWithin_refl
  refine .of_get_bind <| .ite (fun _ => ?_) fun _ => ?_
  · have edited := h.output.tail (.adjust o.root _ within (.leading block))
    exact .of_modify { h with output := edited }
  · have built := Key.Built.edit (.leading block) (.empty o.root within)
    exact ⟨{ h with output := h.output.tail (.put _ built) }, trivial⟩

theorem endDocument_keeps (h : s.Proper o keys) : Keeps o keys (endDocument o) s :=
  .of_get_bind <| .ite
    (fun _ => (drainComments_yields h).andThen fun block _ h => leadRoot_keeps block h)
    fun _ => .of_pure h trivial

theorem queueComment_keeps (scalar : Scalar) (h : s.Proper o keys) :
    Keeps o keys (queueComment scalar) s :=
  (setLocation_keeps _ h).andThen fun _ _ h => (require_yields h rfl).andThen fun _ _ h =>
    .of_modify { h with }

theorem queueBlankLine_keeps (h : s.Proper o keys) : Keeps o keys queueBlankLine s := by
  refine .of_get_bind <| (lift_yields h (newline_unbroken _)).bind fun comments s' h' read => ?_
  obtain ⟨rfl, -⟩ := read
  exact .of_set { h with }

theorem takeLineComment_keeps (site : CommentSite) (h : s.Proper o keys) :
    Keeps o keys (takeLineComment site) s := by
  refine .of_get_bind <| (lift_yields h (takeOnly_unbroken _ site)).bind fun taken s' h' read => ?_
  obtain ⟨rfl, -⟩ := read
  split
  · exact .of_pure h trivial
  · exact .of_set_bind (.of_pure { h with } trivial)

theorem commentPair_keeps (h : s.Proper o keys) : Keeps o keys commentPair s := by
  refine (takeLineComment_keeps .pair h).andThen fun comment s h => ?_
  split
  · exact .of_pure h trivial
  · next comment =>
    refine .of_get_bind ?_
    split
    · exact .of_throw h rfl
    · next previous =>
      exact (change_yields h (State.holds_of_previous previous) (.inline comment)).keeps

theorem commentHeader_keeps (h : s.Proper o keys) : Keeps o keys commentHeader s := by
  refine (takeLineComment_keeps .header h).andThen fun comment s h => ?_
  split
  · exact .of_pure h trivial
  · next comment =>
    exact .top_bind h fun _ open_ =>
      (change_yields h (State.holds_of_mem_stack open_) (.inline comment)).keeps

theorem reject_keeps (message : String) (location : Location) (h : s.Proper o keys) :
    Keeps o keys (reject message location) s :=
  (setLocation_keeps location h).andThen fun _ _ h => .of_throw h rfl

end Builder

/-! ## Steps -/

open Builder in
/-- A step ends or stops in a proper state, and not with a cause that no events bring about. -/
theorem Event.step_keeps {o : Options} {keys : KeySet} (e : Event) {s : State}
    (h : s.Proper o keys) : Keeps o keys (e.step o) s := by
  cases e with
  | documentStart => exact startDocument_keeps h
  | documentEnd => exact endDocument_keeps h
  | keyStart => exact startDraft_keeps h
  | keyEnd => exact endKey_keeps h
  | keySegment scalar => exact extendDraft_keeps scalar h
  | pairEnd => exact endValue_keeps h
  | pairComment => exact commentPair_keeps h
  | headerComment => exact commentHeader_keeps h
  | value scalar => exact holdValue_keeps scalar h
  | tableStart => exact startTable_keeps h
  | tableEnd => exact emitAs_keeps .table h
  | tableArrayStart => exact startTableArray_keeps h
  | tableArrayEnd => exact endTableArray_keeps h
  | arrayStart => exact startArray_keeps h
  | arrayEnd => exact endArray_keeps h
  | emptyArray => exact (startArray_keeps h).andThen fun _ _ h => endArray_keeps h
  | elementStart => exact startElement_keeps h
  | elementEnd => exact endValue_keeps h
  | inlineTableStart => exact emitAs_keeps .inlineTable h
  | emptyInlineTable => exact emitAs_keeps .inlineTable h
  | inlineTableEnd => exact dropHeld_keeps h
  | comment scalar => exact queueComment_keeps scalar h
  | blankLine => exact queueBlankLine_keeps h
  | syntaxError message location => exact reject_keeps message location h

/-! ## Events -/

namespace State

variable {o : Options} {keys : KeySet} {s : State}

theorem Proper.feed (h : s.Proper o keys) (e : Event) : (s.feed o e).1.Proper o keys := by
  have step := e.step_keeps h
  unfold State.feed
  unfold Builder.Keeps Builder.Yields at step
  cases s.fault with
  | some fault => exact h
  | none =>
    cases ran : (e.step o).run s with
    | ok _ s' =>
      rw [ran] at step
      exact step.1
    | error cause s' =>
      rw [ran] at step
      exact { step.1 with fault := fun _ same => Option.some.inj same ▸ step.2 }

/-- What an event raises stays. -/
theorem fault_of_feed {e : Event} {fault : Fault} (raised : (s.feed o e).2 = some fault) :
    (s.feed o e).1.fault = some fault := by
  unfold State.feed at raised ⊢
  cases stopped : s.fault with
  | some fault => rw [stopped] at raised; cases raised
  | none =>
    rw [stopped] at raised
    cases ran : (e.step o).run s with
    | ok _ s' => rw [ran] at raised; cases raised
    | error cause s' => rw [ran] at raised; exact raised

/-- No event raises a cause that no events bring about. -/
theorem Proper.not_breakage (h : s.Proper o keys) {e : Event} {fault : Fault}
    (raised : (s.feed o e).2 = some fault) : fault.cause.isBreakage = false :=
  (h.feed e).fault fault (fault_of_feed raised)

theorem Proper.feedAll (h : s.Proper o keys) (events : List Event) :
    (s.feedAll o events).Proper o keys := by
  induction events generalizing s with
  | nil => exact h
  | cons e rest ih => exact ih (h.feed e)

/-- All states that events lead to are proper. -/
theorem proper_feedAll (o : Options) (keys : KeySet) (events : List Event) :
    ((start o keys).feedAll o events).Proper o keys :=
  (proper_start o keys).feedAll events

end State

end TomlSemantics
