import Mathlib.Logic.Relation
import TomlSemantics.Proofs.Key
import TomlSemantics.Proofs.NodePool
import TomlSemantics.Builder.Step

/-!
# What a step can write

Every event is a step of its own, but all of them change a state in the same few ways. A `Write` is
one such change, and a step is a run of writes, whether it stops with a cause or not. What every
write keeps, every step keeps. Some events name a place, and that is noted before anything else.

1. `Write`: one change to a state. `Spare`: one that leaves all values alone.
2. `Spans` and `Covers`: relations that hold across those changes. `Event.step_leads`: once its
   place is noted, a step leads to a state that is related to the one before.
3. `Event.step_leads_of_endValue`: only the end of a pair or an element does more than `Spare`.
4. `Event.step_does`: a step is a run of writes.
5. `Event.fault_of_step_ok`: no step touches the fault.
6. `Event.location_step`: only the place that its event names is noted in a step.
-/

namespace TomlSemantics

/-! ## Writes -/

/-- One change to a state. -/
inductive Write (s : State) : State → Prop
  /-- A node is changed where it is. -/
  | put (id : NodeId) (old node : Node) : s.nodes.get? id = some old →
      node.holders = old.holders → Write s { s with nodes := s.nodes.put id node }
  /-- A node is opened. -/
  | push (key : Key) : Write s { s with nodes := (s.nodes.push key).2 }
  /-- The innermost open node is closed. -/
  | pop (nodes : OpenNodes) : s.nodes.pop? = some nodes → Write s { s with nodes }
  /-- An open node is remembered. -/
  | remember (id : NodeId) : id ∈ s.nodes.stack →
      Write s { s with nodes := s.nodes.remember id }
  /-- A key is put into the output. -/
  | hand (key : Key) : Write s { s with output := s.output.put key }
  /-- A key is changed in the output. -/
  | adjust (name : Name) (f : Key → Key) : Write s { s with output := s.output.adjust name f }
  /-- Neither the nodes nor the output nor the fault are changed. -/
  | other (t : State) : t.nodes = s.nodes → t.output = s.output → t.fault = s.fault → Write s t

/-- One change to a state that leaves the values of all keys alone, and their spellings. -/
inductive Spare (s : State) : State → Prop
  /-- A node is changed where it is, but not in its value. -/
  | put (id : NodeId) (old node : Node) : s.nodes.get? id = some old →
      node.holders = old.holders → node.key.SameValue old.key →
      Spare s { s with nodes := s.nodes.put id node }
  /-- A node is opened for a key without a value. -/
  | push (key : Key) : key.IsBlank → Spare s { s with nodes := (s.nodes.push key).2 }
  /-- The innermost open node is closed. -/
  | pop (nodes : OpenNodes) : s.nodes.pop? = some nodes → Spare s { s with nodes }
  /-- The key of a node is put into the output. -/
  | hand (id : NodeId) (node : Node) : s.nodes.get? id = some node →
      Spare s { s with output := s.output.put node.key }
  /-- A key without a value is put into the output. -/
  | handBlank (key : Key) : key.IsBlank → Spare s { s with output := s.output.put key }
  /-- A key is changed in the output, but not in its value. -/
  | adjust (name : Name) (f : Key → Key) : Key.KeepsValue f →
      Spare s { s with output := s.output.adjust name f }
  /-- Neither the nodes nor the output nor the fault are changed. -/
  | other (t : State) : t.nodes = s.nodes → t.output = s.output → t.fault = s.fault → Spare s t

theorem Spare.write {s t : State} (h : Spare s t) : Write s t := by
  cases h with
  | put id old node found holders _ => exact .put id old node found holders
  | push key _ => exact .push key
  | pop nodes popped => exact .pop nodes popped
  | hand id node _ => exact .hand node.key
  | handBlank key _ => exact .hand key
  | adjust name f _ => exact .adjust name f
  | other _ nodes output fault => exact .other _ nodes output fault

/-- Any number of changes to a state. -/
abbrev Writes : State → State → Prop := Relation.ReflTransGen Write

/-- A relation that holds across all changes that leave values alone and do not note a place, one
after another. -/
class Spans (R : State → State → Prop) : Prop where
  refl (s : State) : R s s
  trans {s t u : State} : R s t → R t u → R s u
  spare {s t : State} : Spare s t → t.location = s.location → R s t

/-- A relation that holds across all writes that do not note a place, one after another. -/
class Covers (R : State → State → Prop) : Prop extends Spans R where
  write {s t : State} : Write s t → t.location = s.location → R s t
  spare h same := write h.write same

namespace Builder

variable {α β : Type} {x : Builder α} {s : State} {R : State → State → Prop}

/-- The state that an action ends or stops in is related to the state before. -/
def Leads (R : State → State → Prop) (x : Builder α) (s : State) : Prop :=
  match x.run s with
  | .ok _ s' => R s s'
  | .error _ s' => R s s'

/-- The state that an action ends or stops in is reached by writes. -/
def Does (x : Builder α) (s : State) : Prop :=
  match x.run s with
  | .ok _ s' => Writes s s'
  | .error _ s' => Writes s s'

/-- An action that first notes a place. -/
theorem leads_setLocation_bind {location : Location} {f : PUnit → Builder α}
    (h : Leads R (f ⟨⟩) { s with location }) :
    Leads (fun s t => R { s with location } t) (setLocation location >>= f) s := h

section Spans

variable [Spans R]

namespace Leads

theorem bind {f : α → Builder β} (hx : Leads R x s)
    (hf : ∀ a s', x.run s = .ok a s' → Leads R (f a) s') : Leads R (x >>= f) s := by
  unfold Leads at hx ⊢
  rw [EStateM.run_bind]
  cases ran : x.run s with
  | error cause s' => rwa [ran] at hx
  | ok a s' =>
    rw [ran] at hx
    have rest := hf a s' ran
    unfold Leads at rest
    dsimp only
    cases ended : (f a).run s' with
    | ok _ t => rw [ended] at rest; exact Spans.trans hx rest
    | error _ t => rw [ended] at rest; exact Spans.trans hx rest

/-- What comes later does what it does in every state. -/
theorem andThen {f : α → Builder β} (hx : Leads R x s) (hf : ∀ a s', Leads R (f a) s') :
    Leads R (x >>= f) s :=
  hx.bind fun a s' _ => hf a s'

omit [Spans R] in
theorem of_get_bind {f : State → Builder β} (h : Leads R (f s) s) : Leads R (get >>= f) s := h

theorem of_pure (a : α) (s : State) : Leads R (pure a : Builder α) s := Spans.refl s

theorem of_throw (cause : Cause) (s : State) : Leads R (throw cause : Builder α) s := Spans.refl s

theorem of_set {t : State} (h : Spare s t) (same : t.location = s.location) :
    Leads R (set t : Builder PUnit) s :=
  Spans.spare h same

theorem of_modify {f : State → State} (h : Spare s (f s)) (same : (f s).location = s.location) :
    Leads R (modify f : Builder PUnit) s :=
  Spans.spare h same

/-- A change that touches neither the nodes nor the output nor the fault nor the place. -/
theorem of_modify_other {f : State → State} (nodes : (f s).nodes = s.nodes)
    (output : (f s).output = s.output) (fault : (f s).fault = s.fault)
    (location : (f s).location = s.location) : Leads R (modify f : Builder PUnit) s :=
  of_modify (.other _ nodes output fault) location

omit [Spans R] in
theorem ite {c : Prop} [Decidable c] {y : Builder α} (hx : Leads R x s) (hy : Leads R y s) :
    Leads R (if c then x else y) s := by
  split
  · exact hx
  · exact hy

end Leads

/-! ## Single actions -/

theorem lift_leads (r : Except Cause α) (s : State) : Leads R (lift r) s := by
  cases r with
  | ok a => exact .of_pure a s
  | error cause => exact .of_throw cause s

theorem require_leads (c : Bool) (cause : Cause) (s : State) : Leads R (require c cause) s :=
  .ite (.of_pure _ s) (.of_throw _ s)

theorem top_leads (s : State) : Leads R top s := by
  refine .of_get_bind ?_
  split
  · exact .of_pure _ s
  · exact .of_throw _ s

theorem node_leads (id : NodeId) (s : State) : Leads R (node id) s := by
  refine .of_get_bind ?_
  split
  · exact .of_pure _ s
  · exact .of_throw _ s

theorem topName_leads (s : State) : Leads R topName s :=
  .andThen (top_leads s) fun id s => .andThen (node_leads id s) fun _ s => .of_pure _ s

theorem handOver_leads {id : NodeId} {node : Node} {key : Key}
    (found : s.nodes.get? id = some node) (same : node.key = key) : Leads R (handOver key) s :=
  same ▸ .of_modify (.hand id node found) rfl

theorem get?_of_node_run {id : NodeId} {old : Node} {s' : State} (h : (node id).run s = .ok old s') :
    s' = s ∧ s.nodes.get? id = some old := by
  simp only [node, EStateM.run_bind, EStateM.run_get] at h
  cases found : s.nodes.get? id with
  | none => rw [found] at h; cases h
  | some node => rw [found] at h; cases h; exact ⟨rfl, rfl⟩

/-- A node that has just been put into a slot is there. -/
theorem setNode_bind_leads {id : NodeId} {old node : Node} {f : PUnit → Builder β}
    (found : s.nodes.get? id = some old) (put : R s { s with nodes := s.nodes.put id node })
    (hf : ∀ s', s'.nodes.get? id = some node → Leads R (f ⟨⟩) s') :
    Leads R (setNode id node >>= f) s := by
  refine Leads.bind put fun _ s' h => ?_
  cases h
  exact hf _ (NodePool.get?_put_self node found)

theorem change_leads_of_put {id : NodeId} {f : Key → Key}
    (put : ∀ old, s.nodes.get? id = some old →
      R s { s with nodes := s.nodes.put id { old with key := f old.key } }) :
    Leads R (change id f) s := by
  refine (node_leads id s).bind fun old s' h => ?_
  obtain ⟨rfl, found⟩ := get?_of_node_run h
  exact setNode_bind_leads found (put old found) fun s here =>
    .ite (handOver_leads here rfl) (.of_pure _ s)

theorem change_leads {f : Key → Key} (keeps : Key.KeepsValue f) (id : NodeId) (s : State) :
    Leads R (change id f) s :=
  change_leads_of_put fun old found => Spans.spare (.put id old _ found rfl (keeps old.key)) rfl

theorem emit_leads (id : NodeId) (s : State) : Leads R (emit id) s := by
  refine (node_leads id s).bind fun old s' h => ?_
  obtain ⟨rfl, found⟩ := get?_of_node_run h
  have put : R s' { s' with nodes := s'.nodes.put id { old with emitted := true } } :=
    Spans.spare (.put id old _ found rfl (.refl _)) rfl
  exact setNode_bind_leads found put fun _ here => handOver_leads here rfl

theorem openNode_leads {key : Key} (blank : key.IsBlank) (s : State) : Leads R (openNode key) s :=
  Spans.spare (.push key blank) rfl

theorem closeNode_leads (s : State) : Leads R closeNode s := by
  refine .of_get_bind ?_
  split
  · next popped => exact .of_set (.pop _ popped) rfl
  · exact .of_throw _ s

theorem takeOrder_leads (s : State) : Leads R takeOrder s :=
  Spans.spare (.other _ rfl rfl rfl) rfl

theorem drainComments_leads (s : State) : Leads R drainComments s :=
  Spans.spare (.other _ rfl rfl rfl) rfl

theorem leadWithComments_leads (id : NodeId) (s : State) : Leads R (leadWithComments id) s :=
  .andThen (drainComments_leads s) fun _ s => .ite (change_leads (Key.keepsValue_addLeading _) id s)
    (.of_pure _ s)

theorem settlePrevious_leads (s : State) : Leads R settlePrevious s := by
  refine .of_get_bind ?_
  split
  · exact .andThen (.of_set (.other _ rfl rfl rfl) rfl) fun _ s =>
      change_leads (Key.keepsValue_setInline _) _ s
  · exact .of_pure _ s

/-! ## Keys -/

theorem setDraft_leads (name : Name) (s : State) : Leads R (setDraft name) s :=
  .of_modify_other rfl rfl rfl rfl

theorem startDraft_leads (o : Options) (s : State) : Leads R (startDraft o) s := by
  refine .andThen ?_ fun _ s => setDraft_leads _ s
  exact .of_get_bind (.ite (.of_pure _ s) (topName_leads s))

theorem extendDraft_leads (scalar : Scalar) (s : State) :
    Leads (fun s t => R { s with location := scalar.location } t) (extendDraft scalar) s := by
  refine leads_setLocation_bind <| .andThen (lift_leads _ _) fun _ s => .of_get_bind ?_
  split
  · exact setDraft_leads _ s
  · exact .of_throw _ s

theorem placeTable_leads (o : Options) (name : Name) (s : State) : Leads R (placeTable o name) s := by
  refine .of_get_bind (.andThen (lift_leads _ s) fun placement s => ?_)
  cases placement with
  | outside => exact .of_pure _ s
  | inside placed => exact .of_pure _ s
  | arrayItself => exact .of_throw _ s

theorem finishDraft_leads (o : Options) (s : State) : Leads R (finishDraft o) s := by
  refine .of_get_bind ?_
  split
  · exact .of_throw _ s
  · exact .andThen (.of_set (.other _ rfl rfl rfl) rfl) fun _ s =>
      .ite (placeTable_leads o _ s) (.of_pure _ s)

theorem checkFree_leads (o : Options) (name : Name) (s : State) : Leads R (checkFree o name) s :=
  .of_get_bind (require_leads _ _ s)

theorem takeComments_leads (id : NodeId) (s : State) : Leads R (takeComments id) s :=
  .of_get_bind (.ite (leadWithComments_leads id s) (.of_pure _ s))

theorem numberKey_leads (id : NodeId) (s : State) : Leads R (numberKey id) s :=
  .andThen (takeOrder_leads s) fun _ s => change_leads (Key.keepsValue_setOrder _) id s

theorem endKey_leads (o : Options) (s : State) : Leads R (endKey o) s :=
  .andThen (finishDraft_leads o s) fun _ s => .andThen (checkFree_leads o _ s) fun _ s =>
    .andThen (openNode_leads (Key.isBlank_empty _) s) fun _ s =>
      .andThen (takeComments_leads _ s) fun _ s => numberKey_leads _ s

/-! ## Values -/

theorem dropHeld_leads (s : State) : Leads R dropHeld s := .of_modify_other rfl rfl rfl rfl

theorem holdValue_leads (scalar : Scalar) (s : State) :
    Leads (fun s t => R { s with location := scalar.location } t) (holdValue scalar) s :=
  leads_setLocation_bind <| .andThen (lift_leads _ _) fun _ _ => .of_modify_other rfl rfl rfl rfl

/-! ## Tables -/

theorem replaceTable_leads (s : State) : Leads R replaceTable s :=
  .of_get_bind (.ite (closeNode_leads s) (.of_modify_other rfl rfl rfl rfl))

theorem startTable_leads (o : Options) (s : State) : Leads R (startTable o) s :=
  .andThen (replaceTable_leads s) fun _ _ => .andThen (.of_modify_other rfl rfl rfl rfl) fun _ s =>
    startDraft_leads o s

theorem emitAs_leads (c : Construct) (s : State) : Leads R (emitAs c) s :=
  .andThen (top_leads s) fun _ s =>
    .andThen (change_leads (Key.keepsValue_setConstruct c) _ s) fun _ s => emit_leads _ s

theorem leaveTable_leads (s : State) : Leads R leaveTable s :=
  .of_get_bind (.ite (.andThen (closeNode_leads s) fun _ _ => .of_modify_other rfl rfl rfl rfl)
    (.of_pure _ s))

theorem leaveElement_leads (s : State) : Leads R leaveElement s :=
  .of_get_bind (.ite (closeNode_leads s) (.of_pure _ s))

theorem startTableArray_leads (o : Options) (s : State) : Leads R (startTableArray o) s :=
  .andThen (leaveTable_leads s) fun _ s => .andThen (leaveElement_leads s) fun _ s =>
    .andThen (setDraft_leads _ s) fun _ _ => .of_modify_other rfl rfl rfl rfl

theorem enterScope_leads (o : Options) (name : Name) (s : State) : Leads R (enterScope o name) s := by
  refine .of_get_bind ?_
  cases Scope.enter s.keys o.root name s.scopes with
  | error cause => exact .of_throw _ s
  | ok scopes => exact .of_set (.other _ rfl rfl rfl) rfl

theorem dropHeader_leads (s : State) : Leads R dropHeader s :=
  .andThen (closeNode_leads s) fun _ _ => .of_modify_other rfl rfl rfl rfl

theorem recordTableArray_leads (container : Name) (index : Nat) (s : State) :
    Leads R (recordTableArray container index) s := by
  have marked : ((({ name := container } : Key).setConstruct .tableArray).markLastElement
      index).IsBlank :=
    ((Key.isBlank_empty container).change (Key.keepsValue_setConstruct _)).change
      (Key.keepsValue_markLastElement index)
  refine .of_get_bind (.ite (.of_modify (.adjust _ _ (Key.keepsValue_markLastElement index)) rfl) ?_)
  exact .andThen (takeOrder_leads s) fun _ s =>
    .of_modify (.handBlank _ ⟨marked.value_eq, marked.spelling_eq⟩) rfl

theorem recordElement_leads (o : Options) (s : State) : Leads R (recordElement o) s := by
  refine .of_get_bind (.andThen (lift_leads _ s) fun element s => ?_)
  cases element.parent with
  | none => exact .of_throw _ s
  | some container => exact .andThen (recordTableArray_leads _ _ s) fun _ s => .of_pure _ s

theorem openElement_leads (element : Name) (s : State) : Leads R (openElement element) s :=
  .andThen (openNode_leads (Key.isBlank_empty element) s) fun _ s =>
    .andThen (leadWithComments_leads _ s) fun _ s => emit_leads _ s

theorem endTableArray_leads (o : Options) (s : State) : Leads R (endTableArray o) s :=
  .andThen (topName_leads s) fun _ s => .andThen (require_leads _ _ s) fun _ s =>
    .andThen (enterScope_leads o _ s) fun _ s => .andThen (dropHeader_leads s) fun _ s =>
      .andThen (recordElement_leads o s) fun _ s => .andThen (openElement_leads _ s) fun _ _ =>
        .of_modify_other rfl rfl rfl rfl

/-! ## Arrays -/

theorem pushArray_leads (id : NodeId) (ownNode : Bool) (s : State) : Leads R (pushArray id ownNode) s :=
  .andThen (.of_modify_other rfl rfl rfl rfl) fun _ s => change_leads Key.keepsValue_markArray id s

theorem openInnerArray_leads (enclosing : Name) (s : State) : Leads R (openInnerArray enclosing) s :=
  .andThen (takeOrder_leads s) fun _ s => openNode_leads ⟨rfl, rfl⟩ s

theorem startArray_leads (s : State) : Leads R startArray s := by
  refine .andThen (top_leads s) fun id s => .andThen (node_leads id s) fun node s => ?_
  dsimp only
  cases node.key.arrayMarker with
  | none => exact pushArray_leads _ _ s
  | some marker =>
    exact .andThen (require_leads _ _ s) fun _ s => .andThen (openInnerArray_leads _ s) fun _ s =>
      pushArray_leads _ _ s

theorem settleElement_leads (level : ArrayLevel) (s : State) : Leads R (settleElement level) s :=
  .ite (settlePrevious_leads s) (.of_pure _ s)

theorem trailWithComments_leads (id : NodeId) (s : State) : Leads R (trailWithComments id) s :=
  .andThen (drainComments_leads s) fun _ s =>
    .ite (change_leads (Key.keepsValue_addTrailing _) id s) (.of_pure _ s)

theorem endArray_leads (s : State) : Leads R endArray s := by
  refine .of_get_bind ?_
  split
  · exact .of_throw _ s
  · exact .andThen (settleElement_leads _ s) fun _ s => .andThen (top_leads s) fun _ s =>
      .andThen (trailWithComments_leads _ s) fun _ s =>
        .andThen (.of_modify_other rfl rfl rfl rfl) fun _ s => .andThen (emit_leads _ s) fun _ s =>
          .ite (closeNode_leads s) (.of_pure _ s)

theorem openNextElement_leads (index : Nat) (s : State) : Leads R (openNextElement index) s :=
  .andThen (top_leads s) fun _ s => .andThen (node_leads _ s) fun _ s =>
    .andThen (change_leads (Key.keepsValue_markLastElement index) _ s) fun _ s =>
      openNode_leads (Key.isBlank_empty _) s

theorem startElement_leads (o : Options) (s : State) : Leads R (startElement o) s := by
  refine .of_get_bind ?_
  split
  · exact .of_throw _ s
  · exact .andThen (require_leads _ _ s) fun _ s => .andThen (settleElement_leads _ s) fun _ s =>
      .andThen (openNextElement_leads _ s) fun _ s =>
        .andThen (.of_modify_other rfl rfl rfl rfl) fun _ s => leadWithComments_leads _ s

/-! ## The document and its comments -/

theorem startDocument_leads (s : State) : Leads R startDocument s :=
  .of_get_bind (.andThen (require_leads _ _ s) fun _ _ => .of_modify_other rfl rfl rfl rfl)

theorem leadRoot_leads (o : Options) (block : List BlockEntry) (s : State) : Leads R (leadRoot o block) s :=
  .of_get_bind (.ite (.of_modify (.adjust _ _ (Key.keepsValue_addLeading block)) rfl)
    (.of_modify (.handBlank _ ⟨rfl, rfl⟩) rfl))

theorem endDocument_leads (o : Options) (s : State) : Leads R (endDocument o) s :=
  .of_get_bind (.ite (.andThen (drainComments_leads s) fun _ s => leadRoot_leads o _ s) (.of_pure _ s))

theorem queueComment_leads (scalar : Scalar) (s : State) :
    Leads (fun s t => R { s with location := scalar.location } t) (queueComment scalar) s :=
  leads_setLocation_bind <| .andThen (require_leads _ _ _) fun _ _ =>
    .of_modify_other rfl rfl rfl rfl

theorem queueBlankLine_leads (s : State) : Leads R queueBlankLine s := by
  refine .of_get_bind ?_
  cases s.comments.newline with
  | error cause => exact .of_throw _ s
  | ok comments => exact .of_set (.other _ rfl rfl rfl) rfl

theorem takeLineComment_leads (site : CommentSite) (s : State) : Leads R (takeLineComment site) s := by
  refine .of_get_bind ?_
  cases s.comments.takeOnly site with
  | error cause => exact .of_throw _ s
  | ok taken =>
    cases taken with
    | none => exact .of_pure _ s
    | some taken => exact .of_set (.other _ rfl rfl rfl) rfl

theorem commentPair_leads (s : State) : Leads R commentPair s := by
  refine .andThen (takeLineComment_leads _ s) fun comment s => ?_
  cases comment with
  | none => exact .of_pure _ s
  | some comment =>
    refine .of_get_bind ?_
    split
    · exact .of_throw _ s
    · exact change_leads (Key.keepsValue_setInline comment) _ s

theorem commentHeader_leads (s : State) : Leads R commentHeader s := by
  refine .andThen (takeLineComment_leads _ s) fun comment s => ?_
  cases comment with
  | none => exact .of_pure _ s
  | some comment =>
    exact .andThen (top_leads s) fun _ s => change_leads (Key.keepsValue_setInline comment) _ s

theorem reject_leads (message : String) (location : Location) (s : State) :
    Leads (fun s t => R { s with location } t) (reject message location) s :=
  leads_setLocation_bind <| .of_throw _ _

end Spans

/-! ## The end of a value -/

section Covers

variable [Covers R]

theorem closePrevious_leads (s : State) : Leads R closePrevious s := by
  refine (top_leads s).bind fun id s' h => ?_
  have open_ : id ∈ s'.nodes.stack := by
    simp only [top, EStateM.run_bind, EStateM.run_get] at h
    cases stack : s.nodes.stack with
    | nil => rw [stack] at h; cases h
    | cons first rest =>
      rw [stack] at h
      cases h
      rw [stack]
      exact List.mem_cons_self
  have remembered : R s' { s' with nodes := s'.nodes.remember id } :=
    Covers.write (.remember id open_) rfl
  exact Leads.andThen remembered fun _ s => closeNode_leads s

theorem storeValue_leads (scalar : Scalar) (s : State) : Leads R (storeValue scalar) s :=
  .andThen (lift_leads _ s) fun _ s => .andThen (top_leads s) fun _ _ =>
    .andThen (change_leads_of_put fun old found => Covers.write (.put _ old _ found rfl) rfl)
      fun _ => emit_leads _

theorem endValue_leads (s : State) : Leads R endValue s := by
  refine .andThen (.of_get_bind ?_) fun _ s => closePrevious_leads s
  split
  · exact .of_pure _ s
  · exact .andThen (dropHeld_leads s) fun _ s => storeValue_leads _ s

end Covers

end Builder

/-! ## Steps -/

/-- The place that an event names, if it names one. -/
def Event.place? : Event → Option Location
  | keySegment scalar | value scalar | comment scalar => some scalar.location
  | syntaxError _ location => some location
  | _ => none

/-- The events at which a value that is held is stored. -/
def Event.endsValue : Event → Bool
  | pairEnd | elementEnd => true
  | _ => false

/-- The state with a place noted, if one is given. -/
def State.noting (s : State) (place : Option Location) : State :=
  { s with location := place.getD s.location }

open Builder in
/-- Only the end of a pair or an element sets a value: all other steps lead to a state that is
related to the one before, whether they stop with a cause or not, once the place of their event is
noted. -/
theorem Event.step_leads_of_endValue {R : State → State → Prop} [Spans R] (o : Options) (e : Event)
    (s : State) (ends : e.endsValue = true → Leads R endValue s) :
    Leads (fun s t => R (s.noting e.place?) t) (e.step o) s := by
  have quiet {x : Builder Unit} (h : Leads R x s) : Leads (fun s t => R (s.noting none) t) x s := h
  cases e with
  | documentStart => exact quiet (startDocument_leads s)
  | documentEnd => exact quiet (endDocument_leads o s)
  | keyStart => exact quiet (startDraft_leads o s)
  | keyEnd => exact quiet (endKey_leads o s)
  | keySegment scalar => exact extendDraft_leads scalar s
  | pairEnd => exact quiet (ends rfl)
  | pairComment => exact quiet (commentPair_leads s)
  | headerComment => exact quiet (commentHeader_leads s)
  | value scalar => exact holdValue_leads scalar s
  | tableStart => exact quiet (startTable_leads o s)
  | tableEnd => exact quiet (emitAs_leads .table s)
  | tableArrayStart => exact quiet (startTableArray_leads o s)
  | tableArrayEnd => exact quiet (endTableArray_leads o s)
  | arrayStart => exact quiet (startArray_leads s)
  | arrayEnd => exact quiet (endArray_leads s)
  | emptyArray => exact quiet (.andThen (startArray_leads s) fun _ s => endArray_leads s)
  | elementStart => exact quiet (startElement_leads o s)
  | elementEnd => exact quiet (ends rfl)
  | inlineTableStart => exact quiet (emitAs_leads .inlineTable s)
  | emptyInlineTable => exact quiet (emitAs_leads .inlineTable s)
  | inlineTableEnd => exact quiet (dropHeld_leads s)
  | comment scalar => exact queueComment_leads scalar s
  | blankLine => exact quiet (queueBlankLine_leads s)
  | syntaxError message location => exact reject_leads message location s

/-- Once the place of its event is noted, a step leads to a state that is related to the one before,
whether it stops with a cause or not. -/
theorem Event.step_leads {R : State → State → Prop} [Covers R] (o : Options) (e : Event)
    (s : State) : Builder.Leads (fun s t => R (s.noting e.place?) t) (e.step o) s :=
  e.step_leads_of_endValue o s fun _ => Builder.endValue_leads s

/-! ## What every write keeps -/

instance : Covers Writes where
  refl _ := .refl
  trans := Relation.ReflTransGen.trans
  write h _ := .single h

/-- A step is a run of writes, whether it stops with a cause or not. -/
theorem Event.step_does (o : Options) (e : Event) (s : State) : Builder.Does (e.step o) s := by
  have noted : Write s (s.noting e.place?) := .other _ rfl rfl rfl
  have leads := e.step_leads (R := Writes) o s
  unfold Builder.Leads at leads
  unfold Builder.Does
  cases ran : (e.step o).run s with
  | ok _ t => rw [ran] at leads; exact leads.head noted
  | error _ t => rw [ran] at leads; exact leads.head noted

theorem Write.fault_eq {s t : State} (h : Write s t) : t.fault = s.fault := by
  cases h with
  | other _ _ _ same => exact same
  | _ => rfl

theorem Writes.fault_eq {s t : State} (h : Writes s t) : t.fault = s.fault := by
  induction h with
  | refl => rfl
  | tail _ last ih => rw [last.fault_eq, ih]

theorem Event.fault_of_step_ok {o : Options} {e : Event} {s s' : State}
    (h : (e.step o).run s = .ok () s') : s'.fault = s.fault := by
  have does := e.step_does o s
  unfold Builder.Does at does
  rw [h] at does
  exact does.fault_eq

/-- The place is the same in both states. -/
def State.SamePlace (s t : State) : Prop := t.location = s.location

instance : Covers State.SamePlace where
  refl _ := rfl
  trans h h' := h'.trans h
  write _ same := same

/-- A step notes the place that its event names, if it names one, and no other. -/
theorem Event.location_step (o : Options) (e : Event) (s : State) :
    Builder.Leads (fun s t => t.location = e.place?.getD s.location) (e.step o) s :=
  e.step_leads (R := State.SamePlace) o s

end TomlSemantics
