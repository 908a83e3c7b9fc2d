import TomlSemantics.Proofs.Edit
import TomlSemantics.Proofs.Scope
import TomlSemantics.Proofs.Write

/-!
# Proper states

Events may come in any order, by the rules of a grammar or not, and an action may stop half way.
What a state is made of stays sound all the same: the pool counts its holders, all keys are inside
of the root, and so are the open arrays of tables, one below the other.

1. `OpenNodes.Proper` and `State.Proper`: what is known of every state.
2. `Builder.Yields`, `Builder.Keeps`: an action ends or stops in a proper state, and not with one of
   the causes that no events bring about (`Cause.isBreakage`).
3. One lemma for each action on nodes and waiting comments. What acts on a node asks that some place
   holds it (`State.Holds`).
-/

namespace TomlSemantics

/-! ## Nodes -/

/-- The slot of the root. -/
def OpenNodes.rootId : NodeId := ⟨0⟩

namespace NodePool

variable {p : NodePool} {id other : NodeId} {node : Node}

theorem exists_of_get?_retain (h : (p.retain id).get? other = some node) :
    ∃ old, p.get? other = some old ∧ old.key = node.key := by
  rw [get?_retain] at h
  split at h
  · next same =>
    obtain ⟨old, found, rfl⟩ := Option.map_eq_some_iff.mp h
    exact ⟨old, same ▸ found, rfl⟩
  · exact ⟨node, h, rfl⟩

theorem exists_of_get?_release (h : (p.release id).get? other = some node) :
    ∃ old, p.get? other = some old ∧ old.key = node.key := by
  rw [get?_release] at h
  split at h
  · next same =>
    obtain ⟨old, found, kept⟩ := Option.bind_eq_some_iff.mp h
    refine ⟨old, same ▸ found, ?_⟩
    split at kept
    · cases kept
    · cases kept
      rfl
  · exact ⟨node, h, rfl⟩

end NodePool

namespace OpenNodes

variable {root : Name} {n m : OpenNodes} {id : NodeId} {node old : Node}

/-- The pool counts its holders, the root is the outermost open node, and all keys are built inside
of the root. -/
structure Proper (root : Name) (n : OpenNodes) : Prop where
  exact : n.Exact
  bottom : n.stack.getLast? = some rootId
  root_name : ∀ node, n.get? rootId = some node → node.key.name = root
  built : ∀ id node, n.get? id = some node → node.key.Built root

/-- What is held is in the pool. -/
theorem Exact.exists_get? (h : n.Exact) (held : id ∈ n.previous.toList ++ n.stack) :
    ∃ node, n.get? id = some node :=
  h.counts.exists_get? (List.count_pos_iff.mpr held).ne'

/-- There is no node but the root in the beginning. -/
theorem key_of_get?_start {root : Key} (h : (start root).get? id = some node) :
    node.key = root := by
  have stored := NodePool.get?_store NodePool.valid_empty root id
  rw [show (start root).get? id = _ from stored] at h
  split at h
  · cases h
    rfl
  · simp [NodePool.get?] at h

theorem exists_of_get?_remember {other : NodeId} (h : (n.remember id).get? other = some node) :
    ∃ old, n.get? other = some old ∧ old.key = node.key := by
  cases before : n.previous with
  | none =>
    rw [get?, OpenNodes.remember, before] at h
    exact NodePool.exists_of_get?_retain h
  | some old =>
    rw [get?, OpenNodes.remember, before] at h
    obtain ⟨middle, retained, same⟩ := NodePool.exists_of_get?_release h
    obtain ⟨first, there, same'⟩ := NodePool.exists_of_get?_retain retained
    exact ⟨first, there, same'.trans same⟩

/-- Keys that were there before, in a pool that counts its holders. -/
theorem Proper.of_keys (h : n.Proper root) (exact : m.Exact)
    (bottom : m.stack.getLast? = n.stack.getLast?)
    (keys : ∀ id node, m.get? id = some node → ∃ old, n.get? id = some old ∧ old.key = node.key) :
    m.Proper root where
  exact := exact
  bottom := bottom.trans h.bottom
  root_name node found := by
    obtain ⟨old, before, same⟩ := keys _ node found
    rw [← same]
    exact h.root_name old before
  built id node found := by
    obtain ⟨old, before, same⟩ := keys id node found
    rw [← same]
    exact h.built id old before

namespace Proper

theorem start (root : Name) : (OpenNodes.start { name := root }).Proper root := by
  refine ⟨Exact.start _, rfl, fun node found => ?_, fun id node found => ?_⟩
  · rw [key_of_get?_start found]
  · rw [key_of_get?_start found]
    exact .empty root root.isWithin_refl

theorem put (h : n.Proper root) (found : n.get? id = some old)
    (holders : node.holders = old.holders) (name : node.key.name = old.key.name)
    (built : node.key.Built root) :
    (n.put id node).Proper root where
  exact := h.exact.put found holders
  bottom := h.bottom
  root_name other here := by
    rw [get?, OpenNodes.put, NodePool.get?_put n.pool node found] at here
    split at here
    · next same =>
      cases here
      rw [name]
      exact h.root_name old (same ▸ found)
    · exact h.root_name other here
  built i other here := by
    rw [get?, OpenNodes.put, NodePool.get?_put n.pool node found] at here
    split at here
    · cases here
      exact built
    · exact h.built i other here

theorem push (h : n.Proper root) {key : Key} (built : key.Built root) :
    (n.push key).2.Proper root := by
  have stored := NodePool.get?_store h.exact.valid key
  -- The root is held, and so its slot is not the one that is taken now.
  have other : rootId ≠ (n.pool.store key).1 := by
    intro same
    obtain ⟨node, found⟩ :=
      h.exact.exists_get? (List.mem_append_right _ (List.mem_of_getLast? h.bottom))
    have new := NodePool.get?_store_self h.exact.valid key
    rw [← same, ← get?, found] at new
    cases new
  refine ⟨h.exact.push key, ?_, fun node found => ?_, fun id node found => ?_⟩
  · show ((n.pool.store key).1 :: n.stack).getLast? = some rootId
    rw [List.getLast?_cons, h.bottom]
    rfl
  · rw [get?, OpenNodes.push, stored, if_neg other] at found
    exact h.root_name node found
  · rw [get?, OpenNodes.push, stored] at found
    split at found
    · cases found
      exact built
    · exact h.built id node found

theorem pop (h : n.Proper root) (popped : n.pop? = some m) : m.Proper root := by
  have exact := h.exact.pop popped
  unfold pop? at popped
  split at popped
  · next id outer rest stack =>
    cases popped
    refine h.of_keys exact ?_ fun _ _ => NodePool.exists_of_get?_release
    rw [stack, List.getLast?_cons_cons]
  · cases popped

theorem remember (h : n.Proper root) (held : id ∈ n.stack) : (n.remember id).Proper root := by
  have counted : n.holdersOf id ≠ 0 :=
    (List.count_pos_iff.mpr (List.mem_append_right _ held)).ne'
  exact h.of_keys (h.exact.remember counted) rfl fun _ _ => exists_of_get?_remember

end Proper

end OpenNodes

/-! ## States -/

/-- The causes that no events bring about: a node was let go while it was needed, or an array of
tables lies outside of the one around it. -/
def Cause.isBreakage : Cause → Bool
  | nothingOpen | nodeReleased | scopeOutside _ _ | elementWithoutArray => true
  | _ => false

namespace State

/-- What is known of a state after any events, from a set of keys on. -/
structure Proper (o : Options) (keys : KeySet) (s : State) : Prop where
  nodes : s.nodes.Proper o.root
  scopes : Scope.Nested o.root s.scopes
  draft : ∀ name, s.draft = some name → name.isWithin o.root = true
  output : Output.Edits o.root { keys } s.output
  fault : ∀ fault, s.fault = some fault → fault.cause.isBreakage = false

/-- A place holds the node in a slot. -/
def Holds (s : State) (id : NodeId) : Prop := id ∈ s.nodes.previous.toList ++ s.nodes.stack

theorem proper_start (o : Options) (keys : KeySet) : (start o keys).Proper o keys where
  nodes := .start o.root
  scopes := Scope.nested_nil
  draft _ none := by cases none
  output := .refl
  fault _ none := by cases none

theorem holds_of_mem_stack {s : State} {id : NodeId} (h : id ∈ s.nodes.stack) : s.Holds id :=
  List.mem_append_right _ h

theorem holds_of_previous {s : State} {id : NodeId} (h : s.nodes.previous = some id) :
    s.Holds id := by
  unfold Holds
  rw [h]
  exact List.mem_cons_self

theorem Holds.of_nodes {s s' : State} {id : NodeId} (held : s.Holds id)
    (same : s'.nodes = s.nodes) : s'.Holds id := by
  unfold Holds
  rwa [same]

end State

/-! ## Actions -/

namespace Builder

variable {α β : Type} {o : Options} {keys : KeySet} {x y : Builder α} {s : State}
  {post : α → State → Prop} {id : NodeId} {name : Name}

/-- An action ends in a proper state that fits its result, or stops in a proper state, and not with
a cause that no events bring about. -/
def Yields (o : Options) (keys : KeySet) (x : Builder α) (s : State)
    (post : α → State → Prop) : Prop :=
  match x.run s with
  | .ok a s' => s'.Proper o keys ∧ post a s'
  | .error cause s' => s'.Proper o keys ∧ cause.isBreakage = false

/-- An action ends or stops in a proper state. -/
abbrev Keeps (o : Options) (keys : KeySet) (x : Builder α) (s : State) : Prop :=
  Yields o keys x s fun _ _ => True

namespace Yields

variable {f : α → Builder β} {next : β → State → Prop}

theorem bind (hx : Yields o keys x s post)
    (hf : ∀ a s', s'.Proper o keys → post a s' → Yields o keys (f a) s' next) :
    Yields o keys (x >>= f) s next := by
  unfold Yields at hx ⊢
  rw [EStateM.run_bind]
  cases ran : x.run s with
  | error cause s' => rwa [ran] at hx
  | ok a s' =>
    rw [ran] at hx
    exact hf a s' hx.1 hx.2

/-- What comes later does so from every proper state. -/
theorem andThen (hx : Yields o keys x s post)
    (hf : ∀ a s', s'.Proper o keys → Yields o keys (f a) s' next) :
    Yields o keys (x >>= f) s next :=
  hx.bind fun a s' h _ => hf a s' h

theorem imp {post' : α → State → Prop} (hx : Yields o keys x s post)
    (weaker : ∀ a s', post a s' → post' a s') : Yields o keys x s post' := by
  unfold Yields at hx ⊢
  cases ran : x.run s with
  | error cause s' => rwa [ran] at hx
  | ok a s' =>
    rw [ran] at hx
    exact ⟨hx.1, weaker a s' hx.2⟩

theorem keeps (hx : Yields o keys x s post) : Keeps o keys x s := hx.imp fun _ _ _ => trivial

theorem of_get_bind {f : State → Builder β} (h : Yields o keys (f s) s next) :
    Yields o keys (get >>= f) s next := h

theorem of_pure {a : α} (h : s.Proper o keys) (fits : post a s) : Yields o keys (pure a) s post :=
  ⟨h, fits⟩

theorem of_throw {cause : Cause} (h : s.Proper o keys) (sound : cause.isBreakage = false) :
    Yields o keys (throw cause : Builder α) s post :=
  ⟨h, sound⟩

theorem of_set {t : State} (h : t.Proper o keys) : Keeps o keys (set t : Builder PUnit) s :=
  ⟨h, trivial⟩

theorem of_set_bind {t : State} {f : PUnit → Builder β} (h : Yields o keys (f ⟨⟩) t next) :
    Yields o keys (set t >>= f) s next := h

theorem of_modify_bind {g : State → State} {f : PUnit → Builder β}
    (h : Yields o keys (f ⟨⟩) (g s) next) : Yields o keys (modify g >>= f) s next := h

theorem of_modify {f : State → State} (h : (f s).Proper o keys) :
    Keeps o keys (modify f : Builder PUnit) s :=
  ⟨h, trivial⟩

theorem ite {c : Prop} [Decidable c] (hx : c → Yields o keys x s post)
    (hy : ¬ c → Yields o keys y s post) : Yields o keys (if c then x else y) s post := by
  split
  · next yes => exact hx yes
  · next no => exact hy no

end Yields

/-! ### Results -/

/-- A result does not stop with a cause that no events bring about. -/
def Unbroken : Except Cause α → Prop
  | .ok _ => True
  | .error cause => cause.isBreakage = false

theorem Unbroken.bind {r : Except Cause α} {f : α → Except Cause β} (h : Unbroken r)
    (hf : ∀ a, Unbroken (f a)) : Unbroken (r >>= f) := by
  cases r with
  | ok a => exact hf a
  | error cause => exact h

theorem lift_yields {r : Except Cause α} (h : s.Proper o keys) (sound : Unbroken r) :
    Yields o keys (lift r) s fun a s' => s' = s ∧ r = .ok a := by
  cases r with
  | ok a => exact .of_pure h ⟨rfl, rfl⟩
  | error cause => exact .of_throw h sound

theorem require_yields {c : Bool} {cause : Cause} (h : s.Proper o keys)
    (sound : cause.isBreakage = false) :
    Yields o keys (require c cause) s fun _ s' => s' = s ∧ c = true :=
  .ite (fun yes => .of_pure h ⟨rfl, yes⟩) fun _ => .of_throw h sound

theorem checkBare_unbroken (text : String) : Unbroken (checkBare text) := by
  unfold checkBare
  split
  · trivial
  · rfl

theorem checkBare_all_unbroken (segments : List String) : Unbroken (segments.forM checkBare) := by
  induction segments with
  | nil => trivial
  | cons first rest ih => exact (checkBare_unbroken first).bind fun _ => ih

theorem keySegments_unbroken (scalar : Scalar) : Unbroken scalar.keySegments := by
  unfold Scalar.keySegments
  cases scalar.kind with
  | bare | basic | literal => trivial
  | multilineBasic | multilineLiteral | comment => rfl
  | float => exact (checkBare_all_unbroken _).bind fun _ => trivial
  | _ => exact (checkBare_unbroken _).bind fun _ => trivial

theorem checkValue_unbroken (scalar : Scalar) : Unbroken scalar.checkValue := by
  unfold Scalar.checkValue
  cases scalar.kind with
  | bare | comment => rfl
  | offsetDateTime | localDateTime | localDate | localTime =>
    dsimp only
    split
    · trivial
    · rfl
  | _ => trivial

theorem storedForm_unbroken (scalar : Scalar) : Unbroken (storedForm scalar) := by
  unfold storedForm
  split
  · rfl
  · split
    · rfl
    · trivial

theorem newline_unbroken (q : CommentQueue) : Unbroken q.newline := by
  unfold CommentQueue.newline
  split
  · trivial
  · rfl

theorem takeOnly_unbroken (q : CommentQueue) (site : CommentSite) : Unbroken (q.takeOnly site) := by
  unfold CommentQueue.takeOnly
  split
  · trivial
  · trivial
  · rfl
  · rfl

/-! ### Nodes -/

theorem top_yields (h : s.Proper o keys) :
    Yields o keys top s fun id s' => s' = s ∧ id ∈ s.nodes.stack := by
  refine .of_get_bind ?_
  cases stack : s.nodes.stack with
  | nil =>
    have bottom := h.nodes.bottom
    rw [stack] at bottom
    cases bottom
  | cons id rest => exact .of_pure h ⟨rfl, List.mem_cons_self⟩

/-- What is done to the innermost open node. -/
theorem Yields.top_bind {f : NodeId → Builder β} {next : β → State → Prop} (h : s.Proper o keys)
    (hf : ∀ id, id ∈ s.nodes.stack → Yields o keys (f id) s next) :
    Yields o keys (top >>= f) s next := by
  refine (top_yields h).bind fun id s' _ innermost => ?_
  obtain ⟨rfl, open_⟩ := innermost
  exact hf id open_

theorem node_yields (h : s.Proper o keys) (held : s.Holds id) :
    Yields o keys (node id) s fun old s' => s' = s ∧ s.nodes.get? id = some old := by
  obtain ⟨old, found⟩ := h.nodes.exact.exists_get? held
  refine .of_get_bind ?_
  rw [found]
  exact .of_pure h ⟨rfl, rfl⟩

/-- What is done with a node that is held. -/
theorem Yields.node_bind {f : Node → Builder β} {next : β → State → Prop} (h : s.Proper o keys)
    (held : s.Holds id)
    (hf : ∀ old, s.nodes.get? id = some old → Yields o keys (f old) s next) :
    Yields o keys (node id >>= f) s next := by
  refine (node_yields h held).bind fun old s' _ read => ?_
  obtain ⟨rfl, found⟩ := read
  exact hf old found

theorem topName_yields (h : s.Proper o keys) :
    Yields o keys topName s fun name s' => s' = s ∧ name.isWithin o.root = true :=
  .top_bind h fun id open_ => .node_bind h (State.holds_of_mem_stack open_) fun old found =>
    .of_pure h ⟨rfl, (h.nodes.built id old found).isWithin⟩

theorem setNode_yields {old node : Node} (h : s.Proper o keys) (held : s.Holds id)
    (found : s.nodes.get? id = some old) (holders : node.holders = old.holders)
    (same : node.key.name = old.key.name) (built : node.key.Built o.root) :
    Yields o keys (setNode id node) s fun _ s' => s'.Holds id :=
  ⟨{ h with nodes := h.nodes.put found holders same built }, held⟩

theorem handOver_yields {key : Key} (h : s.Proper o keys) (held : s.Holds id)
    (built : key.Built o.root) : Yields o keys (handOver key) s fun _ s' => s'.Holds id :=
  ⟨{ h with output := h.output.tail (.put key built) }, held⟩

theorem change_yields {f : Key → Key} (h : s.Proper o keys) (held : s.Holds id)
    (edit : Key.Edit f) : Yields o keys (change id f) s fun _ s' => s'.Holds id := by
  refine .node_bind h held fun old found => ?_
  have built : (f old.key).Built o.root := .edit edit (h.nodes.built id old found)
  have put : Yields o keys (setNode id { old with key := f old.key }) s fun _ s' => s'.Holds id :=
    setNode_yields h held found rfl (edit.name_eq old.key) built
  refine put.bind fun _ s' h held => ?_
  exact .ite (fun _ => handOver_yields h held built) fun _ => .of_pure h held

theorem emit_keeps (h : s.Proper o keys) (held : s.Holds id) : Keeps o keys (emit id) s := by
  refine .node_bind h held fun old found => ?_
  have built := h.nodes.built id old found
  have put : Yields o keys (setNode id { old with emitted := true }) s fun _ s' => s'.Holds id :=
    setNode_yields h held found rfl rfl built
  refine put.bind fun _ s' h held => ?_
  exact (handOver_yields h held built).keeps

/-- A new node is open for a key that is built inside of the root. -/
theorem openNode_yields {key : Key} (h : s.Proper o keys) (built : key.Built o.root) :
    Yields o keys (openNode key) s fun id s' => s'.Holds id :=
  ⟨{ h with nodes := h.nodes.push built }, State.holds_of_mem_stack List.mem_cons_self⟩

theorem closeNode_yields (h : s.Proper o keys) :
    Yields o keys closeNode s fun _ s' => s'.scopes = s.scopes := by
  refine .of_get_bind ?_
  split
  · next nodes popped => exact ⟨{ h with nodes := h.nodes.pop popped }, rfl⟩
  · exact .of_throw h rfl

theorem closeNode_keeps (h : s.Proper o keys) : Keeps o keys closeNode s :=
  (closeNode_yields h).keeps

theorem closePrevious_keeps (h : s.Proper o keys) : Keeps o keys closePrevious s :=
  .top_bind h fun _ open_ =>
    (Yields.of_modify { h with nodes := h.nodes.remember open_ }).andThen fun _ _ h =>
      closeNode_keeps h

theorem takeOrder_yields (h : s.Proper o keys) :
    Yields o keys takeOrder s fun _ s' => s'.nodes = s.nodes :=
  ⟨{ h with }, rfl⟩

theorem drainComments_yields (h : s.Proper o keys) :
    Yields o keys drainComments s fun _ s' => s'.nodes = s.nodes :=
  ⟨{ h with }, rfl⟩

/-- The waiting comments go to a node that is held. -/
theorem drainTo_yields {f : List BlockEntry → Key → Key} (h : s.Proper o keys) (held : s.Holds id)
    (edit : ∀ block, Key.Edit (f block)) :
    Yields o keys (do
      let block ← drainComments
      if !block.isEmpty then change id (f block)) s fun _ s' => s'.Holds id := by
  refine (drainComments_yields h).bind fun block s' h same => ?_
  have held := held.of_nodes same
  exact .ite (fun _ => change_yields h held (edit block)) fun _ => .of_pure h held

theorem leadWithComments_yields (h : s.Proper o keys) (held : s.Holds id) :
    Yields o keys (leadWithComments id) s fun _ s' => s'.Holds id :=
  drainTo_yields h held .leading

theorem settlePrevious_keeps (h : s.Proper o keys) : Keeps o keys settlePrevious s := by
  refine .of_get_bind ?_
  split
  · next id comment rest previous _ =>
    have h' : ({ s with comments := rest } : State).Proper o keys := { h with }
    exact .of_set_bind (change_yields h' (State.holds_of_previous previous) (.inline comment)).keeps
  · exact .of_pure h trivial

theorem setLocation_keeps (location : Location) (h : s.Proper o keys) :
    Keeps o keys (setLocation location) s :=
  .of_modify { h with }

end Builder

end TomlSemantics
