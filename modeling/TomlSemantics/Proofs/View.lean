import TomlSemantics.Proofs.Assembly
import TomlSemantics.Proofs.NodePool

/-!
# What a state looks like

While a document is read by the rules of its grammar, every open node and the last pair or element
have one holder each. Slots and holders can then be forgotten: a `View` lists the nodes themselves,
with everything else that a step can see.

1. `OpenNodes.Shows`: the nodes behind the slots. Every operation on slots is one on the list.
2. `State.Shows`: a state and its view.
3. `Builder.…_run`: what the actions do, said of views. Later proofs use these and do not open the
   actions again.
-/

namespace TomlSemantics

/-- A node for a key that is not in the set yet. -/
def Node.fresh (key : Key) : Node := { key }

/-- A node for a key that is in the set. -/
def Node.recorded (key : Key) : Node := { key, emitted := true }

/-! ## Nodes without their slots -/

namespace OpenNodes

/-- The nodes that are open, the innermost first, and the last pair or element, each held once. -/
structure Shows (n : OpenNodes) (stack : List Node) (previous : Option Node) : Prop where
  exact : n.Exact
  distinct : (n.previous.toList ++ n.stack).Nodup
  stack_eq : n.stack.map n.get? = stack.map some
  previous_eq : n.previous.map n.get? = previous.map some

variable {n : OpenNodes} {stack : List Node} {previous : Option Node}

theorem shows_start (root : Key) : (start root).Shows [.fresh root] none where
  exact := Exact.start root
  distinct := by simp [start, push]
  stack_eq := by simp [start, push, get?, NodePool.get?, NodePool.store, Node.fresh]
  previous_eq := rfl

namespace Shows

/-- Every node is held once. -/
theorem once (h : n.Shows stack previous) {id : NodeId} {node : Node}
    (member : id ∈ n.previous.toList ++ n.stack) (found : n.get? id = some node) :
    node.holders = 1 := by
  rw [h.exact.counts.holders_eq found]
  exact List.count_eq_one_of_mem h.distinct member

theorem top {node : Node} (h : n.Shows (node :: stack) previous) :
    ∃ id ids, n.stack = id :: ids ∧ n.get? id = some node ∧ ids.map n.get? = stack.map some := by
  have slots := h.stack_eq
  rw [List.map_cons] at slots
  obtain ⟨id, ids, open_, found, below⟩ := List.map_eq_cons_iff.mp slots
  exact ⟨id, ids, open_, found, below⟩

theorem last {node : Node} (h : n.Shows stack (some node)) :
    ∃ id, n.previous = some id ∧ n.get? id = some node := by
  have slot := h.previous_eq
  rw [Option.map_some] at slot
  exact Option.map_eq_some_iff.mp slot

/-- A change to one node leaves the others as they are. -/
theorem map_get?_put {id : NodeId} {ids : List NodeId} (node : Node) (other : id ∉ ids) :
    ids.map (n.put id node).get? = ids.map n.get? :=
  List.map_congr_left fun _ member =>
    NodePool.get?_put_of_ne n.pool node fun same => other (same ▸ member)

theorem put_top {old node : Node} {id : NodeId} {ids : List NodeId}
    (h : n.Shows (old :: stack) previous) (open_ : n.stack = id :: ids)
    (same : node.holders = old.holders) : (n.put id node).Shows (node :: stack) previous := by
  have slots := h.stack_eq
  rw [open_, List.map_cons, List.map_cons, List.cons.injEq] at slots
  have distinct := h.distinct
  rw [open_, List.nodup_append] at distinct
  obtain ⟨-, inner, apart⟩ := distinct
  refine ⟨h.exact.put slots.1 same, h.distinct, ?_, ?_⟩
  · rw [show (n.put id node).stack = id :: ids from open_, List.map_cons, List.map_cons]
    rw [map_get?_put node (List.nodup_cons.mp inner).1, slots.2]
    rw [get?, put, NodePool.get?_put_self node slots.1]
  · rw [← h.previous_eq]
    show n.previous.map (n.put id node).get? = n.previous.map n.get?
    cases before : n.previous with
    | none => rfl
    | some last =>
      have other : id ≠ last := fun same =>
        apart last (by simp [before]) id List.mem_cons_self same.symm
      simp only [Option.map_some, Option.some.injEq]
      exact NodePool.get?_put_of_ne n.pool node other

theorem put_previous {old node : Node} {id : NodeId} (h : n.Shows stack (some old))
    (last : n.previous = some id) (same : node.holders = old.holders) :
    (n.put id node).Shows stack (some node) := by
  have slot := h.previous_eq
  rw [last, Option.map_some, Option.map_some, Option.some.injEq] at slot
  have distinct := h.distinct
  rw [last, Option.toList_some, List.singleton_append, List.nodup_cons] at distinct
  refine ⟨h.exact.put slot same, h.distinct, ?_, ?_⟩
  · rw [← h.stack_eq]
    exact map_get?_put node distinct.1
  · rw [show (n.put id node).previous = some id from last, Option.map_some, Option.map_some]
    rw [get?, put, NodePool.get?_put_self node slot]

theorem push (h : n.Shows stack previous) (key : Key) :
    (n.push key).2.Shows (.fresh key :: stack) previous := by
  have new := (h.exact.counts.get?_eq_none_iff _).mp (NodePool.get?_store_self h.exact.valid key)
  rw [holdersOf, List.count_eq_zero] at new
  -- The new slot was free, and so it is none of those that are open or remembered.
  have kept : ∀ ids : List NodeId, (n.pool.store key).1 ∉ ids →
      ids.map (n.push key).2.get? = ids.map n.get? := fun ids absent =>
    List.map_congr_left fun j member => by
      have other : j ≠ (n.pool.store key).1 := fun same => absent (same ▸ member)
      rw [get?, OpenNodes.push, NodePool.get?_store h.exact.valid, if_neg other, get?]
  rw [List.mem_append, not_or] at new
  refine ⟨h.exact.push key, ?_, ?_, ?_⟩
  · show (n.previous.toList ++ (n.pool.store key).1 :: n.stack).Nodup
    rw [List.nodup_middle, List.nodup_cons, List.mem_append, not_or]
    exact ⟨new, h.distinct⟩
  · show ((n.pool.store key).1 :: n.stack).map (n.push key).2.get? = _
    rw [List.map_cons, kept _ new.2, h.stack_eq, List.map_cons]
    rw [get?, OpenNodes.push, NodePool.get?_store h.exact.valid, if_pos rfl, Node.fresh]
  · show n.previous.map (n.push key).2.get? = _
    rw [← h.previous_eq]
    cases before : n.previous with
    | none => rfl
    | some last =>
      have unlike : (n.pool.store key).1 ∉ [last] := by simpa [before] using new.1
      simpa using kept [last] unlike

theorem pop {node outer : Node} (h : n.Shows (node :: outer :: stack) previous) :
    ∃ m, n.pop? = some m ∧ m.Shows (outer :: stack) previous := by
  obtain ⟨id, ids, open_, -, below⟩ := h.top
  obtain ⟨next, rest, rfl, -, -⟩ := List.map_eq_cons_iff.mp below
  have popped : n.pop? = some { n with pool := n.pool.release id, stack := next :: rest } := by
    simp [pop?, open_]
  refine ⟨_, popped, h.exact.pop popped, ?_, ?_, ?_⟩
  all_goals have distinct := h.distinct
  all_goals rw [open_, List.nodup_middle, List.nodup_cons, List.mem_append, not_or] at distinct
  · exact distinct.2
  · rw [← below]
    refine List.map_congr_left fun j member => ?_
    have other : j ≠ id := fun same => distinct.1.2 (same ▸ member)
    rw [get?, NodePool.get?_release, if_neg other, get?]
  · rw [← h.previous_eq]
    cases before : n.previous with
    | none => rfl
    | some last =>
      have other : last ≠ id := by simpa [before, eq_comm] using distinct.1.1
      simp [get?, NodePool.get?_release, other]

/-- Remembering a node adds a holder to it, and lets go of the one that was remembered before. -/
theorem get?_remember {id : NodeId} (apart : id ∉ n.previous.toList) (j : NodeId) :
    (n.remember id).get? j =
      if j = id then (n.get? id).map fun node => { node with holders := node.holders + 1 }
      else if j ∈ n.previous.toList then (n.get? j).bind fun node =>
        if node.holders = 1 then none else some { node with holders := node.holders - 1 }
      else n.get? j := by
  cases before : n.previous with
  | none => simp [get?, remember, before, NodePool.get?_retain]
  | some old =>
    have other : id ≠ old := by simpa [before] using apart
    simp only [get?, remember, before, NodePool.get?_release, NodePool.get?_retain,
      Option.toList_some, List.mem_singleton, if_neg (Ne.symm other)]
    by_cases here : j = id
    · simp [here, other]
    · by_cases there : j = old
      · subst there
        simp [Ne.symm other]
      · simp [here, there]

/-- The innermost node is closed as the last pair or element. -/
theorem close_previous {node outer : Node} {id : NodeId} {ids : List NodeId}
    (h : n.Shows (node :: outer :: stack) previous) (open_ : n.stack = id :: ids) :
    ∃ m, (n.remember id).pop? = some m ∧ m.Shows (outer :: stack) (some node) := by
  have slots := h.stack_eq
  rw [open_, List.map_cons, List.map_cons, List.cons.injEq] at slots
  obtain ⟨found, below⟩ := slots
  obtain ⟨next, rest, rfl, -, -⟩ := List.map_eq_cons_iff.mp below
  have distinct := h.distinct
  rw [open_, List.nodup_append, List.nodup_cons] at distinct
  obtain ⟨-, ⟨notBelow, inner⟩, apart⟩ := distinct
  -- The node is held twice for a moment: it is remembered before the stack lets go of it.
  have notLast : id ∉ n.previous.toList := fun member =>
    apart id member id List.mem_cons_self rfl
  have popped : (n.remember id).pop? = some { n.remember id with
      pool := (n.remember id).pool.release id, stack := next :: rest } := by
    simp [pop?, remember, open_]
  have held : n.holdersOf id ≠ 0 := by simp [holdersOf, open_]
  refine ⟨_, popped, (h.exact.remember held).pop popped, ?_, ?_, ?_⟩
  · exact List.nodup_cons.mpr ⟨notBelow, inner⟩
  · rw [← below]
    refine List.map_congr_left fun j member => ?_
    have other : j ≠ id := fun same => notBelow (same ▸ member)
    have old : j ∉ n.previous.toList := fun was =>
      apart j was j (List.mem_cons_of_mem _ member) rfl
    show ((n.remember id).pool.release id).get? j = n.get? j
    rw [NodePool.get?_release, if_neg other, ← get?, get?_remember notLast, if_neg other, if_neg old]
  · have once := h.once (List.mem_append_right _ (open_ ▸ List.mem_cons_self)) found
    show some (((n.remember id).pool.release id).get? id) = some (some node)
    rw [NodePool.get?_release, if_pos rfl, ← get?, get?_remember notLast, if_pos rfl, found]
    obtain ⟨key, holders, emitted⟩ := node
    cases once
    rfl

end Shows

end OpenNodes

/-! ## Views of states -/

/-- What a step can see of a state. -/
structure View where
  keys : KeySet
  stack : List Node
  previous : Option Node := none
  scopes : List Scope := []
  arrays : List ArrayLevel := []
  comments : CommentQueue := {}
  draft : Option Name := none
  held : Option Scalar := none
  nextOrder : Nat := 0
  inTable : Bool := false
  tableHeader : Bool := false
  keyTakesComments : Bool := true

namespace View

/-- The sheet that keys go into. -/
def sheet (v : View) : Sheet := ⟨v.keys, v.nextOrder⟩

/-- The view with another sheet. -/
def onSheet (v : View) (sheet : Sheet) : View :=
  { v with keys := sheet.keys, nextOrder := sheet.nextOrder }

/-- The view with a node inside of the open ones. -/
def inside (v : View) (node : Node) : View := { v with stack := node :: v.stack }

/-- The view after a pair or an element. -/
def after (v : View) (sheet : Sheet) (key : Key) : View :=
  { v.onSheet sheet with previous := some (.recorded key) }

end View

namespace State

/-- The state looks like the view. -/
structure Shows (s : State) (v : View) : Prop where
  nodes : s.nodes.Shows v.stack v.previous
  keys : s.output.keys = v.keys
  scopes : s.scopes = v.scopes
  arrays : s.arrays = v.arrays
  comments : s.comments = v.comments
  draft : s.draft = v.draft
  held : s.held = v.held
  nextOrder : s.nextOrder = v.nextOrder
  inTable : s.inTable = v.inTable
  tableHeader : s.tableHeader = v.tableHeader
  keyTakesComments : s.keyTakesComments = v.keyTakesComments

/-- The innermost open node is in a slot. -/
def Top (s : State) (id : NodeId) : Prop := ∃ ids, s.nodes.stack = id :: ids

theorem shows_start (o : Options) (keys : KeySet) :
    (start o keys).Shows { keys, stack := [.fresh { name := o.root }] } where
  nodes := OpenNodes.shows_start _
  keys := rfl
  scopes := rfl
  arrays := rfl
  comments := rfl
  draft := rfl
  held := rfl
  nextOrder := rfl
  inTable := rfl
  tableHeader := rfl
  keyTakesComments := rfl

end State

/-! ## What the actions do -/

namespace Builder

@[simp] theorem lift_ok_run {α : Type} (a : α) (s : State) : (lift (.ok a)).run s = .ok a s := rfl

@[simp] theorem lift_error_run {α : Type} (cause : Cause) (s : State) :
    (lift (.error cause : Except Cause α)).run s = .error cause s := rfl

theorem require_run {condition : Bool} (holds : condition = true) (cause : Cause) (s : State) :
    (require condition cause).run s = .ok () s := by
  simp [require, holds]

theorem require_stops {condition : Bool} (fails : condition = false) (cause : Cause) (s : State) :
    (require condition cause).run s = .error cause s := by
  simp only [require, fails]
  rfl

variable {s : State} {v : View} {id : NodeId} {old outer : Node} {stack : List Node}

/-! ### Single nodes -/

theorem top_run (h : s.Top id) : top.run s = .ok id s := by
  obtain ⟨ids, open_⟩ := h
  simp [top, open_]

theorem exists_top (h : s.Shows v) (hv : v.stack = old :: stack) :
    ∃ id, s.Top id ∧ s.nodes.get? id = some old := by
  have nodes := h.nodes
  rw [hv] at nodes
  obtain ⟨id, ids, open_, found, -⟩ := nodes.top
  exact ⟨id, ⟨ids, open_⟩, found⟩

theorem get?_top (h : s.Shows v) (hv : v.stack = old :: stack) (t : s.Top id) :
    s.nodes.get? id = some old := by
  obtain ⟨other, ⟨_, here⟩, found⟩ := exists_top h hv
  obtain ⟨_, open_⟩ := t
  rw [open_] at here
  cases here
  exact found

theorem node_run (found : s.nodes.get? id = some old) : (node id).run s = .ok old s := by
  simp [node, found]

theorem topName_run (h : s.Shows v) (hv : v.stack = old :: stack) :
    topName.run s = .ok old.key.name s := by
  obtain ⟨id, t, found⟩ := exists_top h hv
  simp only [topName, EStateM.run_bind, top_run t, node_run found]
  rfl

theorem change_run (h : s.Shows v) (hv : v.stack = old :: stack) (t : s.Top id) (f : Key → Key) :
    ∃ s', (change id f).run s = .ok () s' ∧ s'.Top id ∧ s'.Shows { v with
      stack := { old with key := f old.key } :: stack
      keys := if old.emitted then v.keys.append (f old.key) else v.keys } := by
  have found := get?_top h hv t
  have nodes := h.nodes
  rw [hv] at nodes
  obtain ⟨ids, open_⟩ := t
  have changed : (s.nodes.put id { old with key := f old.key }).Shows _ v.previous :=
    nodes.put_top open_ rfl
  simp only [change, EStateM.run_bind, node_run found, setNode, EStateM.run_modify]
  obtain ⟨key, holders, emitted⟩ := old
  cases emitted with
  | false => exact ⟨_, rfl, ⟨ids, open_⟩, { h with nodes := changed }⟩
  | true =>
    refine ⟨_, rfl, ⟨ids, open_⟩, { h with nodes := changed, keys := ?_ }⟩
    rw [← h.keys]
    rfl

/-- A change to a key that is not in the set leaves the set alone. -/
theorem change_fresh_run {key : Key} (h : s.Shows v) (hv : v.stack = .fresh key :: stack)
    (t : s.Top id) (f : Key → Key) :
    ∃ s', (change id f).run s = .ok () s' ∧ s'.Top id ∧
      s'.Shows { v with stack := .fresh (f key) :: stack } :=
  change_run h hv t f

theorem emit_run (h : s.Shows v) (hv : v.stack = old :: stack) (t : s.Top id) :
    ∃ s', (emit id).run s = .ok () s' ∧ s'.Top id ∧ s'.Shows { v with
      stack := { old with emitted := true } :: stack, keys := v.keys.append old.key } := by
  have found := get?_top h hv t
  have nodes := h.nodes
  rw [hv] at nodes
  obtain ⟨ids, open_⟩ := t
  have changed : (s.nodes.put id { old with emitted := true }).Shows _ v.previous :=
    nodes.put_top open_ rfl
  simp only [emit, EStateM.run_bind, node_run found, setNode, EStateM.run_modify, handOver]
  refine ⟨_, rfl, ⟨ids, open_⟩, { h with nodes := changed, keys := ?_ }⟩
  rw [← h.keys]
  rfl

theorem openNode_run (h : s.Shows v) (key : Key) :
    ∃ id s', (openNode key).run s = .ok id s' ∧ s'.Top id ∧
      s'.Shows { v with stack := .fresh key :: v.stack } :=
  ⟨_, _, rfl, ⟨_, rfl⟩, { h with nodes := h.nodes.push key }⟩

theorem closeNode_run (h : s.Shows v) (hv : v.stack = old :: outer :: stack) :
    ∃ s', closeNode.run s = .ok () s' ∧ s'.Shows { v with stack := outer :: stack } := by
  have nodes := h.nodes
  rw [hv] at nodes
  obtain ⟨m, popped, shown⟩ := nodes.pop
  simp only [closeNode, EStateM.run_bind, EStateM.run_get, popped]
  exact ⟨_, rfl, { h with nodes := shown }⟩

theorem closePrevious_run (h : s.Shows v) (hv : v.stack = old :: outer :: stack) :
    ∃ s', closePrevious.run s = .ok () s' ∧
      s'.Shows { v with stack := outer :: stack, previous := some old } := by
  obtain ⟨id, ⟨ids, open_⟩, -⟩ := exists_top h hv
  have nodes := h.nodes
  rw [hv] at nodes
  obtain ⟨m, popped, shown⟩ := nodes.close_previous open_
  simp only [closePrevious, closeNode, EStateM.run_bind, top_run ⟨ids, open_⟩, EStateM.run_modify,
    EStateM.run_get, popped]
  exact ⟨_, rfl, { h with nodes := shown }⟩

end Builder

end TomlSemantics
