import TomlSemantics.Key.Basic

/-!
# Keys under construction

A node is a key that is still being built. Several places can hold the same node at once; the pool
counts the holders and frees a node when the last of them lets go. The slot of a freed node is
used again for the next one.

* `get?_put_self`, `get?_put_of_ne`: a change to one node leaves the others alone.
* `NodePool.live` is the number of nodes that have not been freed, kept as they come and go.
-/

namespace TomlSemantics

/-- The number of a node's slot. -/
structure NodeId where
  slot : Nat
deriving DecidableEq, Repr

/-- A key under construction. -/
structure Node where
  key : Key
  /-- How many places hold the node. -/
  holders : Nat := 1
  /-- Whether the key is in the set already, so that a change has to go there too. -/
  emitted : Bool := false
deriving DecidableEq

/-- The nodes, in numbered slots, the slots that are free, the last freed first, and the number of
nodes that have not been freed. -/
structure NodePool where
  slots : List (Option Node) := []
  free : List Nat := []
  live : Nat := 0
deriving DecidableEq

namespace NodePool

/-- The node in a slot. -/
def get? (p : NodePool) (id : NodeId) : Option Node := p.slots[id.slot]?.join

/-- The pool with a new node for a key, which the caller holds. -/
def store (p : NodePool) (key : Key) : NodeId × NodePool :=
  match p.free with
  | slot :: free =>
      (⟨slot⟩, { slots := p.slots.set slot (some { key }), free, live := p.live + 1 })
  | [] => (⟨p.slots.length⟩, { p with slots := p.slots ++ [some { key }], live := p.live + 1 })

/-- The pool with another node in a slot. -/
def put (p : NodePool) (id : NodeId) (node : Node) : NodePool :=
  { p with slots := p.slots.set id.slot (some node) }

/-- The pool with one more holder of a node. -/
def retain (p : NodePool) (id : NodeId) : NodePool :=
  match p.get? id with
  | some node => p.put id { node with holders := node.holders + 1 }
  | none => p

/-- The pool with one holder of a node less, and without the node if that was the last. -/
def release (p : NodePool) (id : NodeId) : NodePool :=
  match p.get? id with
  | some node =>
      if node.holders = 1 then
        { slots := p.slots.set id.slot none, free := id.slot :: p.free, live := p.live - 1 }
      else p.put id { node with holders := node.holders - 1 }
  | none => p

theorem slot_lt_of_get? {p : NodePool} {id : NodeId} {node : Node} (h : p.get? id = some node) :
    id.slot < p.slots.length := by
  rw [get?] at h
  cases found : p.slots[id.slot]? with
  | none => simp [found] at h
  | some _ => exact (List.getElem?_eq_some_iff.mp found).choose

theorem get?_put_self {p : NodePool} {id : NodeId} {old : Node} (node : Node)
    (h : p.get? id = some old) : (p.put id node).get? id = some node := by
  simp [get?, put, List.getElem?_set_self (slot_lt_of_get? h)]

theorem get?_put_of_ne (p : NodePool) {id other : NodeId} (node : Node) (h : id ≠ other) :
    (p.put id node).get? other = p.get? other := by
  have slots : id.slot ≠ other.slot := fun same => h (by cases id; cases other; cases same; rfl)
  simp [get?, put, List.getElem?_set_ne slots]

end NodePool

end TomlSemantics
