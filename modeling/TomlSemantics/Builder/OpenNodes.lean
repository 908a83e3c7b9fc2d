import TomlSemantics.Builder.NodePool

/-!
# Open nodes

The nodes that are open lie in each other: the innermost is where the next key or value goes, the
outermost is the root. The last pair or element is remembered after it is closed, because a comment
may still follow on its line. Those are the only holders of a node.
-/

namespace TomlSemantics

/-- The nodes that are being built, and who holds them. -/
structure OpenNodes where
  pool : NodePool := {}
  /-- The open nodes, the innermost first; the last is the root. -/
  stack : List NodeId := []
  /-- The last pair or element. -/
  previous : Option NodeId := none
deriving DecidableEq

namespace OpenNodes

/-- The open nodes with a node for a key inside of them. -/
def push (n : OpenNodes) (key : Key) : NodeId × OpenNodes :=
  let stored := n.pool.store key
  (stored.1, { n with pool := stored.2, stack := stored.1 :: n.stack })

/-- The root, open, and nothing else. -/
def start (root : Key) : OpenNodes := (push {} root).2

/-- The open nodes without the innermost. The root cannot be closed. -/
def pop? (n : OpenNodes) : Option OpenNodes :=
  match n.stack with
  | id :: outer :: rest => some { n with pool := n.pool.release id, stack := outer :: rest }
  | _ => none

/-- The open nodes with another one remembered as the last pair or element. -/
def remember (n : OpenNodes) (id : NodeId) : OpenNodes :=
  let held := n.pool.retain id
  { n with
    pool := match n.previous with
      | some old => held.release old
      | none => held
    previous := some id }

/-- The node in a slot. -/
def get? (n : OpenNodes) (id : NodeId) : Option Node := n.pool.get? id

/-- The open nodes with another node in a slot. -/
def put (n : OpenNodes) (id : NodeId) (node : Node) : OpenNodes :=
  { n with pool := n.pool.put id node }

/-- The number of nodes that are being built. -/
def live (n : OpenNodes) : Nat := n.pool.live

/-- Nothing open and nothing remembered. -/
def closeAll (n : OpenNodes) : OpenNodes where
  pool := n.stack.foldl NodePool.release
    (match n.previous with
      | some old => n.pool.release old
      | none => n.pool)

end OpenNodes

end TomlSemantics
