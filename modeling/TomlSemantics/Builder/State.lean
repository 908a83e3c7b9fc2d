import TomlSemantics.Builder.OpenNodes
import TomlSemantics.Builder.Output
import TomlSemantics.Builder.CommentQueue
import TomlSemantics.Builder.Scope
import TomlSemantics.Builder.Options

/-!
# State of a document that is being read

The keys that are finished are in the output. Those that are not are nodes. A step of the reading
either finishes or stops with a cause; what it did until then stays done.
-/

namespace TomlSemantics

/-- An array value that is open. -/
structure ArrayLevel where
  /-- The index that the next element gets. -/
  next : Nat := 0
  /-- Whether the array has a node of its own, being an element of another array. -/
  ownNode : Bool
deriving DecidableEq, Repr

/-- Everything that is known in the middle of a document. -/
structure State where
  output : Output
  nodes : OpenNodes
  /-- The open arrays of tables, the innermost first. -/
  scopes : List Scope := []
  /-- The open array values, the innermost first. -/
  arrays : List ArrayLevel := []
  /-- The comments whose key is not known yet. -/
  comments : CommentQueue := {}
  /-- The name of the key that is being read. -/
  draft : Option Name := none
  /-- The value that has been read but not stored. -/
  held : Option Scalar := none
  /-- The number that the next key gets. -/
  nextOrder : Nat := 0
  /-- Whether a table is open. -/
  inTable : Bool := false
  /-- Whether the key that is being read is that of a table. -/
  tableHeader : Bool := false
  /-- Whether the waiting comments belong to the next key. -/
  keyTakesComments : Bool := true
  /-- Whether the document has started. -/
  started : Bool := false
  /-- Where the last scalar or syntax error was. -/
  location : Location := {}
  /-- What stopped the reading. -/
  fault : Option Fault := none
deriving DecidableEq

namespace State

/-- Nothing read yet: only the root is open. -/
def start (o : Options) (keys : KeySet) : State where
  output := { keys }
  nodes := .start { name := o.root }

/-- The set that keys go into. -/
def keys (s : State) : KeySet := s.output.keys

/-- The number of keys that are being built. -/
def liveNodes (s : State) : Nat := s.nodes.live

end State

/-- A step of the reading. -/
abbrev Builder := EStateM Cause State

namespace Builder

/-- The step that a partial function stands for. -/
def lift {α : Type} : Except Cause α → Builder α
  | .ok a => pure a
  | .error cause => throw cause

/-- Stops with a cause unless a condition holds. -/
def require (condition : Bool) (cause : Cause) : Builder Unit :=
  if condition then pure () else throw cause

/-- Notes where a scalar or syntax error is. -/
def setLocation (location : Location) : Builder Unit := modify fun s => { s with location }

/-! ## Nodes -/

/-- The innermost open node. -/
def top : Builder NodeId := do
  match (← get).nodes.stack with
  | id :: _ => return id
  | [] => throw .nothingOpen

/-- The node in a slot. -/
def node (id : NodeId) : Builder Node := do
  match (← get).nodes.get? id with
  | some node => return node
  | none => throw .nodeReleased

/-- The name of the innermost open node. -/
def topName : Builder Name := do
  return (← node (← top)).key.name

/-- Puts another node into a slot. -/
def setNode (id : NodeId) (node : Node) : Builder Unit :=
  modify fun s => { s with nodes := s.nodes.put id node }

/-- Puts a key into the output. -/
def handOver (key : Key) : Builder Unit :=
  modify fun s => { s with output := s.output.put key }

/-- Changes the key of a node, in the output too if it is there. -/
def change (id : NodeId) (f : Key → Key) : Builder Unit := do
  let old ← node id
  setNode id { old with key := f old.key }
  if old.emitted then handOver (f old.key)

/-- Puts the key of a node into the output, and from now on its changes. -/
def emit (id : NodeId) : Builder Unit := do
  let old ← node id
  setNode id { old with emitted := true }
  handOver old.key

/-- Opens a node for a key. -/
def openNode (key : Key) : Builder NodeId :=
  modifyGet fun s => ((s.nodes.push key).1, { s with nodes := (s.nodes.push key).2 })

/-- Closes the innermost open node. The root stays open. -/
def closeNode : Builder Unit := do
  let s ← get
  match s.nodes.pop? with
  | some nodes => set { s with nodes }
  | none => throw .onlyRootOpen

/-- Closes the innermost open node as the last pair or element. -/
def closePrevious : Builder Unit := do
  let id ← top
  modify fun s => { s with nodes := s.nodes.remember id }
  closeNode

/-- The number of the next key. -/
def takeOrder : Builder Nat :=
  modifyGet fun s => (s.nextOrder, { s with nextOrder := s.nextOrder + 1 })

/-! ## Waiting comments -/

/-- Takes all waiting comments and blank lines. -/
def drainComments : Builder (List BlockEntry) :=
  modifyGet fun s => (s.comments.contents, { s with comments := {} })

/-- Puts the waiting comments before the key of a node. -/
def leadWithComments (id : NodeId) : Builder Unit := do
  let block ← drainComments
  if !block.isEmpty then change id (·.addLeading block)

/-- Gives the last element the comment on its line: the first that waits, if no blank line comes
before it. -/
def settlePrevious : Builder Unit := do
  let s ← get
  match s.nodes.previous, s.comments.takeFirst with
  | some id, some (comment, rest) =>
      set { s with comments := rest }
      change id (·.setInline comment)
  | _, _ => return ()

end Builder

end TomlSemantics
