import TomlSemantics.Builder.Value

/-!
# Array values

An array is stored in the key of its pair, and each element in a key of its own below that. An
array that is an element of another array starts with its first element known by name only, so it
gets the node of that element.
-/

namespace TomlSemantics.Builder

/-! ## Arrays -/

/-- Opens a node for an array that starts where the innermost node is an array already. -/
def openInnerArray (enclosing : Name) : Builder NodeId := do
  let order ← takeOrder
  let key : Key := { name := enclosing.child (ElementIndex.segment 0) }
  openNode (key.setOrder order)

/-- Starts an array in the key of a node. -/
def pushArray (id : NodeId) (ownNode : Bool) : Builder Unit := do
  modify fun s => { s with arrays := { ownNode } :: s.arrays }
  change id Key.markArray

/-- An array starts. -/
def startArray : Builder Unit := do
  let id ← top
  let key := (← node id).key
  match key.arrayMarker with
  | none => pushArray id false
  | some marker =>
      require (marker ≠ "") .arrayWithoutElement
      pushArray (← openInnerArray key.name) true

/-- Puts the waiting comments after the last element of an array. -/
def trailWithComments (id : NodeId) : Builder Unit := do
  let block ← drainComments
  if !block.isEmpty then change id (·.addTrailing block)

/-- Gives the element before the next one, or before the end, the comment on its line. -/
def settleElement (level : ArrayLevel) : Builder Unit := do
  if 0 < level.next then settlePrevious

/-- Closes the node of an array that has one of its own. -/
def closeArray (level : ArrayLevel) : Builder Unit := do
  if level.ownNode then closeNode

/-- An array ends: the comments since its last element are put after it, and it is put into the
output. -/
def endArray : Builder Unit := do
  match (← get).arrays with
  | [] => throw .noArrayToEnd
  | level :: _ =>
      settleElement level
      let id ← top
      trailWithComments id
      modify fun s => { s with arrays := s.arrays.tail }
      emit id
      closeArray level

/-! ## Elements -/

/-- Opens a node for the next element of the array in the innermost open node. -/
def openNextElement (index : Nat) : Builder NodeId := do
  let array ← top
  let name := (← node array).key.name.child (ElementIndex.segment index)
  change array (·.markLastElement index)
  openNode { name }

/-- An element starts: the array notes it as its last, and it gets a node and the comments before
it. -/
def startElement (o : Options) : Builder Unit := do
  match (← get).arrays with
  | [] => throw .noArrayToEnter
  | level :: outer =>
      require (level.next < o.maxArrayElements) (.arrayTooLong o.maxArrayElements)
      settleElement level
      let id ← openNextElement level.next
      modify fun s => { s with arrays := { level with next := level.next + 1 } :: outer }
      leadWithComments id

end TomlSemantics.Builder
