import TomlSemantics.Builder.Draft

/-!
# Tables

The header of a table closes the table before it. The header of an array of tables also closes the
element before it and opens a new one, below a key that stands for the whole array.
-/

namespace TomlSemantics.Builder

/-! ## Headers of tables -/

/-- Closes the table before a header, and has one open from now on. -/
def replaceTable : Builder Unit := do
  if (← get).inTable then closeNode else modify fun s => { s with inTable := true }

/-- The header of a table starts. -/
def startTable (o : Options) : Builder Unit := do
  replaceTable
  modify fun s => { s with tableHeader := true }
  startDraft o

/-- Notes the construct that the innermost open node came from, and puts its key into the output. -/
def emitAs (c : Construct) : Builder Unit := do
  let id ← top
  change id (·.setConstruct c)
  emit id

/-! ## Headers of arrays of tables -/

/-- Closes the table before a header, if one is open. -/
def leaveTable : Builder Unit := do
  if (← get).inTable then
    closeNode
    modify fun s => { s with inTable := false }

/-- Closes the element before a header, if one is open. -/
def leaveElement : Builder Unit := do
  if !(← get).scopes.isEmpty then closeNode

/-- The header of an array of tables starts. Its key is always read from the root. -/
def startTableArray (o : Options) : Builder Unit := do
  leaveTable
  leaveElement
  setDraft o.root
  modify fun s => { s with keyTakesComments := false }

/-- Opens the next element of an array of tables, as a scope. -/
def enterScope (o : Options) (name : Name) : Builder Unit := do
  let s ← get
  let scopes ← lift (Scope.enter s.keys o.root name s.scopes)
  set { s with scopes }

/-- Closes the node of the header, which only carried the name of the array, and takes its number
back. -/
def dropHeader : Builder Unit := do
  closeNode
  modify fun s => { s with nextOrder := s.nextOrder - 1 }

/-- Sees to it that the output has a key for an array of tables, with its last element noted. -/
def recordTableArray (container : Name) (index : Nat) : Builder Unit := do
  if (← get).output.has container then
    modify fun s => { s with output := s.output.adjust container (·.markLastElement index) }
  else
    let order ← takeOrder
    let key : Key := { name := container }
    handOver (((key.setConstruct .tableArray).markLastElement index).setOrder order)

/-- The current element of the innermost array of tables, recorded as the last of its array. -/
def recordElement (o : Options) : Builder Name := do
  let scopes := (← get).scopes
  let element ← lift (Scope.element o.root scopes)
  match element.parent with
  | none => throw .elementWithoutArray
  | some container => do
      recordTableArray container ((scopes.head?.map Scope.index).getD 0)
      return element

/-- Opens a node for an element, with the comments before its header. -/
def openElement (element : Name) : Builder Unit := do
  let id ← openNode { name := element }
  leadWithComments id
  emit id

/-- The header of an array of tables ends: its next element is opened. -/
def endTableArray (o : Options) : Builder Unit := do
  let name ← topName
  require (name.isBelow o.root) .namelessTableArray
  enterScope o name
  dropHeader
  openElement (← recordElement o)
  modify fun s => { s with keyTakesComments := true }

end TomlSemantics.Builder
