import TomlSemantics.Builder.State
import TomlSemantics.Text.Marked

/-!
# Reading a key

The segments of a key are collected into the draft of a name. When the key is complete, it gets a
node of its own, unless its name is taken.
-/

namespace TomlSemantics

/-! ## Segments -/

/-- A text that needs no quotes as part of a key. -/
def checkBare (s : String) : Except Cause Unit :=
  if Text.isBare s then .ok () else .error (.invalidBareKey s)

/-- The parts of a text before and after its first point. -/
def splitAtPoint (s : String) : List String :=
  match s.toList.dropWhile (· ≠ '.') with
  | [] => [s]
  | _ :: rest => [.ofList (s.toList.takeWhile (· ≠ '.')), .ofList rest]

/-- The segments that a scalar gives to a key. Strings are a segment as they read. Everything else
has to be bare as it is spelled; what looks like a float is two segments with a point between. -/
def Scalar.keySegments (s : Scalar) : Except Cause (List String) :=
  match s.kind with
  | .bare | .basic | .literal => .ok [s.text]
  | .multilineBasic | .multilineLiteral => .error .multilineKey
  | .float => do
      let segments := splitAtPoint s.spelling
      segments.forM checkBare
      return segments
  | .comment => .error .commentAsKey
  | .boolean | .decimal | .binary | .octal | .hex | .inf | .posInf | .negInf | .nan | .posNan
  | .negNan | .offsetDateTime | .localDateTime | .localDate | .localTime => do
      checkBare s.spelling
      return [s.spelling]

namespace Builder

/-! ## The draft -/

/-- The name that a key starts from: that of the innermost open node. The key of a table starts
from the root while arrays of tables are open, and is placed among them when it is complete. -/
def draftBase (o : Options) : Builder Name := do
  let s ← get
  if s.tableHeader && !s.scopes.isEmpty then return o.root else topName

/-- Makes a name the draft. -/
def setDraft (name : Name) : Builder Unit := modify fun s => { s with draft := some name }

/-- Starts a key. -/
def startDraft (o : Options) : Builder Unit := do
  setDraft (← draftBase o)

/-- Adds the segments of a scalar to the key. -/
def extendDraft (scalar : Scalar) : Builder Unit := do
  setLocation scalar.location
  let segments ← lift scalar.keySegments
  match (← get).draft with
  | some name => setDraft (name.join segments)
  | none => throw .noKeyToExtend

/-- Where the key of a table goes among the open arrays of tables. -/
def placeTable (o : Options) (name : Name) : Builder Name := do
  match ← lift (Scope.place o.root name (← get).scopes) with
  | .outside => return name
  | .inside placed => return placed
  | .arrayItself => throw (.tableIsTableArray name)

/-- The name of the key that has been read, which is then no longer a draft. -/
def finishDraft (o : Options) : Builder Name := do
  let s ← get
  match s.draft with
  | none => throw .noKeyToEnd
  | some name =>
      set { s with draft := none, tableHeader := false }
      if s.tableHeader then placeTable o name else return name

/-- Whether a key can be given a name. The root may be named again, and so may an array of tables,
which every one of its headers names. -/
def isFree (o : Options) (keys : KeySet) (name : Name) : Bool :=
  match keys.lookup name with
  | none => true
  | some existing => existing.isTableArray || name = o.root

/-- Refuses a name that is taken. -/
def checkFree (o : Options) (name : Name) : Builder Unit := do
  require (isFree o (← get).keys name) (.duplicateName name)

/-- Puts the waiting comments before a key, unless they wait for the element that it heads. -/
def takeComments (id : NodeId) : Builder Unit := do
  if (← get).keyTakesComments then leadWithComments id

/-- Gives a key its number. -/
def numberKey (id : NodeId) : Builder Unit := do
  let order ← takeOrder
  change id (·.setOrder order)

/-- Ends a key: it gets a node, the comments before it, and its number. -/
def endKey (o : Options) : Builder Unit := do
  let name ← finishDraft o
  checkFree o name
  let id ← openNode { name }
  takeComments id
  numberKey id

end Builder

end TomlSemantics
