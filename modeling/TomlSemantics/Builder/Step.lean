import TomlSemantics.Event
import TomlSemantics.Builder.Table
import TomlSemantics.Builder.Array

/-!
# One event

Every event is a step. The first step that stops with a cause makes it the fault of the document;
later events change nothing.
-/

namespace TomlSemantics

namespace Builder

/-! ## The document and its comments -/

/-- The document starts. -/
def startDocument : Builder Unit := do
  require (!(← get).started) .documentStartedTwice
  modify fun s => { s with started := true }

/-- Puts comments before the key of the root, which may not be in the output yet. -/
def leadRoot (o : Options) (block : List BlockEntry) : Builder Unit := do
  if (← get).output.has o.root then
    modify fun s => { s with output := s.output.adjust o.root (·.addLeading block) }
  else
    let key : Key := { name := o.root }
    handOver (key.addLeading block)

/-- The document ends: comments that still wait are put before the key of the root. -/
def endDocument (o : Options) : Builder Unit := do
  if !(← get).comments.isEmpty then leadRoot o (← drainComments)

/-- A comment waits for its key. -/
def queueComment (scalar : Scalar) : Builder Unit := do
  setLocation scalar.location
  require (scalar.kind = .comment) (.notAComment scalar.kind)
  modify fun s => { s with comments := s.comments.push ⟨scalar.text, scalar.spelling⟩ }

/-- A blank line waits to be counted. -/
def queueBlankLine : Builder Unit := do
  let s ← get
  let comments ← lift s.comments.newline
  set { s with comments }

/-- The comment on the line of the last pair or header, if there is one. -/
def takeLineComment (site : CommentSite) : Builder (Option Comment) := do
  let s ← get
  match ← lift (s.comments.takeOnly site) with
  | none => return none
  | some (comment, rest) =>
      set { s with comments := rest }
      return some comment

/-- Gives the last pair the comment on its line. -/
def commentPair : Builder Unit := do
  match ← takeLineComment .pair with
  | none => return ()
  | some comment =>
      match (← get).nodes.previous with
      | none => throw .noPairForComment
      | some id => change id (·.setInline comment)

/-- Gives the innermost open node the comment on the line of its header. -/
def commentHeader : Builder Unit := do
  match ← takeLineComment .header with
  | none => return ()
  | some comment => change (← top) (·.setInline comment)

/-- The grammar cannot go on. -/
def reject (message : String) (location : Location) : Builder Unit := do
  setLocation location
  throw (.rejected message)

end Builder

/-! ## Steps -/

open Builder in
/-- The step that an event stands for. -/
def Event.step (o : Options) : Event → Builder Unit
  | documentStart => startDocument
  | documentEnd => endDocument o
  | keyStart => startDraft o
  | keyEnd => endKey o
  | keySegment s => extendDraft s
  | pairEnd => endValue
  | pairComment => commentPair
  | headerComment => commentHeader
  | value s => holdValue s
  | tableStart => startTable o
  | tableEnd => emitAs .table
  | tableArrayStart => startTableArray o
  | tableArrayEnd => endTableArray o
  | arrayStart => startArray
  | arrayEnd => endArray
  | emptyArray => do startArray; endArray
  | elementStart => startElement o
  | elementEnd => endValue
  | inlineTableStart | emptyInlineTable => emitAs .inlineTable
  | inlineTableEnd => dropHeld
  | comment s => queueComment s
  | blankLine => queueBlankLine
  | syntaxError message location => reject message location

namespace State

/-- The state after an event, and the fault that the event caused. A fault is placed at the last
scalar or syntax error. -/
def feed (o : Options) (s : State) (e : Event) : State × Option Fault :=
  match s.fault with
  | some _ => (s, none)
  | none =>
      match (e.step o).run s with
      | .ok _ s => (s, none)
      | .error cause s =>
          let fault : Fault := ⟨cause, some s.location⟩
          ({ s with fault := some fault }, some fault)

/-- The state after all events, whether one of them caused a fault or not. -/
def feedAll (o : Options) (s : State) (events : List Event) : State :=
  events.foldl (fun s e => (s.feed o e).1) s

/-- The state after the events up to the first fault. -/
def feedUntilFault (o : Options) (s : State) : List Event → State
  | [] => s
  | e :: rest =>
      match s.feed o e with
      | (s, none) => feedUntilFault o s rest
      | (s, some _) => s

/-- The state with every node let go and nothing left to do. -/
def close (s : State) : State :=
  { s with
    nodes := s.nodes.closeAll
    scopes := [], arrays := [], comments := {}, draft := none, held := none }

/-- The set of keys in the end, or the fault that stopped the reading. -/
def finish (s : State) : Except Fault KeySet :=
  match s.close.fault with
  | some fault => .error fault
  | none => .ok s.close.keys

end State

end TomlSemantics
