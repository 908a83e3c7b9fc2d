import TomlSemantics.Builder.Step
import TomlSemantics.Document

/-!
# Assembling a document by recursion

The steps of the builder keep what is open on stacks. A document says by itself what is open where:
a value lies in its key, an element in its array, a pair in its table. Here the same keys are
assembled by recursion over lines and values, without slots, stacks or flags. `ValueRun` and
`LineRun` prove that the builder does the same.

1. `Sheet`: the set that the keys go into, and the number of the next key.
2. `Value.assemble`: what a value makes of its own key, and the keys below it. `ArrayDraft` is an
   array whose items are being read.
3. `Outline`: what one line leaves to the next. `Line.assemble` reads a line,
   `Document.assemble` all of them.
-/

namespace TomlSemantics

/-- A comment by what follows its mark. -/
def Comment.marked (text : String) : Comment := ⟨text, "#" ++ text⟩

/-- The segments that a key gives to a name. -/
def KeyPath.segments : KeyPath → Except Cause (List String)
  | [] => .ok []
  | s :: rest => do return (← s.keySegments) ++ (← KeyPath.segments rest)

/-! ## Sheets -/

/-- The keys that are in the set, and the number that the next key gets. -/
structure Sheet where
  keys : KeySet
  nextOrder : Nat

namespace Sheet

/-- The sheet with a key put into the set. -/
def put (sheet : Sheet) (key : Key) : Sheet := { sheet with keys := sheet.keys.append key }

/-- The sheet with the comment on the line of a key, if there is one. -/
def annotate (sheet : Sheet) (key : Key) : Option String → Sheet
  | none => sheet
  | some text => sheet.put (key.setInline (.marked text))

/-- Refuses a name that is taken. -/
def checkFree (o : Options) (sheet : Sheet) (name : Name) : Except Cause Unit :=
  if Builder.isFree o sheet.keys name then .ok () else .error (.duplicateName name)

/-- A key with a name that is free, the comments before it, and its number. -/
def begin (o : Options) (sheet : Sheet) (name : Name) (block : List BlockEntry) :
    Except Cause (Key × Sheet) := do
  sheet.checkFree o name
  return ((({ name } : Key).addLeading block).setOrder sheet.nextOrder,
    { sheet with nextOrder := sheet.nextOrder + 1 })

/-- The sheet with a key for an array of tables, on which its last element is noted. -/
def recordTableArray (sheet : Sheet) (container : Name) (index : Nat) : Sheet :=
  if (sheet.keys.lookup container).isSome then
    { sheet with keys := sheet.keys.adjust container (·.markLastElement index) }
  else
    let key : Key := { name := container }
    { keys := sheet.keys.append
        (((key.setConstruct .tableArray).markLastElement index).setOrder sheet.nextOrder)
      nextOrder := sheet.nextOrder + 1 }

end Sheet

/-! ## Arrays -/

/-- An array whose items are being read. -/
structure ArrayDraft where
  /-- The key of the array, which is not in the set yet. -/
  array : Key
  /-- The index that the next element gets. -/
  next : Nat := 0
  /-- The key of the last element. -/
  last : Option Key := none
  /-- The comments since the last element. -/
  comments : CommentQueue := {}
  sheet : Sheet

namespace ArrayDraft

/-- The last element with the comment on its line. -/
def settle (a : ArrayDraft) : ArrayDraft :=
  match a.last, a.comments.takeFirst with
  | some key, some (comment, rest) =>
      let key := key.setInline comment
      { a with last := some key, comments := rest, sheet := a.sheet.put key }
  | _, _ => a

/-- The array that notes its next element. -/
def noted (a : ArrayDraft) : Key := a.array.markLastElement a.next

/-- The key of the next element, with the comments before it. -/
def element (a : ArrayDraft) : Key :=
  ({ name := a.array.name.child (ElementIndex.segment a.next) } : Key).addLeading a.comments.contents

/-- The array with its next element complete. -/
def add (a : ArrayDraft) (key : Key) (sheet : Sheet) : ArrayDraft :=
  { array := a.noted, next := a.next + 1, last := some key, sheet }

/-- The key of the array in the end, with the comments after its last element. -/
def finish (a : ArrayDraft) : Key × Sheet :=
  let settled := a.settle
  let key := settled.array.addTrailing settled.comments.contents
  (key, settled.sheet.put key)

end ArrayDraft

/-! ## Values -/

mutual

/-- What a value makes of its own key, which goes into the set, and the keys below it. -/
def Value.assemble (o : Options) : Value → Key → Sheet → Except Cause (Key × Sheet)
  | .scalar s, own, sheet => do
      s.checkValue
      let form ← Builder.storedForm s
      let own := own.store form.2 form.1 s.spelling
      return (own, sheet.put own)
  | .array items, own, sheet => do
      let a ← assembleItems o items { array := own.markArray, sheet }
      return a.finish
  | .inlineTable pairs, own, sheet => do
      let own := own.setConstruct .inlineTable
      let sheet ← assemblePairs o pairs own.name (sheet.put own)
      return (own, sheet)

/-- What something in an array adds to it. -/
def Item.assemble (o : Options) : Item → ArrayDraft → Except Cause ArrayDraft
  | .value v, a => do
      if o.maxArrayElements ≤ a.next then throw (.arrayTooLong o.maxArrayElements)
      let a := a.settle
      let (key, sheet) ← v.assemble o a.element a.sheet
      return a.add key sheet
  | .comment text, a => .ok { a with comments := a.comments.push (.marked text) }
  | .blankLine, a => do return { a with comments := ← a.comments.newline }

/-- What stands in an array adds to it. -/
def assembleItems (o : Options) : List Item → ArrayDraft → Except Cause ArrayDraft
  | [], a => .ok a
  | item :: items, a => do assembleItems o items (← item.assemble o a)

/-- The keys of a pair in an inline table. -/
def assemblePair (o : Options) : KeyPath × Value → Name → Sheet → Except Cause Sheet
  | (key, v), table, sheet => do
      let (own, sheet) ← sheet.begin o (table.join (← key.segments)) []
      let (_, sheet) ← v.assemble o own sheet
      return sheet

/-- The keys of the pairs in an inline table. -/
def assemblePairs (o : Options) : List (KeyPath × Value) → Name → Sheet → Except Cause Sheet
  | [], _, sheet => .ok sheet
  | pair :: pairs, table, sheet => do
      assemblePairs o pairs table (← assemblePair o pair table sheet)

end

/-- The key of a pair below a table, and what the value makes of it. -/
def assembleBelow (o : Options) (table : Name) (block : List BlockEntry) (key : KeyPath)
    (x : Value) (sheet : Sheet) : Except Cause (Key × Sheet) := do
  let opened ← (do sheet.begin o (table.join (← key.segments)) block)
  x.assemble o opened.1 opened.2

theorem assemblePair_eq (o : Options) (key : KeyPath) (x : Value) (table : Name) (sheet : Sheet) :
    assemblePair o (key, x) table sheet = (do return (← assembleBelow o table [] key x sheet).2) := by
  simp only [assemblePair, assembleBelow, bind_assoc]

/-! ## Lines -/

/-- What one line leaves to the next. -/
structure Outline where
  sheet : Sheet
  /-- The comments whose key is still to come. -/
  comments : CommentQueue := {}
  /-- The open arrays of tables, the innermost first. -/
  scopes : List Scope := []
  /-- The table that is open. -/
  table : Option Name := none

namespace Outline

/-- Nothing read yet. -/
def start (keys : KeySet) : Outline := { sheet := { keys, nextOrder := 0 } }

/-- The name that the key of a pair starts from. -/
def base (o : Options) (out : Outline) : Except Cause Name :=
  match out.table with
  | some name => .ok name
  | none => Scope.element o.root out.scopes

end Outline

/-- Where the header of a table goes. -/
def Scope.placeHeader (root name : Name) (scopes : List Scope) : Except Cause Name := do
  match ← Scope.place root name scopes with
  | .outside => return name
  | .inside placed => return placed
  | .arrayItself => throw (.tableIsTableArray name)

/-- The arrays of tables that are open after a header. -/
def Outline.enter (o : Options) (out : Outline) (name : Name) : Except Cause (List Scope) :=
  if name.isBelow o.root then Scope.enter out.sheet.keys o.root name out.scopes
  else .error .namelessTableArray

/-- An element with the name of its array. -/
def Name.withArray (element : Name) : Except Cause (Name × Name) :=
  match element.parent with
  | some container => .ok (element, container)
  | none => .error .elementWithoutArray

/-- The current element of the innermost array of tables, and the name of that array. -/
def Scope.currentElement (root : Name) (scopes : List Scope) : Except Cause (Name × Name) := do
  (← Scope.element root scopes).withArray

/-- The next element of an array of tables: its key, and what its header leaves. -/
def Outline.openElement (o : Options) (out : Outline) (name : Name) :
    Except Cause (Key × Outline) := do
  let scopes ← out.enter o name
  let opened ← Scope.currentElement o.root scopes
  let sheet := out.sheet.recordTableArray opened.2 ((scopes.head?.map Scope.index).getD 0)
  let own := ({ name := opened.1 } : Key).addLeading out.comments.contents
  return (own, { sheet := sheet.put own, scopes })

/-- The key of a table, placed among the open arrays of tables. -/
def Outline.beginTable (o : Options) (out : Outline) (name : Name) : Except Cause (Key × Sheet) := do
  out.sheet.begin o (← Scope.placeHeader o.root name out.scopes) out.comments.contents

namespace Line

/-- What a pair leaves to the next line. -/
def assemblePair (o : Options) (key : KeyPath) (v : Value) (c : Option String) (out : Outline) :
    Except Cause Outline := do
  let made ← assembleBelow o (← out.base o) out.comments.contents key v out.sheet
  return { out with sheet := made.2.annotate made.1 c, comments := {} }

/-- What the header of a table leaves to the next line. -/
def assembleTable (o : Options) (key : KeyPath) (c : Option String) (out : Outline) :
    Except Cause Outline := do
  let opened ← out.beginTable o (o.root.join (← key.segments))
  let own := opened.1.setConstruct .table
  return { out with
    sheet := (opened.2.put own).annotate own c, comments := {}, table := some own.name }

/-- What the header of an array of tables leaves to the next line. -/
def assembleTableArray (o : Options) (key : KeyPath) (c : Option String) (out : Outline) :
    Except Cause Outline := do
  let name := o.root.join (← key.segments)
  out.sheet.checkFree o name
  let opened ← out.openElement o name
  return { opened.2 with sheet := opened.2.sheet.annotate opened.1 c }

/-- What a line leaves to the next. Events that are no line are left out. -/
def assemble (o : Options) : Line → Outline → Except Cause Outline
  | pair key v c, out => assemblePair o key v c out
  | table key c, out => assembleTable o key c out
  | tableArray key c, out => assembleTableArray o key c out
  | comment text, out => .ok { out with comments := out.comments.push (.marked text) }
  | blank, out => do return { out with comments := ← out.comments.newline }
  | raw _, out => .ok out

end Line

/-- The names of what is open: the table, the element of the innermost array, and the root. -/
def Outline.openNames (o : Options) (out : Outline) : Except Cause (List Name) := do
  let element ← Scope.element o.root out.scopes
  return out.table.toList ++ if out.scopes.isEmpty then [o.root] else [element, o.root]

/-- The set in the end: comments that still wait are put before the key of the root. -/
def Outline.finish (o : Options) (out : Outline) : KeySet :=
  if out.comments.isEmpty then out.sheet.keys
  else if (out.sheet.keys.lookup o.root).isSome then
    out.sheet.keys.adjust o.root (·.addLeading out.comments.contents)
  else out.sheet.keys.append (({ name := o.root } : Key).addLeading out.comments.contents)

namespace Document

/-- What lines leave to the next. -/
def outline (o : Options) : List Line → Outline → Except Cause Outline
  | [], out => .ok out
  | line :: rest, out => do outline o rest (← line.assemble o out)

/-- The keys of a document. -/
def assemble (o : Options) (lines : List Line) : Except Cause KeySet := do
  return (← outline o lines (.start ∅)).finish o

end Document

end TomlSemantics
