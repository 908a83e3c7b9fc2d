import TomlSemantics.KeySet.Basic
import TomlSemantics.Fault

/-!
# Open arrays of tables

A header `[[a.b]]` opens an element of an array of tables, and what follows goes into that element
until another header closes it. Scopes are the arrays that are open, the innermost first; each
lies below the one after it.

* `Scope.element` names the current element of the innermost array: the index of every array
  around it is spliced into its name, as in `root/a/#1/b/#0`.
* `Scope.enter` opens the next element of an array.
* `Scope.place` says where a header `[a.b]` goes.
-/

namespace TomlSemantics

/-- An open array of tables: its name without indices, and the index of its current element. -/
structure Scope where
  name : Name
  index : Nat
deriving DecidableEq, Repr

namespace Scope

/-! ## Names inside the open arrays -/

/-- The name of the innermost array, or the root outside of all arrays. -/
def base (root : Name) : List Scope → Name
  | [] => root
  | scope :: _ => scope.name

/-- The current element of the innermost array, or the root outside of all arrays. -/
def element (root : Name) : List Scope → Except Cause Name
  | [] => .ok root
  | scope :: outer => do
      let enclosing ← element root outer
      match scope.name.relativeTo (base root outer) with
      | some path => return (enclosing.join path).child (ElementIndex.segment scope.index)
      | none => throw (.scopeOutside scope.name (base root outer))

/-- The name of an array inside the current element of the innermost array around it. -/
def container (root : Name) (scopes : List Scope) (name : Name) : Except Cause Name := do
  let enclosing ← element root scopes
  match name.relativeTo (base root scopes) with
  | some path => return enclosing.join path
  | none => throw (.scopeOutside name (base root scopes))

/-- The index of the last element of an array of tables that the set has. -/
def lastElement (keys : KeySet) (container : Name) : Option Nat :=
  (keys.lookup container).bind Key.lastTableElement

/-! ## Opening an element -/

/-- The names between the root and `name`, without either, from the top down. -/
def ancestors (root name : Name) : List Name :=
  (List.range' (root.size + 1) (name.size - (root.size + 1))).map fun n =>
    ⟨name.segments.take n⟩

/-- The scopes with an array opened again at its last element, if the set has one there. -/
def reopen (keys : KeySet) (root : Name) (scopes : List Scope) (name : Name) :
    Except Cause (List Scope) := do
  match lastElement keys (← container root scopes name) with
  | some index => return ⟨name, index⟩ :: scopes
  | none => return scopes

/-- The scopes with an array opened at a new element, after the last that the set has. Indices have
no bound here. In a word of 64 bits, `index + 1` is the same while `index + 1 < ElementIndex.limit`,
so up to the element before the last that a segment can name; after that the word overflows. -/
def begin (keys : KeySet) (root : Name) (scopes : List Scope) (name : Name) :
    Except Cause (List Scope) := do
  match lastElement keys (← container root scopes name) with
  | some index => return ⟨name, index + 1⟩ :: scopes
  | none => return ⟨name, 0⟩ :: scopes

/-- The scopes after a header `[[name]]`. The innermost array goes on to its next element if it has
the name, and stays open if it lies above; otherwise it is closed. Once no array is left open,
those around `name` that the set knows are opened again. As in `begin`, the next index is that of a
word of 64 bits while it is below `ElementIndex.limit`. -/
def enter (keys : KeySet) (root name : Name) : List Scope → Except Cause (List Scope)
  | [] => do
      let scopes ← (ancestors root name).foldlM (reopen keys root) []
      begin keys root scopes name
  | scope :: outer =>
      if scope.name = name then .ok ({ scope with index := scope.index + 1 } :: outer)
      else if name.isBelow scope.name then begin keys root (scope :: outer) name
      else enter keys root name outer

/-! ## Placing a table -/

/-- Where a header `[name]` goes. -/
inductive Placement
  /-- Outside of all open arrays. -/
  | outside
  /-- Inside the current element of an open array. -/
  | inside (name : Name)
  /-- The name is that of an open array. -/
  | arrayItself
deriving DecidableEq, Repr

/-- Where a header `[name]` goes: into the innermost open array above it. -/
def place (root name : Name) : List Scope → Except Cause Placement
  | [] => .ok .outside
  | scope :: outer =>
      if name = scope.name then .ok .arrayItself
      else match name.relativeTo scope.name with
        | some path => do return .inside ((← element root (scope :: outer)).join path)
        | none => place root name outer

end Scope

end TomlSemantics
