import Mathlib.Logic.Relation
import TomlSemantics.Builder.Output
import TomlSemantics.Proofs.Key
import TomlSemantics.Proofs.Name

/-!
# Changes to keys and to the output

Keys are built by few kinds of changes, and none of them looks at the name of the key or touches
it. What goes into the output are keys that were built so, inside of the root, and the keys in the
output are changed in place only there.

1. `Key.Edit`: the changes that are made to a key. `Edit.rename`: the name does not matter to them.
2. `Key.Built`: the keys that come about, from empty ones at names inside of the root.
3. `Output.Edits`: what happens to the output. `Edits.lookup_outside`: keys elsewhere stay as they
   are. `Edits.handed_within`: no others are handed over.
-/

namespace TomlSemantics

variable {root name : Name} {k : Key} {f : Key → Key}

/-! ## Keys -/

namespace Key

/-- The changes that are made to a key. -/
inductive Edit : (Key → Key) → Prop
  | inline (c : Comment) : Edit (·.setInline c)
  | leading (block : List BlockEntry) : Edit (·.addLeading block)
  | trailing (block : List BlockEntry) : Edit (·.addTrailing block)
  | order (n : Nat) : Edit (·.setOrder n)
  | construct (c : Construct) : Edit (·.setConstruct c)
  | array : Edit Key.markArray
  | element (index : Nat) : Edit (·.markLastElement index)
  | value (s : Scalar) (text : String) (storage : Storage) :
      Builder.storedForm s = .ok (text, storage) → Edit (·.store storage text s.spelling)

/-- Storing a value does not touch the name. -/
theorem store_rename (k : Key) (name : Name) (storage : Storage) (text spelling : String) :
    ({ k with name } : Key).store storage text spelling =
      { k.store storage text spelling with name } := by
  calc ({ k with name } : Key).store storage text spelling
      = (k.store storage text spelling).dress name k.order k.comments :=
        store_dress k name k.order k.comments storage text spelling
    _ = { k.store storage text spelling with name } := by
        rw [store_eq_dress]
        rfl

/-- No change looks at the name or touches it. -/
theorem Edit.rename (h : Edit f) (k : Key) (name : Name) :
    f { k with name } = { f k with name } := by
  cases h with
  | value s text storage => exact store_rename k name storage text s.spelling
  | _ => rfl

theorem Edit.name_eq (h : Edit f) (k : Key) : (f k).name = k.name := by
  have renamed := congrArg Key.name (h.rename k k.name)
  exact renamed

/-- The keys that come about by changes, from empty ones at names inside of a root. -/
inductive Built (root : Name) : Key → Prop
  | empty (name : Name) : name.isWithin root = true → Built root { name }
  | edit {f : Key → Key} {k : Key} : Edit f → Built root k → Built root (f k)

theorem Built.isWithin (h : k.Built root) : k.name.isWithin root = true := by
  induction h with
  | empty name within => exact within
  | edit edit _ ih => rwa [edit.name_eq]

end Key

/-! ## The output -/

namespace Output

variable {out out' : Output}

/-- One change to the output, inside of a root. -/
inductive Edit (root : Name) (out : Output) : Output → Prop
  | put (key : Key) : key.Built root → Edit root out (out.put key)
  | adjust (name : Name) (f : Key → Key) : name.isWithin root = true → Key.Edit f →
      Edit root out (out.adjust name f)

/-- Any number of changes to the output. -/
abbrev Edits (root : Name) : Output → Output → Prop := Relation.ReflTransGen (Edit root)

theorem Edit.lookup_outside (h : out.Edit root out') (outside : ¬ name.isWithin root = true) :
    out'.keys.lookup name = out.keys.lookup name := by
  cases h with
  | put key built =>
    refine KeySet.lookup_append_of_ne out.keys fun same => outside ?_
    rw [← same]
    exact built.isWithin
  | adjust other f within edit =>
    refine (KeySet.lookup_adjust out.keys other name f).trans (if_neg fun same => outside ?_)
    rw [same]
    exact within

/-- Keys elsewhere stay as they are. -/
theorem Edits.lookup_outside (h : out.Edits root out') (outside : ¬ name.isWithin root = true) :
    out'.keys.lookup name = out.keys.lookup name := by
  induction h with
  | refl => rfl
  | tail _ last ih => rw [last.lookup_outside outside, ih]

/-- Only keys inside of the root are handed over. -/
theorem Edits.handed_within (h : out.Edits root out')
    (before : ∀ n ∈ out.handed, n.isWithin root = true) :
    ∀ n ∈ out'.handed, n.isWithin root = true := by
  induction h with
  | refl => exact before
  | tail _ last ih =>
    cases last with
    | put key built => exact List.forall_mem_cons.mpr ⟨built.isWithin, ih⟩
    | adjust => exact ih

end Output

end TomlSemantics
