import TomlSemantics.KeySet.Basic

/-!
# Finished keys

Keys that are finished go into a set. A key that changes afterwards goes there again, so the names
that were handed over can repeat.
-/

namespace TomlSemantics

/-- The set that keys go into, and the names of those that went, the last first. -/
structure Output where
  keys : KeySet
  handed : List Name := []
deriving DecidableEq

namespace Output

/-- The output with a key put into the set. -/
def put (o : Output) (key : Key) : Output :=
  { keys := o.keys.append key, handed := key.name :: o.handed }

/-- The output with the key of a name changed in the set. -/
def adjust (o : Output) (name : Name) (f : Key → Key) : Output :=
  { o with keys := o.keys.adjust name f }

/-- Whether the set has a key of a name. -/
def has (o : Output) (name : Name) : Bool := (o.keys.lookup name).isSome

end Output

end TomlSemantics
