import TomlSemantics.Name.Path

/-!
# Settings
-/

namespace TomlSemantics

/-- What can be set for reading a document. -/
structure Options where
  /-- All keys go below this name. -/
  root : Name := .ofPath "user:/"
  /-- What reports call the source. -/
  filename : Option String := none
  /-- No array may have more elements. -/
  maxArrayElements : Nat := 0xffffffffffffffff
deriving DecidableEq, Repr

end TomlSemantics
