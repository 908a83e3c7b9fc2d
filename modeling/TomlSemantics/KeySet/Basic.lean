import TomlSemantics.Key.Basic
import TomlSemantics.Name.Path

/-!
# Sets of keys

A set holds at most one key for each name, in name order. A key stays where it was put when its
own name is changed in place.
-/

namespace TomlSemantics

/-- A set of keys, in the order of the names that they were put under. -/
structure KeySet where
  byName : SortedMap Name Key := ∅
deriving DecidableEq

namespace KeySet

instance : EmptyCollection KeySet := ⟨⟨∅⟩⟩
instance : Inhabited KeySet := ⟨⟨∅⟩⟩

/-- The keys in name order. -/
def toList (s : KeySet) : List Key := s.byName.values

/-- The number of keys. -/
def size (s : KeySet) : Nat := s.byName.size

/-- The key of a name. -/
def lookup (s : KeySet) (name : Name) : Option Key := s.byName.lookup name

/-- The key of a name that is written as a path. -/
def get? (s : KeySet) (path : String) : Option Key := s.lookup (.ofPath path)

/-- The set with a key, in place of the one that had its name. -/
def append (s : KeySet) (k : Key) : KeySet := ⟨s.byName.insert k.name k⟩

/-- The set with the key of a name changed where it stands. -/
def adjust (s : KeySet) (name : Name) (f : Key → Key) : KeySet := ⟨s.byName.adjust name f⟩

/-- The set that the keys of a list give, put into `s` one after another. -/
def appendAll (s : KeySet) (keys : List Key) : KeySet := keys.foldl append s

/-- The set that the keys of a list give. -/
def ofList (keys : List Key) : KeySet := appendAll ∅ keys

/-- The keys of `s` put into `target`. -/
def mergeInto (s target : KeySet) : KeySet := target.appendAll s.toList

/-- The numbered keys in the order of their numbers; keys of one number stay in name order. -/
def byOrder (s : KeySet) : List (Nat × Key) :=
  (s.toList.filterMap fun k => k.order.map (·, k)).mergeSort fun a b => a.1 ≤ b.1

@[simp] theorem lookup_append_self (s : KeySet) (k : Key) :
    (s.append k).lookup k.name = some k :=
  SortedMap.lookup_insert_self _ _ _

theorem lookup_append_of_ne (s : KeySet) {k : Key} {name : Name} (h : k.name ≠ name) :
    (s.append k).lookup name = s.lookup name :=
  SortedMap.lookup_insert_of_ne _ _ h

end KeySet

end TomlSemantics
