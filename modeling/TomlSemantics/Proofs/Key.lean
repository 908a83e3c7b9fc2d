import TomlSemantics.Builder.Value
import TomlSemantics.Proofs.KeySet

/-!
# Attributes of a key, read back

An attribute reads as it was set last, and setting one leaves the others alone. A value changes
nothing but value and attributes.

1. `construct_setConstruct`, `construct_setAttribute_of_ne`: the construct of a key.
2. `KeepsValue`: changes that leave the value of a key and its spelling alone.
3. `store_dress`: order and comments do not matter to a value.
-/

namespace TomlSemantics.Key

variable {k : Key} {name other text : String}

@[simp] theorem attributeText_setAttribute_self (k : Key) (name text : String) :
    (k.setAttribute name text).attributeText name = some text :=
  SortedMap.lookup_insert_self _ _ _

theorem attributeText_setAttribute_of_ne (k : Key) (text : String) (h : name ≠ other) :
    (k.setAttribute name text).attributeText other = k.attributeText other :=
  SortedMap.lookup_insert_of_ne _ _ h

/-! ## Constructs -/

@[simp] theorem construct_setConstruct (k : Key) (c : Construct) :
    (k.setConstruct c).construct = some c := by
  rw [construct, setConstruct, attributeText_setAttribute_self, Option.bind_some,
    Construct.ofSpelling_spelling]

theorem construct_setAttribute_of_ne (k : Key) (text : String) (h : name ≠ Attribute.construct) :
    (k.setAttribute name text).construct = k.construct := by
  rw [construct, attributeText_setAttribute_of_ne k text h, construct]

/-- A key that notes its last element stays what it is. -/
@[simp] theorem arrayMarker_markLastElement (k : Key) (index : Nat) :
    (k.markLastElement index).arrayMarker = some (ElementIndex.segment index) :=
  attributeText_setAttribute_self _ _ _

@[simp] theorem isTableArray_markLastElement (k : Key) (index : Nat) :
    (k.markLastElement index).isTableArray = k.isTableArray := by
  rw [isTableArray, markLastElement, construct_setAttribute_of_ne _ _ (by decide), isTableArray]

/-! ## Values and their spellings -/

/-- Two keys have the same value, spelled alike. -/
structure SameValue (k k' : Key) : Prop where
  value_eq : k.value = k'.value
  spelling_eq : k.spelling = k'.spelling

/-- A key without a value. -/
structure IsBlank (k : Key) : Prop where
  value_eq : k.value = none
  spelling_eq : k.spelling = none

/-- A change to keys that leaves their value and its spelling alone. -/
def KeepsValue (f : Key → Key) : Prop := ∀ k, (f k).SameValue k

theorem SameValue.refl (k : Key) : k.SameValue k := ⟨rfl, rfl⟩

theorem isBlank_empty (name : Name) : ({ name } : Key).IsBlank := ⟨rfl, rfl⟩

theorem IsBlank.change {f : Key → Key} (h : k.IsBlank) (keeps : KeepsValue f) : (f k).IsBlank :=
  ⟨(keeps k).value_eq.trans h.value_eq, (keeps k).spelling_eq.trans h.spelling_eq⟩

theorem keepsValue_setInline (c : Comment) : KeepsValue (·.setInline c) := fun _ => ⟨rfl, rfl⟩

theorem keepsValue_addLeading (block : List BlockEntry) : KeepsValue (·.addLeading block) :=
  fun _ => ⟨rfl, rfl⟩

theorem keepsValue_addTrailing (block : List BlockEntry) : KeepsValue (·.addTrailing block) :=
  fun _ => ⟨rfl, rfl⟩

theorem keepsValue_setOrder (n : Nat) : KeepsValue (·.setOrder n) := fun _ => ⟨rfl, rfl⟩

theorem keepsValue_setAttribute (h : name ≠ Attribute.spelling) (text : String) :
    KeepsValue (·.setAttribute name text) :=
  fun k => ⟨rfl, attributeText_setAttribute_of_ne k text h⟩

theorem keepsValue_setConstruct (c : Construct) : KeepsValue (·.setConstruct c) :=
  keepsValue_setAttribute (by decide) _

theorem keepsValue_markArray : KeepsValue Key.markArray :=
  keepsValue_setAttribute (by decide) _

theorem keepsValue_markLastElement (index : Nat) : KeepsValue (·.markLastElement index) :=
  keepsValue_setAttribute (by decide) _

/-! ## Order and comments -/

/-- The key with all but its value and attributes changed. -/
def dress (k : Key) (name : Name) (order : Option Nat) (comments : Comments) : Key :=
  { k with name, order, comments }

/-- The key without its number. -/
def unordered (k : Key) : Key := { k with order := none }

theorem noteSpelling_dress (k : Key) (m : Name) (n : Option Nat) (c : Comments) (s : String) :
    (k.dress m n c).noteSpelling s = (k.noteSpelling s).dress m n c := by
  by_cases same : k.text = some s
  · rw [noteSpelling, noteSpelling, if_pos same]
    exact if_pos same
  · rw [noteSpelling, noteSpelling, if_neg same]
    exact if_neg same

theorem storeString_dress (k : Key) (m : Name) (n : Option Nat) (c : Comments)
    (text spelling : String) :
    (k.dress m n c).storeString text spelling = (k.storeString text spelling).dress m n c := by
  have typed : (if ((k.dress m n c).setText text).valueType ≠ some .binary ∧ text ≠ ""
        then ((k.dress m n c).setText text).setValueType .string else (k.dress m n c).setText text) =
      (if (k.setText text).valueType ≠ some .binary ∧ text ≠ ""
        then (k.setText text).setValueType .string else k.setText text).dress m n c := by
    by_cases untyped : (k.setText text).valueType ≠ some .binary ∧ text ≠ ""
    · rw [if_pos untyped]
      exact if_pos untyped
    · rw [if_neg untyped]
      exact if_neg untyped
  unfold storeString
  dsimp only
  split
  · rfl
  · split
    · rfl
    · rw [typed, noteSpelling_dress]

/-- Storing a value leaves number and comments alone. -/
theorem store_dress (k : Key) (m : Name) (n : Option Nat) (c : Comments) (storage : Storage)
    (text spelling : String) :
    (k.dress m n c).store storage text spelling = (k.store storage text spelling).dress m n c := by
  cases storage with
  | quoted construct => rw [store, storeString_dress]; rfl
  | typed t keepSpelling =>
    unfold store
    dsimp only
    split
    · exact noteSpelling_dress ((k.setText text).setValueType t) m n c spelling
    · rfl
  | plain => exact noteSpelling_dress (k.setText text) m n c spelling

theorem store_eq_dress (k : Key) (storage : Storage) (text spelling : String) :
    k.store storage text spelling =
      (k.store storage text spelling).dress k.name k.order k.comments :=
  store_dress k k.name k.order k.comments storage text spelling

theorem name_store (k : Key) (storage : Storage) (text spelling : String) :
    (k.store storage text spelling).name = k.name := by
  rw [store_eq_dress]
  rfl

end TomlSemantics.Key
