import TomlSemantics.Builder.Value
import TomlSemantics.Proofs.KeySet

/-!
# What keys hold

A key holds a value and attributes. `Holding` is both as plain data, with the names and texts that
stand in the tree, and says nothing about how they come there. Every setter of a key changes one
field of it, and storing a scalar makes it what the scalar leaves in a key.

1. `Holding`, `Holding.attributes`: the data, and the attributes as a key has them.
2. `Holding.ofArray`, `Scalar.holding`: what an array and a scalar leave in a key.
3. `Key.holding`: a key that holds something. `Key.setText_holding`, `Key.setConstruct_holding` and
   so on: what its setters change.
4. `Key.store_holding`: storing a scalar.
-/

namespace TomlSemantics

/-! ## Values and attributes as data -/

/-- What a key holds: its value, and the texts of its attributes. -/
structure Holding where
  value : Option KeyValue := none
  /-- On an array, the segment of the last element; empty while there is none. -/
  array : Option String := none
  /-- On bytes, without a text. -/
  binary : Option String := none
  /-- How the value was spelled, where that is not how it is stored. -/
  spelling : Option String := none
  /-- The quotes of a string, or the kind of a table. -/
  construct : Option String := none
  /-- The type of the value. -/
  type : Option String := none
deriving DecidableEq, Repr

namespace Holding

variable {h h' : Holding} {name text : String}

/-- The attributes that there can be, in the order of their names. -/
def slots (h : Holding) : List (String × Option String) :=
  [("array", h.array), ("binary", h.binary), ("origvalue", h.spelling), ("tomltype", h.construct),
    ("type", h.type)]

/-- The attributes that there are. -/
def entries (h : Holding) : List (String × String) :=
  h.slots.filterMap fun slot => slot.2.map (slot.1, ·)

theorem entries_sorted (h : Holding) : h.entries.Pairwise fun a b => a.1 < b.1 := by
  have names : (h.slots.map (·.1)).Pairwise (· < ·) := by
    show ["array", "binary", "origvalue", "tomltype", "type"].Pairwise (· < ·)
    decide
  have sorted : h.slots.Pairwise fun a b => a.1 < b.1 := List.pairwise_map.mp names
  refine List.pairwise_filterMap.mpr (sorted.imp fun {a b} less c here d there => ?_)
  obtain ⟨_, -, rfl⟩ := Option.map_eq_some_iff.mp here
  obtain ⟨_, -, rfl⟩ := Option.map_eq_some_iff.mp there
  exact less

/-- The attributes as a key has them. -/
def attributes (h : Holding) : SortedMap String String := ⟨h.entries, h.entries_sorted⟩

theorem lookup_attributes_eq_some_iff :
    h.attributes.lookup name = some text ↔ (name, some text) ∈ h.slots := by
  rw [SortedMap.lookup_eq_some_iff]
  simp [attributes, entries]

/-- Whether two holdings have the same attributes but for one. -/
def AgreeBut (name : String) (h h' : Holding) : Prop :=
  ∀ other, other ≠ name → ∀ text, (other, text) ∈ h.slots ↔ (other, text) ∈ h'.slots

theorem AgreeBut.lookup_eq (agree : AgreeBut name h h') {other : String} (differs : other ≠ name) :
    h.attributes.lookup other = h'.attributes.lookup other :=
  Option.ext fun text => by
    rw [lookup_attributes_eq_some_iff, lookup_attributes_eq_some_iff, agree other differs]

theorem insert_attributes (agree : AgreeBut name h h') (set : (name, some text) ∈ h'.slots) :
    h.attributes.insert name text = h'.attributes := by
  refine SortedMap.ext_lookup fun other => ?_
  by_cases same : name = other
  · subst same
    rw [SortedMap.lookup_insert_self, lookup_attributes_eq_some_iff.mpr set]
  · rw [SortedMap.lookup_insert_of_ne _ _ same, agree.lookup_eq (Ne.symm same)]

theorem erase_attributes (agree : AgreeBut name h h')
    (gone : ∀ text, (name, some text) ∉ h'.slots) :
    h.attributes.erase name = h'.attributes := by
  refine SortedMap.ext_lookup fun other => ?_
  by_cases same : name = other
  · subst same
    have none : h'.attributes.lookup name = none :=
      Option.eq_none_iff_forall_ne_some.mpr fun text found =>
        gone text (lookup_attributes_eq_some_iff.mp found)
    rw [none, SortedMap.lookup_erase_self]
  · rw [SortedMap.lookup_erase_of_ne _ same, agree.lookup_eq (Ne.symm same)]

/-! ## What values leave in a key -/

/-- A spelling that is kept beside a text, if it is another one. -/
def beside (text spelling : String) : Option String :=
  if text = spelling then none else some spelling

/-- A text of some type or none, with its spelling. -/
def ofText (type : Option String) (text spelling : String) : Holding where
  value := some (.text text)
  type
  spelling := beside text spelling

/-- A string in quotes. One text stands for no value and some for bytes in base 64; those have
neither type nor spelling. An empty string has no type. -/
def ofString (quotes text spelling : String) : Holding :=
  if text = "@NULL" then
    { value := some (.bytes []), binary := some "", construct := some quotes }
  else if "@BASE64".toList <+: text.toList then
    { value := some (.text text), construct := some quotes }
  else
    { ofText (if text = "" then none else some "string") text spelling with
      construct := some quotes }

/-- An array with a number of elements. -/
def ofArray : (count : Nat) → Holding
  | 0 => { array := some "" }
  | index + 1 => { array := some (ElementIndex.segment index) }

end Holding

/-- What a scalar leaves in a key, with its canonical text. -/
def Scalar.holding (s : Scalar) (text : String) : Holding :=
  match s.kind with
  | .basic => .ofString "string_basic" text s.spelling
  | .literal => .ofString "string_literal" text s.spelling
  | .multilineBasic => .ofString "string_ml_basic" text s.spelling
  | .multilineLiteral => .ofString "string_ml_literal" text s.spelling
  | .boolean => { value := some (.text text), type := some "boolean" }
  | .decimal => .ofText (some "long_long") text s.spelling
  | .binary | .octal | .hex => .ofText (some "unsigned_long_long") text s.spelling
  | .float | .inf | .posInf | .negInf | .nan | .posNan | .negNan =>
      .ofText (some "double") text s.spelling
  | .offsetDateTime | .localDateTime | .localDate | .localTime => .ofText none text s.spelling
  | .bare | .comment => {}

/-- No scalar leaves an array of tables. -/
theorem Scalar.construct_holding_ne (s : Scalar) (text : String) :
    (s.holding text).construct ≠ some "tablearray" := by
  have quoted {quotes : String} (other : quotes ≠ "tablearray") :
      (Holding.ofString quotes text s.spelling).construct ≠ some "tablearray" := by
    unfold Holding.ofString
    split
    · simpa using other
    · split <;> simpa using other
  unfold holding
  split
  all_goals first
    | exact quoted (by decide)
    | exact nofun

/-! ## Setters -/

namespace Key

/-- The key with what it holds, whatever that was before. -/
def holding (k : Key) (h : Holding) : Key := { k with value := h.value, attributes := h.attributes }

/-- A key that holds nothing yet, with no comments after its last element. -/
structure IsNew (k : Key) : Prop where
  value_eq : k.value = none
  attributes_eq : k.attributes = ∅
  trailing_eq : k.comments.trailing = []

theorem IsNew.holding_empty {k : Key} (new : k.IsNew) : k.holding {} = k := by
  obtain ⟨name, value, attributes, order, comments⟩ := k
  obtain ⟨rfl, rfl, -⟩ := new
  rfl

variable (k : Key) {h h' : Holding} {name text : String}

theorem setAttribute_holding (value : h.value = h'.value) (agree : Holding.AgreeBut name h h')
    (set : (name, some text) ∈ h'.slots) : (k.holding h).setAttribute name text = k.holding h' := by
  show { k with value := h.value, attributes := h.attributes.insert name text } = k.holding h'
  rw [value, Holding.insert_attributes agree set, holding]

theorem setValueType_holding (h : Holding) (t : ValueType) :
    (k.holding h).setValueType t = k.holding { h with type := some t.spelling } :=
  k.setAttribute_holding rfl
    (by simp +contextual [Holding.AgreeBut, Holding.slots, Attribute.valueType])
    (by simp [Holding.slots, Attribute.valueType])

theorem setConstruct_holding (h : Holding) (c : Construct) :
    (k.holding h).setConstruct c = k.holding { h with construct := some c.spelling } :=
  k.setAttribute_holding rfl
    (by simp +contextual [Holding.AgreeBut, Holding.slots, Attribute.construct])
    (by simp [Holding.slots, Attribute.construct])

theorem markArray_holding (h : Holding) :
    (k.holding h).markArray = k.holding { h with array := some "" } :=
  k.setAttribute_holding rfl
    (by simp +contextual [Holding.AgreeBut, Holding.slots, Attribute.array])
    (by simp [Holding.slots, Attribute.array])

theorem markLastElement_holding (h : Holding) (index : Nat) :
    (k.holding h).markLastElement index =
      k.holding { h with array := some (ElementIndex.segment index) } :=
  k.setAttribute_holding rfl
    (by simp +contextual [Holding.AgreeBut, Holding.slots, Attribute.array])
    (by simp [Holding.slots, Attribute.array])

theorem setText_holding (h : Holding) (s : String) :
    (k.holding h).setText s = k.holding { h with value := some (.text s), binary := none } := by
  have erased : h.attributes.erase Attribute.binary =
      ({ h with value := some (.text s), binary := none } : Holding).attributes :=
    Holding.erase_attributes
      (by simp +contextual [Holding.AgreeBut, Holding.slots, Attribute.binary])
      (by simp [Holding.slots, Attribute.binary])
  show { k with value := some (.text s), attributes := h.attributes.erase Attribute.binary } = _
  rw [erased]
  rfl

theorem setBytes_holding (h : Holding) (bytes : List UInt8) :
    (k.holding h).setBytes bytes =
      k.holding { h with value := some (.bytes bytes), binary := some "" } := by
  have marked : (k.holding h).setAttribute Attribute.binary "" =
      k.holding { h with binary := some "" } :=
    k.setAttribute_holding rfl
      (by simp +contextual [Holding.AgreeBut, Holding.slots, Attribute.binary])
      (by simp [Holding.slots, Attribute.binary])
  rw [setBytes, marked]
  rfl

/-- The spelling is kept beside the text that the key holds, if it is another one. -/
theorem noteSpelling_holding (type : Option String) (text spelling : String) :
    (k.holding { value := some (.text text), type }).noteSpelling spelling =
      k.holding (.ofText type text spelling) := by
  have held : (k.holding { value := some (.text text), type }).text = some text := rfl
  unfold noteSpelling Holding.ofText Holding.beside
  simp only [held, Option.some_inj]
  split
  · rfl
  · exact k.setAttribute_holding rfl
      (by simp +contextual [Holding.AgreeBut, Holding.slots, Attribute.spelling])
      (by simp [Holding.slots, Attribute.spelling])

/-- A key is an array of tables only if the text for that is there. -/
theorem isTableArray_holding (other : h.construct ≠ some "tablearray") :
    (k.holding h).isTableArray = false := by
  refine decide_eq_false fun yes => other ?_
  obtain ⟨text, found, spelled⟩ := Option.bind_eq_some_iff.mp yes
  have same : Construct.tableArray.spelling = text := by
    simpa using List.find?_some spelled
  have set := Holding.lookup_attributes_eq_some_iff.mp found
  simpa [Holding.slots, Attribute.construct, ← same, Construct.spelling, eq_comm] using set

/-! ## Scalars -/

/-- Storing a string, and then its quotes. -/
theorem storeString_holding (c : Construct) (text spelling : String) :
    ((k.holding {}).storeString text spelling).setConstruct c =
      k.holding (.ofString c.spelling text spelling) := by
  unfold storeString Holding.ofString
  rw [setText_holding]
  have null : Text.isNull text = decide (text = "@NULL") := rfl
  have base64 : Text.isBase64 text = true ↔ "@BASE64".toList <+: text.toList :=
    List.isPrefixOf_iff_prefix
  have typed : (k.holding { value := some (.text text) }).valueType = none := rfl
  simp only [null, base64, typed, decide_eq_true_eq]
  split
  · rw [setBytes_holding, setConstruct_holding]
  · split
    · rw [setConstruct_holding]
    · by_cases empty : text = ""
      · rw [if_neg (by simp [empty]), noteSpelling_holding, setConstruct_holding, if_pos empty]
      · rw [if_pos ⟨nofun, empty⟩, setValueType_holding, noteSpelling_holding, setConstruct_holding,
          if_neg empty]
        rfl

/-- Storing a scalar makes a key hold what the scalar leaves in it. -/
theorem store_holding {s : Scalar} {storage : Storage} (stored : s.kind.storage = some storage)
    (text : String) :
    (k.holding {}).store storage text s.spelling = k.holding (s.holding text) := by
  have typed (t : ValueType) : ((k.holding {}).setText text).setValueType t =
      k.holding { value := some (.text text), type := some t.spelling } := by
    rw [setText_holding, setValueType_holding]
  unfold Scalar.holding
  cases kind : s.kind with
  | bare | comment => simp [kind, Kind.storage] at stored
  | basic | literal | multilineBasic | multilineLiteral =>
    rw [kind] at stored
    cases stored
    exact k.storeString_holding _ text s.spelling
  | boolean =>
    rw [kind] at stored
    cases stored
    exact typed .boolean
  | offsetDateTime | localDateTime | localDate | localTime =>
    rw [kind] at stored
    cases stored
    rw [store, setText_holding]
    exact k.noteSpelling_holding none text s.spelling
  | _ =>
    rw [kind] at stored
    cases stored
    rw [store, if_pos rfl, typed]
    exact k.noteSpelling_holding _ text s.spelling

example : ((Scalar.verbatim .hex "0x1F").holding "31").entries =
    [("origvalue", "0x1F"), ("type", "unsigned_long_long")] := by decide

end Key

end TomlSemantics
