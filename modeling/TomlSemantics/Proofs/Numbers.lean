import TomlSemantics.Proofs.HeaderKeys
import TomlSemantics.Proofs.ValueRun

/-!
# Numbers of keys

Keys are numbered one after another, as the document gives their names, and the next number is that
of names so far. Elements of arrays are never numbered.

1. `Key.Numbered`, `Sheet.Numbers`: keys that have the numbers of their names in a list.
2. `Value.assemble_numbers`: a value adds the names of the pairs inside of it, at every depth.
3. `Line.assemblePair_numbers`, `Line.assembleTable_numbers`, `Line.assembleTableArray_numbers`: a
   line adds the names that it gives; a header of an array only that of an array without a key.
-/

namespace TomlSemantics

variable {o : Options} {names more : List Name} {k own : Key} {sheet : Sheet} {name : Name}
  {block : List BlockEntry}

/-! ## Numbered keys -/

/-- The key has the number of its name in a list, or is an element of an array and has none. -/
structure Key.Numbered (names : List Name) (k : Key) : Prop where
  number : ∀ i, k.order = some i → names[i]? = some k.name
  element : k.order = none → k.name.stem ≠ k.name

namespace Key

/-- Later names do not change the numbers. -/
theorem Numbered.mono (h : k.Numbered names) (more : List Name) : k.Numbered (names ++ more) where
  number i same := by
    have found := h.number i same
    rw [List.getElem?_append_left (List.getElem?_eq_some_iff.mp found).1, found]
  element := h.element

/-- Name and number are the same. -/
structure Same (k k' : Key) : Prop where
  name : k'.name = k.name
  order : k'.order = k.order

theorem Same.trans {k' k'' : Key} (h : k.Same k') (h' : k'.Same k'') : k.Same k'' :=
  ⟨h'.name.trans h.name, h'.order.trans h.order⟩

theorem Same.numbered {k' : Key} (same : k.Same k') (h : k.Numbered names) :
    k'.Numbered names := by
  obtain ⟨name, order⟩ := same
  refine ⟨fun i found => ?_, fun none => ?_⟩
  · rw [name]
    exact h.number i (order ▸ found)
  · rw [name]
    exact h.element (order ▸ none)

theorem same_setInline (k : Key) (c : Comment) : k.Same (k.setInline c) := ⟨rfl, rfl⟩

theorem same_setConstruct (k : Key) (c : Construct) : k.Same (k.setConstruct c) := ⟨rfl, rfl⟩

theorem same_markLastElement (k : Key) (index : Nat) : k.Same (k.markLastElement index) :=
  ⟨rfl, rfl⟩

theorem same_store (k : Key) (storage : Storage) (text spelling : String) :
    k.Same (k.store storage text spelling) := by
  rw [store_eq_dress]
  exact ⟨rfl, rfl⟩

/-- The element of an array has no number. -/
theorem numbered_element {array : Name} {index : Nat} (bound : index < ElementIndex.limit)
    (name : k.name = array.child (ElementIndex.segment index)) (order : k.order = none) :
    k.Numbered names where
  number i same := by
    rw [order] at same
    cases same
  element _ := by
    rw [name, Name.stem_child_segment array bound]
    exact (Name.ne_stem_of_isBelow (Name.isBelow_child array _)).symm

/-- The key of the next name. -/
theorem numbered_next (name : k.name = n) (order : k.order = some names.length) :
    k.Numbered (names ++ [n]) where
  number i same := by
    rw [order] at same
    cases same
    rw [List.getElem?_concat_length, name]
  element none := by
    rw [order] at none
    cases none

end Key

/-- All keys of a sheet are numbered, and the next number is that of names so far. -/
structure Sheet.Numbers (names : List Name) (sheet : Sheet) : Prop where
  next : sheet.nextOrder = names.length
  named : sheet.keys.Named
  numbered : ∀ n k, sheet.keys.lookup n = some k → k.Numbered names

namespace Sheet.Numbers

theorem put (h : sheet.Numbers names) (numbered : k.Numbered names) :
    (sheet.put k).Numbers names where
  next := h.next
  named := h.named.append k
  numbered n l found := by
    rw [Sheet.put, KeySet.lookup_append] at found
    split at found
    · cases found
      exact numbered
    · exact h.numbered n l found

theorem annotate (h : sheet.Numbers names) (numbered : k.Numbered names) (c : Option String) :
    (sheet.annotate k c).Numbers names := by
  cases c with
  | none => exact h
  | some text => exact h.put ((k.same_setInline _).numbered numbered)

/-- The next number goes to the next name. -/
theorem number (h : sheet.Numbers names) (name : Name) :
    ({ sheet with nextOrder := sheet.nextOrder + 1 } : Sheet).Numbers (names ++ [name]) where
  next := by
    rw [List.length_append, ← h.next]
    rfl
  named := h.named
  numbered n k found := (h.numbered n k found).mono [name]

theorem begin {opened : Key × Sheet} (h : sheet.Numbers names)
    (ok : sheet.begin o name block = .ok opened) :
    opened.1.name = name ∧ opened.1.Numbered (names ++ [name]) ∧
      opened.2.Numbers (names ++ [name]) := by
  obtain ⟨-, -, ok⟩ := exists_of_bind_eq_ok ok
  cases ok
  exact ⟨rfl, Key.numbered_next rfl (congrArg some h.next), h.number name⟩

/-- Noting an element numbers the array if that is new. -/
theorem recordTableArray (h : sheet.Numbers names) (array : Name) (index : Nat) :
    (sheet.recordTableArray array index).Numbers
      (if (sheet.keys.lookup array).isSome then names else names ++ [array]) := by
  unfold Sheet.recordTableArray
  split
  · refine ⟨h.next, h.named.adjust array fun _ => rfl, fun n k found => ?_⟩
    rw [KeySet.lookup_adjust] at found
    split at found
    · obtain ⟨old, before, rfl⟩ := Option.map_eq_some_iff.mp found
      exact (old.same_markLastElement index).numbered (h.numbered n old before)
    · exact h.numbered n k found
  · exact (h.number array).put (Key.numbered_next rfl (congrArg some h.next))

end Sheet.Numbers

/-! ## Values of every depth -/

/-- An array whose items are being read, with its keys numbered. -/
structure ArrayDraft.Numbers (names : List Name) (own : Key) (a : ArrayDraft) : Prop where
  sheet : a.sheet.Numbers names
  last : ∀ key, a.last = some key → key.Numbered names
  same : own.Same a.array

namespace ArrayDraft.Numbers

variable {a : ArrayDraft}

theorem settle (h : a.Numbers names own) : a.settle.Numbers names own := by
  unfold ArrayDraft.settle
  split
  · next key comment rest last _ =>
    have noted : (key.setInline comment).Numbered names :=
      (key.same_setInline comment).numbered (h.last key last)
    exact ⟨h.sheet.put noted, fun l same => Option.some.inj same ▸ noted, h.same⟩
  · exact h

theorem add {key : Key} {sheet : Sheet} (h : a.Numbers names own)
    (numbered : key.Numbered (names ++ more)) (below : sheet.Numbers (names ++ more)) :
    (a.add key sheet).Numbers (names ++ more) own where
  sheet := below
  last _ same := Option.some.inj same ▸ numbered
  same := h.same.trans (a.array.same_markLastElement a.next)

/-- Comments do not matter. -/
theorem comments (h : a.Numbers names own) (comments : CommentQueue) :
    ({ a with comments } : ArrayDraft).Numbers names own :=
  { h with }

theorem finish (h : a.Numbers names own) (numbered : own.Numbered names) :
    own.Same a.finish.1 ∧ a.finish.2.Numbers names := by
  have settled := h.settle
  have same : own.Same a.finish.1 := settled.same.trans ⟨rfl, rfl⟩
  exact ⟨same, settled.sheet.put (same.numbered numbered)⟩

end ArrayDraft.Numbers

/-- Reading a value numbers the pairs inside of it after the names so far, and leaves its own key as
it is numbered. -/
def Value.Numbers (o : Options) (v : Value) : Prop :=
  ∀ (own : Key) (sheet : Sheet) (names : List Name) (made : Key × Sheet),
    sheet.Numbers names → own.Numbered names → v.assemble o own sheet = .ok made →
    own.Same made.1 ∧ made.2.Numbers (names ++ (v.inner own.name).productions)

/-- A pair gets the next number, and the pairs inside of its value those after it. -/
theorem assembleBelow_numbers {key : KeyPath} {v : Value} {table : Name} {made : Key × Sheet}
    (value : v.Numbers o) (h : sheet.Numbers names)
    (ok : assembleBelow o table block key v sheet = .ok made) :
    made.1.Numbered (names ++ (pairBelow (key, v) table).productions) ∧
      made.2.Numbers (names ++ (pairBelow (key, v) table).productions) := by
  obtain ⟨opened, begun, read⟩ := exists_of_bind_eq_ok ok
  obtain ⟨path, segments, begun⟩ := exists_of_bind_eq_ok begun
  rw [KeyPath.segments_eq (KeyPath.accepted_of_segments segments)] at segments
  cases segments
  obtain ⟨name, numbered, next⟩ := h.begin begun
  obtain ⟨same, below⟩ := value opened.1 opened.2 _ made next numbered read
  have own := same.numbered (numbered.mono (v.inner opened.1.name).productions)
  rw [name, List.append_assoc] at below own
  rw [pairBelow]
  exact ⟨own, below⟩

mutual

theorem Value.assemble_numbers (small : o.maxArrayElements < ElementIndex.limit) :
    ∀ v : Value, v.Numbers o
  | .scalar s => by
    intro own sheet names made h numbered ok
    obtain ⟨-, -, ok⟩ := exists_of_bind_eq_ok ok
    obtain ⟨form, -, ok⟩ := exists_of_bind_eq_ok ok
    cases ok
    have same := own.same_store form.2 form.1 s.spelling
    rw [Value.inner]
    exact ⟨same, (List.append_nil names).symm ▸ h.put (same.numbered numbered)⟩
  | .array items => by
    intro own sheet names made h numbered ok
    obtain ⟨a, read, ok⟩ := exists_of_bind_eq_ok ok
    cases ok
    have draft : ({ array := own.markArray, sheet } : ArrayDraft).Numbers names own :=
      ⟨h, nofun, ⟨rfl, rfl⟩⟩
    rw [Value.inner]
    exact (assembleItems_numbers small items [] draft read).finish (numbered.mono _)
  | .inlineTable pairs => by
    intro own sheet names made h numbered ok
    obtain ⟨sheet', read, ok⟩ := exists_of_bind_eq_ok ok
    cases ok
    have same := own.same_setConstruct .inlineTable
    rw [Value.inner]
    exact ⟨same, assemblePairs_numbers small pairs own.name (h.put (same.numbered numbered)) read⟩

theorem assembleItems_numbers (small : o.maxArrayElements < ElementIndex.limit) :
    ∀ (items : List Item) (run : List Remark) {a a' : ArrayDraft} {own : Key} {names : List Name},
    a.Numbers names own → assembleItems o items a = .ok a' →
    a'.Numbers (names ++ (itemsBelow items own.name a.next run).productions) own
  | [], run, a, a', own, names, h, ok => by
    cases ok
    rw [itemsBelow]
    exact (List.append_nil names).symm ▸ h
  | .value v :: items, run, a, a', own, names, h, ok => by
    have few : ¬ o.maxArrayElements ≤ a.next := by
      intro full
      rw [assembleItems, Item.assemble, if_pos full] at ok
      cases ok
    rw [assembleItems_value few] at ok
    obtain ⟨made, inner, ok⟩ := exists_of_bind_eq_ok ok
    have settled := h.settle
    have next : a.settle.next = a.next := a.next_settle
    have name : a.settle.element.name = own.name.child (ElementIndex.segment a.settle.next) := by
      rw [← settled.same.name]
      rfl
    have element : a.settle.element.Numbered names := Key.numbered_element (by omega) name rfl
    obtain ⟨same, below⟩ := v.assemble_numbers small _ _ _ made settled.sheet element inner
    have rest := assembleItems_numbers small items []
      (settled.add (same.numbered (element.mono _)) below) ok
    rw [name, List.append_assoc] at rest
    rw [← next, itemsBelow]
    exact rest
  | .comment text :: items, run, a, a', own, names, h, ok => by
    obtain ⟨mid, item, ok⟩ := exists_of_bind_eq_ok ok
    cases item
    have later := assembleItems_numbers small items (run ++ [.comment text]) (h.comments _) ok
    rw [itemsBelow]
    exact later
  | .blankLine :: items, run, a, a', own, names, h, ok => by
    obtain ⟨mid, item, ok⟩ := exists_of_bind_eq_ok ok
    obtain ⟨comments, -, item⟩ := exists_of_bind_eq_ok item
    cases item
    have later := assembleItems_numbers small items (run ++ [.blank]) (h.comments comments) ok
    rw [itemsBelow]
    exact later

theorem assemblePair_numbers (small : o.maxArrayElements < ElementIndex.limit) :
    ∀ (pair : KeyPath × Value) (table : Name) {sheet sheet' : Sheet} {names : List Name},
    sheet.Numbers names → assemblePair o pair table sheet = .ok sheet' →
    sheet'.Numbers (names ++ (pairBelow pair table).productions)
  | (key, v), table, sheet, sheet', names, h, ok => by
    rw [assemblePair_eq] at ok
    obtain ⟨made, read, ok⟩ := exists_of_bind_eq_ok ok
    cases ok
    exact (assembleBelow_numbers (v.assemble_numbers small) h read).2

theorem assemblePairs_numbers (small : o.maxArrayElements < ElementIndex.limit) :
    ∀ (pairs : List (KeyPath × Value)) (table : Name) {sheet sheet' : Sheet} {names : List Name},
    sheet.Numbers names → assemblePairs o pairs table sheet = .ok sheet' →
    sheet'.Numbers (names ++ (pairsBelow pairs table).productions)
  | [], table, sheet, sheet', names, h, ok => by
    cases ok
    rw [pairsBelow]
    exact (List.append_nil names).symm ▸ h
  | pair :: pairs, table, sheet, sheet', names, h, ok => by
    obtain ⟨mid, first, ok⟩ := exists_of_bind_eq_ok ok
    have rest := assemblePairs_numbers small pairs table
      (assemblePair_numbers small pair table h first) ok
    rw [pairsBelow, Inventory.productions_append, ← List.append_assoc]
    exact rest

end

/-! ## Lines -/

namespace Line

variable {key : KeyPath} {c : Option String} {out out' : Outline}

theorem assemblePair_numbers (small : o.maxArrayElements < ElementIndex.limit) {v : Value}
    {scope : Name} (h : out.sheet.Numbers names) (base : out.base o = .ok scope)
    (ok : assemblePair o key v c out = .ok out') :
    out'.sheet.Numbers (names ++ (pairBelow (key, v) scope).productions) := by
  obtain ⟨found, from_, ok⟩ := exists_of_bind_eq_ok ok
  rw [base] at from_
  cases from_
  obtain ⟨made, read, ok⟩ := exists_of_bind_eq_ok ok
  cases ok
  obtain ⟨numbered, below⟩ := assembleBelow_numbers (v.assemble_numbers small) h read
  exact below.annotate numbered c

theorem assembleTable_numbers (h : out.sheet.Numbers names)
    (ok : assembleTable o key c out = .ok out') :
    ∃ name, out'.table = some name ∧ out'.sheet.Numbers (names ++ [name]) := by
  obtain ⟨path, -, ok⟩ := exists_of_bind_eq_ok ok
  obtain ⟨opened, begun, ok⟩ := exists_of_bind_eq_ok ok
  obtain ⟨placed, -, begun⟩ := exists_of_bind_eq_ok begun
  cases ok
  obtain ⟨name, numbered, next⟩ := h.begin begun
  have own := (opened.1.same_setConstruct .table).numbered numbered
  exact ⟨placed, congrArg some name, (next.put own).annotate own c⟩

/-- The key of the header gives its number back, and an array takes it that has no key yet. -/
theorem assembleTableArray_numbers {array : Name} {index : Nat} (h : out.sheet.Numbers names)
    (ok : assembleTableArray o key c out = .ok out')
    (element : Scope.element o.root out'.scopes = .ok (array.child (ElementIndex.segment index)))
    (bound : index < ElementIndex.limit) :
    out'.sheet.Numbers
      (if (out.sheet.keys.lookup array).isSome then names else names ++ [array]) := by
  obtain ⟨path, -, ok⟩ := exists_of_bind_eq_ok ok
  obtain ⟨-, -, ok⟩ := exists_of_bind_eq_ok ok
  obtain ⟨opened, entered, ok⟩ := exists_of_bind_eq_ok ok
  obtain ⟨scopes, -, entered⟩ := exists_of_bind_eq_ok entered
  obtain ⟨current, found, entered⟩ := exists_of_bind_eq_ok entered
  cases entered
  cases ok
  rw [Scope.currentElement, show Scope.element o.root scopes = _ from element] at found
  have same : current = (array.child (ElementIndex.segment index), array) := by
    change Name.withArray _ = _ at found
    rw [Name.withArray, Name.parent_child] at found
    exact (Except.ok.inj found).symm
  subst same
  have own {names : List Name} : (({ name := array.child (ElementIndex.segment index) } :
      Key).addLeading out.comments.contents).Numbered names := Key.numbered_element bound rfl rfl
  exact ((h.recordTableArray array _).put own).annotate own c

end Line

end TomlSemantics
