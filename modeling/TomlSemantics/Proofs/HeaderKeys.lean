import TomlSemantics.Proofs.LineKeys
import TomlSemantics.Proofs.Recorded

/-!
# Headers put keys into the set

The header of an array of tables opens its next element: the array notes it, and it gets a key that
is new. The header of a table gets a key inside of the arrays that are open.

1. `KeySet.noteElement`: the set with the last element of an array noted.
2. `Line.assembleTableArray_heads`: the header of an array of tables.
3. `Recorded.element`: what is known of the set after that.
4. `Scope.placeHeader_spec`: where the header of a table goes.
-/

namespace TomlSemantics

variable {o : Options} {out : Outline} {run : List Remark} {few : Prop} {ends : String → Prop}
  {count index : Nat} {keys : KeySet} {array : Name}

/-! ## Arrays that note their last element -/

/-- The set with the last element of an array of tables noted, which gets a key if it has none. -/
def KeySet.noteElement (keys : KeySet) (array : Name) (index : Nat) : KeySet :=
  if (keys.lookup array).isSome then keys.adjust array (·.markLastElement index)
  else
    let key : Key := { name := array }
    keys.append ((key.setConstruct .tableArray).markLastElement index)

theorem Scope.lastElement_unordered (keys : KeySet) :
    lastElement keys.unordered = lastElement keys := by
  funext n
  rw [lastElement, KeySet.lookup_unordered, lastElement]
  cases keys.lookup n <;> rfl

theorem Sheet.unordered_recordTableArray (sheet : Sheet) (array : Name) (index : Nat) :
    (sheet.recordTableArray array index).keys.unordered =
      sheet.keys.unordered.noteElement array index := by
  have same : (sheet.keys.unordered.lookup array).isSome = (sheet.keys.lookup array).isSome := by
    rw [KeySet.lookup_unordered, Option.isSome_map]
  rw [recordTableArray, KeySet.noteElement, same]
  split
  · exact KeySet.mapKeys_adjust _ _ fun _ => rfl
  · exact KeySet.unordered_append _ _

theorem KeySet.lookup_noteElement_of_ne (keys : KeySet) (array : Name) (index : Nat) {n : Name}
    (h : n ≠ array) : (keys.noteElement array index).lookup n = keys.lookup n := by
  unfold noteElement
  split
  · rw [lookup_adjust, if_neg h]
  · exact lookup_append_of_ne keys (Ne.symm h)

/-- Whatever key the array has, or a new one, notes its last element. -/
theorem KeySet.lookup_noteElement_self (keys : KeySet) (array : Name) (index : Nat) :
    (keys.noteElement array index).lookup array =
      some (((keys.lookup array).getD
        (({ name := array } : Key).setConstruct .tableArray)).markLastElement index) := by
  unfold noteElement
  cases found : keys.lookup array with
  | none =>
    rw [if_neg (by simp)]
    exact lookup_append_self keys _
  | some k =>
    rw [if_pos Option.isSome_some, lookup_adjust, if_pos rfl, found]
    rfl

theorem Key.lastTableElement_markLastElement {k : Key} (yes : k.isTableArray = true)
    (bound : index < ElementIndex.limit) :
    (k.markLastElement index).lastTableElement = some index := by
  rw [lastTableElement, isTableArray_markLastElement, if_pos yes, arrayMarker_markLastElement,
    Option.bind_some, ElementIndex.ofSegment_segment bound]

/-- The last element is the one that was noted. -/
theorem Scope.lastElement_noteElement (bound : index < ElementIndex.limit)
    (free : ¬ keys.Taken array) :
    lastElement (keys.noteElement array index) array = some index := by
  rw [lastElement, KeySet.lookup_noteElement_self]
  refine Key.lastTableElement_markLastElement ?_ bound
  cases found : keys.lookup array with
  | none => exact decide_eq_true (Key.construct_setConstruct _ _)
  | some k => exact KeySet.not_taken_iff.mp free k found

/-! ## Headers of arrays of tables -/

theorem Sheet.checkFree_decides (sheet : Sheet) (name : Name) :
    Decides few (Builder.isFree o sheet.keys.unordered name = true) (sheet.checkFree o name)
      fun _ => True := by
  rw [isFree_unordered, Sheet.checkFree]
  by_cases free : Builder.isFree o sheet.keys name = true
  · rw [if_pos free]
    exact ⟨free, trivial⟩
  · rw [if_neg free]
    exact fun _ => free

/-- The header of an array of tables opens an element of an array inside of others: the array notes
it, and it gets a key with the run before the header and the comment on its line. -/
structure Outline.Heads (o : Options) (out' out : Outline) (name : Name) (run : List Remark)
    (c : Option String) (index : Nat) (outer : List Scope) (array : Name) : Prop where
  enter : Scope.enter out.sheet.keys o.root name out.scopes = .ok (⟨name, index⟩ :: outer)
  scopes : out'.scopes = ⟨name, index⟩ :: outer
  table : out'.table = none
  comments : out'.comments = {}
  keys : out'.sheet.keys.unordered = (out.sheet.keys.unordered.noteElement array index).append
    (lineKey (array.child (ElementIndex.segment index)) run c)

/-- The header of an array of tables opens its element, wherever that is, just if the key is accepted
and names no other key. -/
theorem Line.assembleTableArray_heads (few : Prop) {key : KeyPath} {c : Option String}
    {opened : Nat → List Scope → Name → Prop} (nonempty : key.Accepted → key.path ≠ [])
    (enters : key.Accepted → ∃ index outer array,
      Scope.enter out.sheet.keys o.root (o.root.join key.path) out.scopes =
        .ok (⟨o.root.join key.path, index⟩ :: outer) ∧
      Scope.element o.root (⟨o.root.join key.path, index⟩ :: outer) =
        .ok (array.child (ElementIndex.segment index)) ∧ opened index outer array)
    (comments : out.comments = queueOf run) :
    Decides few
      (key.Accepted ∧ Builder.isFree o out.sheet.keys.unordered (o.root.join key.path) = true)
      (Line.assembleTableArray o key c out) fun out' => ∃ index outer array,
        opened index outer array ∧
        out'.Heads o out (o.root.join key.path) run c index outer array := by
  unfold Line.assembleTableArray
  refine (KeyPath.segments_decides few key).bind id (·.1) fun path accepted found => ?_
  subst found
  refine (Sheet.checkFree_decides out.sheet _).bind id (·.2) fun _ free _ => ?_
  obtain ⟨index, outer, array, entered, element, opened⟩ := enters accepted
  rw [Outline.openElement, Outline.enter, if_pos (Name.isBelow_join o.root (nonempty accepted)),
    entered]
  show Decides few _ ((Scope.currentElement o.root _ >>= _) >>= _) _
  rw [Scope.currentElement, element]
  show Decides few _ (((array.child _).withArray >>= _) >>= _) _
  rw [Name.withArray, Name.parent_child]
  refine ⟨⟨accepted, free⟩, index, outer, array, opened, entered, rfl, rfl, rfl, ?_⟩
  show ((Sheet.put _ _).annotate _ c).keys.unordered = _
  rw [Sheet.unordered_annotate, Sheet.put, KeySet.unordered_append,
    Sheet.unordered_recordTableArray, comments, contents_queueOf]
  cases c with
  | none => rfl
  | some text => exact KeySet.append_append_of_eq _ rfl

/-- The header of an array of tables opens its next element, just if the key is accepted and names
no other key. -/
theorem Line.assembleTableArray_decides (few : Prop) {key : KeyPath} {c : Option String}
    (tracked : Scope.Tracked ends (Scope.lastElement out.sheet.keys.unordered) o.root out.scopes)
    (known : ∀ n m, Scope.lastElement out.sheet.keys.unordered n = some m → n.EndsIn ends)
    (header : key.Accepted → HeaderPath ends key.path) (comments : out.comments = queueOf run) :
    Decides few
      (key.Accepted ∧ Builder.isFree o out.sheet.keys.unordered (o.root.join key.path) = true)
      (Line.assembleTableArray o key c out) fun out' => ∃ index outer array,
        Scope.Entered ends (Scope.lastElement out.sheet.keys.unordered) o.root
          (o.root.join key.path) index outer array ∧
        out'.Heads o out (o.root.join key.path) run c index outer array := by
  refine Line.assembleTableArray_heads few (fun accepted => (header accepted).nonempty)
    (fun accepted => ?_) comments
  rw [Scope.lastElement_unordered] at tracked known ⊢
  obtain ⟨index, outer, array, entered, opened⟩ := tracked.enter_eq_ok known (header accepted) rfl
  exact ⟨index, outer, array, entered, opened.element_eq, opened⟩

/-! ## What is known after a header -/

/-- The next element of an array of tables gets a key that is new, and the array is at it. -/
theorem Recorded.element (own : Key) {name : Name} {outer : List Scope}
    (h : Recorded o.root ends count keys) (few : count < ElementIndex.limit)
    (entered : Scope.Entered ends (Scope.lastElement keys) o.root name index outer array)
    (own_name : own.name = array.child (ElementIndex.segment index))
    (noTableArray : own.isTableArray = false) :
    (keys.noteElement array index).lookup own.name = none ∧
      Recorded o.root ends (count + 1) ((keys.noteElement array index).append own) ∧
      Scope.Tracked ends (Scope.lastElement ((keys.noteElement array index).append own)) o.root
        (⟨name, index⟩ :: outer) := by
  obtain ⟨plain, ends_, below⟩ := entered.array_spec
  have le := entered.index_le fun m noted => (h.last noted).2.2
  have others (n : Name) (other : n ≠ array) :=
    KeySet.lookup_noteElement_of_ne keys array index other
  have last : Scope.lastElement (keys.noteElement array index) array = some index :=
    Scope.lastElement_noteElement (by omega)
      (KeySet.not_taken_iff.mpr fun k => h.isTableArray (by omega) plain ends_)
  have noted := h.note plain ends_ below le (fun m found => Nat.le_of_lt (entered.lt_index m found))
    others last
  have child : own.name ≠ array := by
    rw [own_name]
    exact Name.ne_of_isBelow_of_isWithin (Name.isBelow_child array _) array.isWithin_refl
  -- Elements are only recorded up to the last one that is noted, and this one comes after it.
  have fresh : (keys.noteElement array index).lookup own.name = none := by
    rw [others _ child, own_name]
    exact h.lookup_element (by omega) (by omega) plain ends_ entered.lt_index
  have fresh_all : ∀ k ∈ [own], (keys.noteElement array index).lookup k.name = none :=
    List.forall_mem_singleton.mpr fresh
  have none_all : ∀ k ∈ [own], k.isTableArray = false := List.forall_mem_singleton.mpr noTableArray
  have same := Scope.lastElement_appendAll fresh_all none_all
  refine ⟨fresh, noted.appendAll_new fresh_all none_all ?_ ?_, ?_⟩
  · refine List.forall_mem_singleton.mpr ?_
    rw [own_name]
    exact Name.isBelow_trans (Name.isBelow_child array _) below
  · exact List.forall_mem_singleton.mpr (.inr ⟨array, index, index, own_name, last, Nat.le_refl _⟩)
  · show Scope.Tracked ends (Scope.lastElement ((keys.noteElement array index).appendAll [own])) _ _
    rw [same]
    refine entered.tracked_cons last fun n other => ?_
    rw [Scope.lastElement, others n other, Scope.lastElement]

/-! ## Headers of tables -/

/-- The header of a table goes below the root or an element, along the rest of its path. -/
theorem Scope.placeHeader_spec {root name placed : Name} {path : List String} {scopes : List Scope}
    (h : Nested root scopes) (nonempty : path ≠ []) (at_ : name = root.join path)
    (ok : placeHeader root name scopes = .ok placed) :
    ∃ (enclosing : Name) (first later : List String), path = first ++ later ∧ later ≠ [] ∧
      enclosing.isWithin root = true ∧ placed = enclosing.join later := by
  induction scopes with
  | nil =>
    cases ok
    exact ⟨root, [], path, rfl, nonempty, root.isWithin_refl, at_⟩
  | cons scope outer ih =>
    rw [placeHeader, place] at ok
    split at ok
    · cases ok
    · next other =>
      cases relative : name.relativeTo scope.name with
      | none =>
        rw [relative] at ok
        exact ih h.2 ok
      | some later =>
        obtain ⟨element, found⟩ := h.element_eq_ok
        rw [relative, found] at ok
        cases ok
        obtain ⟨first, -, scope_name⟩ := Name.isBelow_iff.mp h.isBelow_root
        have rest := Name.relativeTo_eq_some_iff.mp relative
        refine ⟨root.join element, first, later, ?_, ?_, Name.isWithin_join root element, rfl⟩
        · rwa [at_, scope_name, Name.join_join, Name.join_inj] at rest
        -- A table cannot have the name of an open array, so some of the path is left.
        · rintro rfl
          rw [Name.join_nil] at rest
          exact other rest

/-- The key of a pair starts from a name at or below the root. -/
theorem Outline.base_within (nested : Scope.Nested o.root out.scopes)
    (table : ∀ name, out.table = some name → name.isWithin o.root = true) :
    ∃ scope, out.base o = .ok scope ∧ scope.isWithin o.root = true := by
  unfold Outline.base
  cases found : out.table with
  | some name => exact ⟨name, rfl, table name found⟩
  | none =>
    obtain ⟨path, element⟩ := nested.element_eq_ok
    exact ⟨_, element, Name.isWithin_join o.root path⟩

theorem Line.placeHeader_of_assembleTable {key : KeyPath} {c : Option String} {out' : Outline}
    (ok : Line.assembleTable o key c out = .ok out') :
    ∃ name, Scope.placeHeader o.root (o.root.join key.path) out.scopes = .ok name := by
  obtain ⟨path, found, ok⟩ := exists_of_bind_eq_ok ok
  obtain ⟨opened, began, -⟩ := exists_of_bind_eq_ok ok
  obtain ⟨name, place, -⟩ := exists_of_bind_eq_ok began
  rw [KeyPath.segments_eq (KeyPath.accepted_of_segments found)] at found
  cases found
  exact ⟨name, place⟩

/-- The header of a table that is read puts its key into the set, at the place that it has. -/
theorem Line.assembleTable_adds {key : KeyPath} {c : Option String} {out' : Outline}
    (nested : Scope.Nested o.root out.scopes) (named : (Line.table key c).parts.Named)
    (comments : out.comments = queueOf run)
    (ok : (Line.table key c).assemble o out = .ok out') :
    key.Accepted ∧ ∃ name, Scope.placeHeader o.root (o.root.join key.path) out.scopes = .ok name ∧
      out'.Adds o out (some name)
        (Inventory.ofLine (tableKey name run c) {}) := by
  have ok : Line.assembleTable o key c out = .ok out' := ok
  obtain ⟨name, place⟩ := Line.placeHeader_of_assembleTable ok
  have decides := Line.assembleTable_decides True (c := c) comments place
  rw [ok] at decides
  obtain ⟨⟨accepted, free⟩, follows⟩ := decides
  obtain ⟨nonempty, plain⟩ := named key (List.mem_singleton.mpr rfl)
  obtain ⟨enclosing, first, later, path, some_, within, rfl⟩ := Scope.placeHeader_spec
    nested (KeyPath.path_ne_nil accepted nonempty) rfl place
  have sits := Line.placed_table_sits run c within some_ fun s member =>
    plain s (path ▸ List.mem_append_right _ member)
  exact ⟨accepted, _, place, sits, List.nodup_singleton _, List.forall_mem_singleton.mpr free,
    follows⟩

end TomlSemantics
