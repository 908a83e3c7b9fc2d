import TomlSemantics.Proofs.HeaderKeys

/-!
# Elements without gaps

The elements of an array of tables that have keys are the first ones, up to the one that the array
notes. Keys that are put into the set leave no gap: a name that is given again is no array of tables
any more, and an array of tables only ever gets its next element.

1. `Contiguous`: a set whose arrays of tables have no gaps. `Contiguous.appendAll`: keys that belong
   to names that a line gives.
2. `OpenAt`: where an open array stands, and `NextElement`: what the next element of an array is.
3. `Contiguous.element`: the next element of an array, `NextElement.openAt`: the array stands at it.
-/

namespace TomlSemantics

variable {o : Options} {root array : Name} {keys : KeySet} {count index : Nat}

/-! ## Sets without gaps -/

/-- Every key belongs to another that is there, below the root. An array of tables notes an element,
and the elements that have keys are the first ones up to that. -/
structure Contiguous (root : Name) (count : Nat) (keys : KeySet) : Prop where
  below : ∀ n, keys.lookup n ≠ none → n.isBelow root = true
  owned : ∀ n, keys.lookup n ≠ none → keys.lookup n.stem ≠ none
  array : ∀ n k, keys.lookup n = some k → k.isTableArray = true → n.stem = n ∧
    ∃ m, m < count ∧ Scope.lastElement keys n = some m ∧
      ∀ j < ElementIndex.limit, keys.lookup (n.child (ElementIndex.segment j)) ≠ none ↔ j ≤ m

/-- An open array has a key, and stands at the element that is noted there, if one is. -/
structure OpenAt (keys : KeySet) (count : Nat) (array : Name) (index : Nat) : Prop where
  present : keys.lookup array ≠ none
  noted : ∀ m, Scope.lastElement keys array = some m → m = index
  few : index < count

/-- Only what is noted matters, and that there is a key. -/
theorem OpenAt.imp {keys' : KeySet} {count' : Nat} (h : OpenAt keys count array index)
    (present : keys.lookup array ≠ none → keys'.lookup array ≠ none)
    (noted : ∀ m, Scope.lastElement keys' array = some m → Scope.lastElement keys array = some m)
    (le : count ≤ count') : OpenAt keys' count' array index :=
  ⟨present h.present, fun m found => h.noted m (noted m found), Nat.lt_of_lt_of_le h.few le⟩

/-- Keys that are no arrays of tables note nothing. -/
theorem Scope.lastElement_of_appendAll {added : List Key} {n : Name} {m : Nat}
    (noTableArray : ∀ k ∈ added, k.isTableArray = false)
    (found : lastElement (keys.appendAll added) n = some m) :
    n ∉ added.map Key.name ∧ lastElement keys n = some m := by
  obtain ⟨k, inside, yes⟩ := lastElement_of_isTableArray found
  have other : n ∉ added.map Key.name := by
    intro member
    rw [noTableArray k (KeySet.mem_of_lookup_appendAll_of_mem member inside)] at yes
    cases yes
  rw [lastElement, KeySet.lookup_appendAll_of_not_mem other] at found
  exact ⟨other, found⟩

theorem Scope.lastElement_of_append {own : Key} {n : Name} {m : Nat}
    (noTableArray : own.isTableArray = false) (found : lastElement (keys.append own) n = some m) :
    lastElement keys n = some m :=
  have none : ∀ k ∈ [own], k.isTableArray = false := List.forall_mem_singleton.mpr noTableArray
  (lastElement_of_appendAll none found).2

namespace Contiguous

theorem empty (root : Name) (count : Nat) : Contiguous root count ∅ :=
  ⟨fun _ found => absurd rfl found, fun _ found => absurd rfl found, nofun⟩

theorem mono (h : Contiguous root count keys) {count' : Nat} (le : count ≤ count') :
    Contiguous root count' keys :=
  { h with
    array := by
      intro n k found yes
      obtain ⟨plain, m, less, last⟩ := h.array n k found yes
      exact ⟨plain, m, Nat.lt_of_lt_of_le less le, last⟩ }

theorem last (h : Contiguous root count keys) {n : Name} {m : Nat}
    (found : Scope.lastElement keys n = some m) : n.stem = n ∧ m < count ∧
      ∀ j < ElementIndex.limit, keys.lookup (n.child (ElementIndex.segment j)) ≠ none ↔ j ≤ m := by
  obtain ⟨k, inside, yes⟩ := Scope.lastElement_of_isTableArray found
  obtain ⟨plain, m', less, same, elements⟩ := h.array n k inside yes
  rw [found] at same
  cases same
  exact ⟨plain, less, elements⟩

/-- Keys that belong to names that a line gives. An array of tables whose name is given is no longer
one, and the others keep their elements. -/
theorem appendAll {a : Inventory} (h : Contiguous root count keys)
    (sits : a.Sits (fun n => n.isBelow root = true) fun _ => False) :
    Contiguous root count (keys.appendAll a.keys) where
  below n found := by
    by_contra outside
    refine found (KeySet.lookup_appendAll_eq_none_iff.mpr ⟨?_, fun member => ?_⟩)
    · by_contra before
      exact outside (h.below n before)
    · obtain ⟨k, inside, rfl⟩ := List.mem_map.mp member
      exact outside (sits.inside k inside)
  owned n found none := by
    obtain ⟨before, other⟩ := KeySet.lookup_appendAll_eq_none_iff.mp none
    refine found (KeySet.lookup_appendAll_eq_none_iff.mpr ⟨?_, fun member => ?_⟩)
    · by_contra present
      exact h.owned n present before
    · obtain ⟨k, inside, rfl⟩ := List.mem_map.mp member
      exact other (sits.given _ ((sits.owned k inside).resolve_left id))
  array n k found yes := by
    have other : n ∉ a.keys.map Key.name := by
      intro member
      rw [sits.noTableArray k (KeySet.mem_of_lookup_appendAll_of_mem member found)] at yes
      cases yes
    have same := KeySet.lookup_appendAll_of_not_mem (s := keys) other
    rw [same] at found
    obtain ⟨plain, m, less, last, elements⟩ := h.array n k found yes
    refine ⟨plain, m, less, ?_, fun j bound => ?_⟩
    · rw [Scope.lastElement, same]
      exact last
    -- A key of an element belongs to the array, whose name is not given.
    · have apart : n.child (ElementIndex.segment j) ∉ a.keys.map Key.name := by
        intro member
        obtain ⟨l, inside, name⟩ := List.mem_map.mp member
        have given := (sits.owned l inside).resolve_left id
        rw [name, Name.stem_child_segment n bound, plain] at given
        exact other (sits.given n given)
      rw [KeySet.lookup_appendAll_of_not_mem apart]
      exact elements j bound

end Contiguous

/-! ## The next element -/

/-- The index is that of the next element of an array: the one after the element that is noted, and
the first if the array has no key. -/
structure NextElement (keys : KeySet) (count : Nat) (array : Name) (index : Nat) : Prop where
  few : index ≤ count
  noted : ∀ m, Scope.lastElement keys array = some m → index = m + 1
  first : keys.lookup array = none → index = 0

/-- A header opens the next element of its array. -/
theorem Scope.Headed.nextElement {ends : String → Prop} {name : Name} {outer : List Scope}
    (h : Headed ends (OpenAt keys count) keys root name index outer array)
    (known : Contiguous root count keys) : NextElement keys count array index := by
  rcases h.next with rfl | ⟨i, stands, rfl⟩
  · refine ⟨?_, fun m noted => by rw [noted]; rfl, fun none => by rw [lastElement, none]; rfl⟩
    cases noted : lastElement keys array with
    | none => exact Nat.zero_le _
    | some m => exact (known.last noted).2.1
  · exact ⟨stands.few, fun m noted => by rw [stands.noted m noted], fun none =>
      absurd none stands.present⟩

namespace KeySet

/-- An array that is one of tables with an element noted was one before, if it had a key, and the
element is its last. -/
theorem lastElement_noteElement_of_isTableArray {k : Key} (bound : index < ElementIndex.limit)
    (found : (keys.noteElement array index).lookup array = some k) (yes : k.isTableArray = true) :
    ¬ keys.Taken array ∧ Scope.lastElement (keys.noteElement array index) array = some index := by
  have free : ¬ keys.Taken array := by
    rintro ⟨l, before, no⟩
    rw [lookup_noteElement_self, before] at found
    cases found
    exact nomatch no.symm.trans ((l.isTableArray_markLastElement index).symm.trans yes)
  exact ⟨free, Scope.lastElement_noteElement bound free⟩

end KeySet

/-! ### Elements put into a set -/

/-- An element belongs to its array, and is not the array. -/
theorem Name.stem_element {element : Name} (plain : array.stem = array)
    (bound : index < ElementIndex.limit)
    (name : element = array.child (ElementIndex.segment index)) :
    element.stem = array ∧ element ≠ array := by
  subst name
  exact ⟨(stem_child_segment array bound).trans plain,
    ne_of_isBelow_of_isWithin (isBelow_child array _) array.isWithin_refl⟩

section Element

variable {own : Key}

theorem KeySet.lookup_element_of_ne {n : Name} (element : n ≠ own.name) (container : n ≠ array) :
    ((keys.noteElement array index).append own).lookup n = keys.lookup n := by
  rw [lookup_append_of_ne _ (Ne.symm element), lookup_noteElement_of_ne keys array index container]

theorem KeySet.lookup_element_ne_none_iff {n : Name} :
    ((keys.noteElement array index).append own).lookup n ≠ none ↔
      n = own.name ∨ n = array ∨ keys.lookup n ≠ none := by
  rw [lookup_append]
  split
  · next same => exact iff_of_true nofun (.inl same.symm)
  · next other =>
    rcases eq_or_ne n array with rfl | container
    · rw [lookup_noteElement_self]
      exact iff_of_true nofun (.inr (.inl rfl))
    · rw [lookup_noteElement_of_ne keys array index container]
      exact ⟨fun present => .inr (.inr present), fun places =>
        (places.resolve_left (Ne.symm other)).resolve_left container⟩

/-- The elements of other arrays stay as they are: the new keys belong to this one. -/
theorem KeySet.lookup_child_of_ne {n : Name} {j : Nat} (plain : array.stem = array)
    (limit : index < ElementIndex.limit)
    (own_name : own.name = array.child (ElementIndex.segment index)) (plain' : n.stem = n)
    (bound : j < ElementIndex.limit) (other : n ≠ array) :
    ((keys.noteElement array index).append own).lookup (n.child (ElementIndex.segment j)) =
      keys.lookup (n.child (ElementIndex.segment j)) := by
  obtain ⟨stem, -⟩ := Name.stem_element plain limit own_name
  obtain ⟨stem', -⟩ := Name.stem_element plain' bound rfl
  refine lookup_element_of_ne ?_ ?_
  · intro inside
    rw [inside, stem] at stem'
    exact other stem'.symm
  · intro inside
    rw [inside, plain] at stem'
    exact other stem'.symm

omit own in
/-- An array that no other key has taken the name of has all elements before the next one, and no
others. -/
theorem Contiguous.lookup_child_iff (h : Contiguous root count keys) (plain : array.stem = array)
    (next : NextElement keys count array index) (free : ¬ keys.Taken array) {j : Nat}
    (bound : j < ElementIndex.limit) :
    keys.lookup (array.child (ElementIndex.segment j)) ≠ none ↔ j < index := by
  obtain ⟨stem, -⟩ := Name.stem_element plain bound rfl
  cases found : keys.lookup array with
  | none =>
    -- Without a key for the array none of its elements has one.
    have absent : keys.lookup (array.child (ElementIndex.segment j)) = none := by
      by_contra present
      exact h.owned _ present (stem.symm ▸ found)
    have first := next.first found
    exact iff_of_false (fun present => present absent) (first ▸ Nat.not_lt_zero j)
  | some k =>
    have yes : k.isTableArray = true := by
      by_contra no
      exact free ⟨k, found, Bool.eq_false_of_not_eq_true no⟩
    obtain ⟨-, m, -, noted, elements⟩ := h.array array k found yes
    rw [elements j bound, next.noted m noted, Nat.lt_succ_iff]

/-- The array has all elements up to the new one, and no others. -/
theorem Contiguous.lookup_element_iff (h : Contiguous root count keys)
    (few : count < ElementIndex.limit) (plain : array.stem = array)
    (next : NextElement keys count array index)
    (own_name : own.name = array.child (ElementIndex.segment index)) (free : ¬ keys.Taken array)
    {j : Nat} (bound : j < ElementIndex.limit) :
    ((keys.noteElement array index).append own).lookup (array.child (ElementIndex.segment j)) ≠
      none ↔ j ≤ index := by
  have limit := Nat.lt_of_le_of_lt next.few few
  obtain ⟨-, apart⟩ := Name.stem_element plain bound rfl
  have same : array.child (ElementIndex.segment j) = own.name ↔ j = index := by
    rw [own_name]
    exact ⟨fun same => (Name.child_segment_inj bound limit same).2, fun same => same ▸ rfl⟩
  rw [KeySet.lookup_element_ne_none_iff, same, h.lookup_child_iff plain next free bound,
    Nat.le_iff_lt_or_eq]
  simp only [apart, false_or, or_comm]

/-- The next element of an array leaves no gap, whatever is at its place. -/
theorem Contiguous.element (h : Contiguous root count keys) (few : count < ElementIndex.limit)
    (plain : array.stem = array) (below : array.isBelow root = true)
    (next : NextElement keys count array index)
    (own_name : own.name = array.child (ElementIndex.segment index))
    (noTableArray : own.isTableArray = false) :
    Contiguous root (count + 1) ((keys.noteElement array index).append own) := by
  have limit := Nat.lt_of_le_of_lt next.few few
  obtain ⟨stem, apart⟩ := Name.stem_element plain limit own_name
  refine { below := fun n found => ?below, owned := fun n found => ?owned,
           array := fun n k found yes => ?array }
  case below =>
    rcases KeySet.lookup_element_ne_none_iff.mp found with rfl | rfl | before
    · rw [own_name]
      exact Name.isBelow_trans (Name.isBelow_child array _) below
    · exact below
    · exact h.below n before
  case owned =>
    rw [KeySet.lookup_element_ne_none_iff]
    rcases KeySet.lookup_element_ne_none_iff.mp found with rfl | rfl | before
    · exact .inr (.inl stem)
    · exact .inr (.inl plain)
    · exact .inr (.inr (h.owned n before))
  case array =>
    have element : n ≠ own.name := by
      rintro rfl
      rw [KeySet.lookup_append_self] at found
      cases found
      rw [noTableArray] at yes
      cases yes
    rcases eq_or_ne n array with rfl | container
    · have same := KeySet.lookup_append_of_ne (keys.noteElement n index) (Ne.symm element)
      rw [same] at found
      obtain ⟨free, last⟩ := KeySet.lastElement_noteElement_of_isTableArray limit found yes
      refine ⟨plain, index, Nat.lt_succ_of_le next.few, ?_, fun j bound =>
        h.lookup_element_iff few plain next own_name free bound⟩
      rw [Scope.lastElement, same]
      exact last
    · have same : ((keys.noteElement array index).append own).lookup n = keys.lookup n :=
        KeySet.lookup_element_of_ne element container
      rw [same] at found
      obtain ⟨plain', m, less, last, elements⟩ := h.array n k found yes
      refine ⟨plain', m, Nat.lt_succ_of_lt less, ?_, fun j bound => ?_⟩
      · rw [Scope.lastElement, same]
        exact last
      · rw [KeySet.lookup_child_of_ne plain limit own_name plain' bound container]
        exact elements j bound

/-- An array of tables notes its new element, and the others note what they noted. -/
theorem Contiguous.lastElement_element (h : Contiguous root count keys)
    (few : count < ElementIndex.limit) (plain : array.stem = array)
    (next : NextElement keys count array index)
    (own_name : own.name = array.child (ElementIndex.segment index)) {n : Name} {m : Nat}
    (noted : Scope.lastElement keys n = some m) :
    Scope.lastElement ((keys.noteElement array index).append own) n =
      some (if n = array then index else m) := by
  have limit := Nat.lt_of_le_of_lt next.few few
  obtain ⟨stem, apart⟩ := Name.stem_element plain limit own_name
  have element : own.name ≠ n := by
    rintro rfl
    exact apart ((h.last noted).1.symm.trans stem)
  rw [Scope.lastElement, KeySet.lookup_append_of_ne _ element]
  split
  · next same =>
    subst same
    exact Scope.lastElement_noteElement limit (Scope.not_taken_of_lastElement noted)
  · next other => rwa [KeySet.lookup_noteElement_of_ne keys array index other]

/-- A name that is taken stays taken. -/
theorem KeySet.Taken.element {n : Name} (h : keys.Taken n)
    (noTableArray : own.isTableArray = false) : ((keys.noteElement array index).append own).Taken n := by
  obtain ⟨k, found, no⟩ := h
  unfold Taken
  rw [lookup_append]
  split
  · exact ⟨own, rfl, noTableArray⟩
  · rcases eq_or_ne n array with rfl | other
    · rw [lookup_noteElement_self, found]
      exact ⟨_, rfl, (k.isTableArray_markLastElement index).trans no⟩
    · rw [lookup_noteElement_of_ne keys array index other]
      exact ⟨k, found, no⟩

/-- The array stands at its new element. -/
theorem NextElement.openAt (next : NextElement keys count array index)
    (few : count < ElementIndex.limit) (noTableArray : own.isTableArray = false) :
    OpenAt ((keys.noteElement array index).append own) (count + 1) array index where
  present := KeySet.lookup_element_ne_none_iff.mpr (.inr (.inl rfl))
  noted m found := by
    have found := Scope.lastElement_of_append noTableArray found
    obtain ⟨k, inside, yes⟩ := Scope.lastElement_of_isTableArray found
    obtain ⟨-, last⟩ := KeySet.lastElement_noteElement_of_isTableArray
      (Nat.lt_of_le_of_lt next.few few) inside yes
    rw [last] at found
    exact (Option.some.inj found).symm
  few := Nat.lt_succ_of_le next.few

/-- The other arrays stay where they are. -/
theorem OpenAt.element {n : Name} {i : Nat} (h : OpenAt keys count n i) (other : n ≠ array)
    (noTableArray : own.isTableArray = false) :
    OpenAt ((keys.noteElement array index).append own) (count + 1) n i := by
  refine h.imp (fun present => KeySet.lookup_element_ne_none_iff.mpr (.inr (.inr present)))
    (fun m found => ?_) (Nat.le_succ count)
  have found := Scope.lastElement_of_append noTableArray found
  rwa [Scope.lastElement, KeySet.lookup_noteElement_of_ne keys array index other] at found

end Element

end TomlSemantics
