import TomlSemantics.Proofs.Inventory
import TomlSemantics.Proofs.Standing

/-!
# Arrays of tables in the set

Every array of tables has a key that notes its last element, and the open arrays are at the element
that is noted. So the next element of an array has a name that no key has yet, if the names of
arrays of tables and those of other keys do not end alike.

1. `Recorded`: every key of the set is that of an array of tables, of an element, or of something
   else, and can be told by its name.
2. `Recorded.lookup_element`: the next element is new. `Recorded.appendAll`: so is everything below
   a name that is free.
3. `Scope.Tracked`: the open arrays are at their last elements. `Tracked.enter_eq_ok`: a header
   leaves its array at the element after the one that is noted.
-/

namespace TomlSemantics

variable {ends : String → Prop} {root name : Name} {keys : KeySet} {count : Nat}

/-! ## Last elements -/

namespace Scope

theorem lastElement_of_isTableArray {n : Name} {m : Nat} (h : lastElement keys n = some m) :
    ∃ k, keys.lookup n = some k ∧ k.isTableArray = true := by
  obtain ⟨k, found, last⟩ := Option.bind_eq_some_iff.mp h
  refine ⟨k, found, ?_⟩
  unfold Key.lastTableElement at last
  split at last
  · next yes => exact yes
  · cases last

theorem not_taken_of_lastElement {n : Name} {m : Nat} (h : lastElement keys n = some m) :
    ¬ keys.Taken n := by
  obtain ⟨k, found, yes⟩ := lastElement_of_isTableArray h
  rintro ⟨l, same, no⟩
  rw [found] at same
  cases same
  exact nomatch yes.symm.trans no

/-- Keys that are new and no arrays of tables do not matter. -/
theorem lastElement_appendAll {added : List Key} (fresh : ∀ k ∈ added, keys.lookup k.name = none)
    (noTableArray : ∀ k ∈ added, k.isTableArray = false) :
    lastElement (keys.appendAll added) = lastElement keys := by
  funext n
  by_cases member : n ∈ added.map Key.name
  · obtain ⟨l, inside, rfl⟩ := List.mem_map.mp member
    have before : lastElement keys l.name = none := by
      rw [lastElement, fresh l inside]
      rfl
    rw [before, lastElement]
    cases found : (keys.appendAll added).lookup l.name with
    | none => rfl
    | some k =>
      have no := noTableArray k (KeySet.mem_of_lookup_appendAll_of_mem member found)
      rw [Option.bind_some, Key.lastTableElement, no]
      rfl
  · rw [lastElement, KeySet.lookup_appendAll_of_not_mem member, lastElement]

end Scope

/-! ## Keys between lines -/

/-- The set between lines. Arrays of tables have names of a kind, and note one of the first elements.
Other keys belong to a name that is not of that kind, or are elements that are not after the one
that is noted. -/
structure Recorded (root : Name) (ends : String → Prop) (count : Nat) (keys : KeySet) : Prop where
  below : ∀ n k, keys.lookup n = some k → n.isBelow root = true
  array : ∀ n k, keys.lookup n = some k → k.isTableArray = true →
    n.stem = n ∧ n.EndsIn ends ∧ ∃ m, m < count ∧ Scope.lastElement keys n = some m
  other : ∀ n k, keys.lookup n = some k → k.isTableArray = false →
    (keys.lookup n.stem ≠ none ∧ ¬ n.stem.EndsIn ends) ∨
      ∃ array j m, n = array.child (ElementIndex.segment j) ∧
        Scope.lastElement keys array = some m ∧ j ≤ m

namespace Recorded

theorem empty (root : Name) (ends : String → Prop) (count : Nat) :
    Recorded root ends count ∅ :=
  ⟨nofun, nofun, nofun⟩

variable (h : Recorded root ends count keys)

include h

theorem last {n : Name} {m : Nat} (found : Scope.lastElement keys n = some m) :
    n.stem = n ∧ n.EndsIn ends ∧ m < count := by
  obtain ⟨k, inside, yes⟩ := Scope.lastElement_of_isTableArray found
  obtain ⟨stem, ends_, m', less, same⟩ := h.array n k inside yes
  rw [found] at same
  cases same
  exact ⟨stem, ends_, less⟩

omit h in
theorem mono (h : Recorded root ends count keys) {count' : Nat} (le : count ≤ count') :
    Recorded root ends count' keys :=
  { h with
    array := by
      intro n k found yes
      obtain ⟨stem, ends_, m, less, noted⟩ := h.array n k found yes
      exact ⟨stem, ends_, m, Nat.lt_of_lt_of_le less le, noted⟩ }

/-- A name that ends as arrays of tables do, and that has a key, is that of one. -/
theorem isTableArray {n : Name} {k : Key} (few : count ≤ ElementIndex.limit) (plain : n.stem = n)
    (ends_ : n.EndsIn ends) (found : keys.lookup n = some k) : k.isTableArray = true := by
  by_contra no
  rcases h.other n k found (Bool.eq_false_of_not_eq_true no) with ⟨-, other⟩ | ⟨a, j, m, rfl, last, le⟩
  · rw [plain] at other
    exact other ends_
  · have bound := (h.last last).2.2
    rw [Name.stem_child_segment a (by omega)] at plain
    exact Name.ne_stem_of_isBelow (Name.isBelow_child a _) plain.symm

/-- The next element of an array of tables has a name that is new. -/
theorem lookup_element {array : Name} {index : Nat} (few : count ≤ ElementIndex.limit)
    (bound : index < ElementIndex.limit) (plain : array.stem = array) (ends_ : array.EndsIn ends)
    (next : ∀ m, Scope.lastElement keys array = some m → m < index) :
    keys.lookup (array.child (ElementIndex.segment index)) = none := by
  have stem := Name.stem_child_segment array bound
  rw [plain] at stem
  cases found : keys.lookup (array.child (ElementIndex.segment index)) with
  | none => rfl
  | some k =>
    cases yes : k.isTableArray with
    | true =>
      have own := (h.array _ k found yes).1
      rw [stem] at own
      exact absurd own.symm (Name.ne_of_isBelow_of_isWithin (Name.isBelow_child array _)
        array.isWithin_refl)
    | false =>
      rcases h.other _ k found yes with ⟨-, other⟩ | ⟨a, j, m, same, last, le⟩
      · rw [stem] at other
        exact absurd ends_ other
      · have less := (h.last last).2.2
        obtain ⟨rfl, rfl⟩ := Name.child_segment_inj bound (by omega) same
        have := next m last
        omega

/-- What belongs to a new name that does not end as arrays of tables do has a new name. -/
theorem lookup_of_stem {n : Name} (few : count ≤ ElementIndex.limit)
    (fresh : keys.lookup n.stem = none) (apart : ¬ n.stem.EndsIn ends) : keys.lookup n = none := by
  cases found : keys.lookup n with
  | none => rfl
  | some k =>
    cases yes : k.isTableArray with
    | true =>
      rw [(h.array n k found yes).1, found] at fresh
      cases fresh
    | false =>
      rcases h.other n k found yes with ⟨taken, -⟩ | ⟨a, j, m, rfl, last, le⟩
      · exact absurd fresh taken
      · obtain ⟨plain, ends_, less⟩ := h.last last
        rw [Name.stem_child_segment a (by omega), plain] at apart
        exact absurd ends_ apart

/-- New keys that are no arrays of tables, and that can be told by their names. -/
theorem appendAll_new {added : List Key} (fresh : ∀ k ∈ added, keys.lookup k.name = none)
    (noTableArray : ∀ k ∈ added, k.isTableArray = false)
    (below : ∀ k ∈ added, k.name.isBelow root = true)
    (known : ∀ k ∈ added,
      ((keys.appendAll added).lookup k.name.stem ≠ none ∧ ¬ k.name.stem.EndsIn ends) ∨
        ∃ array j m, k.name = array.child (ElementIndex.segment j) ∧
          Scope.lastElement keys array = some m ∧ j ≤ m) :
    Recorded root ends count (keys.appendAll added) where
  below n k found := by
    rcases KeySet.mem_of_lookup_appendAll found with ⟨member, rfl⟩ | before
    · exact below k member
    · exact h.below n k before
  array n k found yes := by
    rw [Scope.lastElement_appendAll fresh noTableArray]
    rcases KeySet.mem_of_lookup_appendAll found with ⟨member, -⟩ | before
    · rw [noTableArray k member] at yes
      cases yes
    · exact h.array n k before yes
  other n k found no := by
    rw [Scope.lastElement_appendAll fresh noTableArray]
    rcases KeySet.mem_of_lookup_appendAll found with ⟨member, rfl⟩ | before
    · exact known k member
    · refine (h.other n k before no).imp_left fun ⟨taken, apart⟩ => ⟨fun none => ?_, apart⟩
      exact taken (KeySet.lookup_appendAll_eq_none_iff.mp none).1

omit h in
/-- Everything below names that are free and do not end as arrays of tables do is new. -/
theorem appendAll {o : Options} {a : Inventory}
    (h : Recorded o.root ends count keys) (few : count ≤ ElementIndex.limit)
    (sits : a.Sits (fun n => n.isBelow o.root = true) fun _ => False)
    (free : ∀ p ∈ a.productions, Builder.isFree o keys p = true)
    (apart : ∀ p ∈ a.productions, ¬ p.EndsIn ends) :
    (∀ k ∈ a.keys, keys.lookup k.name = none) ∧
      Recorded o.root ends count (keys.appendAll a.keys) := by
  have given (k) (member : k ∈ a.keys) := (sits.owned k member).resolve_left id
  have new : ∀ p ∈ a.productions, keys.lookup p = none := by
    intro p member
    cases found : keys.lookup p with
    | none => rfl
    | some k =>
      obtain ⟨l, inside, rfl⟩ := List.mem_map.mp (sits.given p member)
      have notRoot := Name.ne_of_isBelow_of_isWithin (sits.inside l inside) o.root.isWithin_refl
      have free := free _ member
      rw [Builder.isFree, found] at free
      have yes : k.isTableArray = true := by simpa [notRoot] using free
      exact absurd (h.array _ k found yes).2.1 (apart _ member)
  have fresh : ∀ k ∈ a.keys, keys.lookup k.name = none := fun k member =>
    h.lookup_of_stem few (new _ (given k member)) (apart _ (given k member))
  refine ⟨fresh, h.appendAll_new fresh sits.noTableArray sits.inside fun k member => .inl ⟨?_, ?_⟩⟩
  · intro none
    exact (KeySet.lookup_appendAll_eq_none_iff.mp none).2 (sits.given _ (given k member))
  · exact apart _ (given k member)

/-- An array of tables that notes another element. -/
theorem note {array : Name} {index : Nat} {keys' : KeySet} (plain : array.stem = array)
    (ends_ : array.EndsIn ends) (below : array.isBelow root = true) (le : index ≤ count)
    (grows : ∀ m, Scope.lastElement keys array = some m → m ≤ index)
    (others : ∀ n, n ≠ array → keys'.lookup n = keys.lookup n)
    (last : Scope.lastElement keys' array = some index) :
    Recorded root ends (count + 1) keys' := by
  obtain ⟨own, own_found, yes⟩ := Scope.lastElement_of_isTableArray last
  have others_last : ∀ n, n ≠ array → Scope.lastElement keys' n = Scope.lastElement keys n :=
    fun n other => by rw [Scope.lastElement, others n other, Scope.lastElement]
  refine ⟨fun n k found => ?_, fun n k found isArray => ?_, fun n k found no => ?_⟩
  · by_cases same : n = array
    · rwa [same]
    · exact h.below n k (others n same ▸ found)
  · by_cases same : n = array
    · subst same
      exact ⟨plain, ends_, index, by omega, last⟩
    · obtain ⟨stem, ends_, m, less, noted⟩ := h.array n k (others n same ▸ found) isArray
      exact ⟨stem, ends_, m, by omega, (others_last n same).trans noted⟩
  · have other : n ≠ array := by
      rintro rfl
      rw [own_found] at found
      cases found
      rw [yes] at no
      cases no
    rcases h.other n k (others n other ▸ found) no with ⟨taken, apart⟩ | ⟨a, j, m, same, noted, le⟩
    · refine .inl ⟨fun none => taken ?_, apart⟩
      by_cases own : n.stem = array
      · rw [own, own_found] at none
        cases none
      · rwa [others _ own] at none
    · by_cases own : a = array
      · subst own
        exact .inr ⟨a, j, index, same, last, Nat.le_trans le (grows m noted)⟩
      · exact .inr ⟨a, j, m, same, (others_last a own).trans noted, le⟩

end Recorded

/-! ## Open arrays -/

namespace Scope

variable {scopes outer : List Scope} {scope : Scope} {last : Name → Option Nat}

/-- The open arrays lie in each other, along paths of arrays of tables, and each is at its last
element. -/
def Tracked (ends : String → Prop) (last : Name → Option Nat) (root : Name) : List Scope → Prop
  | [] => True
  | scope :: outer =>
      (∃ path enclosing, HeaderPath ends path ∧ scope.name = (base root outer).join path ∧
        element root outer = .ok enclosing ∧ last (enclosing.join path) = some scope.index) ∧
      Tracked ends last root outer

theorem tracked_nil : Tracked ends last root [] := trivial

theorem tracked_iff : Tracked ends last root scopes ↔
    Standing ends (fun n index => last n = some index) root scopes := by
  induction scopes with
  | nil => exact Iff.rfl
  | cons scope outer ih =>
    constructor
    · rintro ⟨⟨path, enclosing, header, at_, found, noted⟩, inner⟩
      exact ⟨⟨_, ⟨path, enclosing, header, at_, found, rfl⟩, noted⟩, ih.mp inner⟩
    · rintro ⟨⟨_, ⟨path, enclosing, header, at_, found, rfl⟩, noted⟩, inner⟩
      exact ⟨⟨path, enclosing, header, at_, found, noted⟩, ih.mpr inner⟩

theorem Tracked.nested (h : Tracked ends last root scopes) : Nested root scopes :=
  (tracked_iff.mp h).nested

/-- An array of tables that a header opened: the arrays around it, and its place in them. -/
structure Entered (ends : String → Prop) (last : Name → Option Nat) (root name : Name) (index : Nat)
    (outer : List Scope) (array : Name) : Prop where
  tracked : Tracked ends last root outer
  place : ∃ path enclosing, HeaderPath ends path ∧ name = (base root outer).join path ∧
    element root outer = .ok enclosing ∧ array = enclosing.join path
  next : index = ((last array).map (· + 1)).getD 0

/-- A header opens its array at the element after the one that is noted, with the arrays around it
at their last elements. -/
theorem Tracked.enter_eq_ok (h : Tracked ends (lastElement keys) root scopes)
    (known : ∀ n m, lastElement keys n = some m → n.EndsIn ends) {path : List String}
    (header : HeaderPath ends path) (at_ : name = root.join path) :
    ∃ index outer array, enter keys root name scopes = .ok (⟨name, index⟩ :: outer) ∧
      Entered ends (lastElement keys) root name index outer array := by
  have reopens : Reopens ends (fun n index => lastElement keys n = some index) keys := by
    intro n index noted
    obtain ⟨s, base, ends_⟩ := known n index noted
    exact ⟨noted, fun t same => Option.some.inj (base.symm.trans same) ▸ ends_⟩
  obtain ⟨index, outer, array, entered, headed⟩ :=
    (tracked_iff.mp h).enter_eq_ok reopens header at_
  refine ⟨index, outer, array, entered, tracked_iff.mpr headed.standing, headed.seated, ?_⟩
  -- An open array stands at the element that is noted, so both ways give the next one.
  rcases headed.next with next | ⟨i, noted, next⟩
  · exact next
  · rw [noted]
    exact next

namespace Entered

variable {index : Nat} {array : Name}

theorem element_eq (h : Entered ends last root name index outer array) :
    element root (⟨name, index⟩ :: outer) = .ok (array.child (ElementIndex.segment index)) :=
  Seated.element_eq h.place index

/-- The name of the array ends as its header does, and lies below the root. -/
theorem array_spec (h : Entered ends last root name index outer array) :
    array.stem = array ∧ array.EndsIn ends ∧ array.isBelow root = true :=
  Seated.array_spec h.place h.tracked.nested

theorem lt_index (h : Entered ends last root name index outer array) :
    ∀ m, last array = some m → m < index := by
  intro m noted
  have next := h.next
  rw [noted] at next
  exact next ▸ Nat.lt_succ_self m

theorem index_le (h : Entered ends last root name index outer array)
    (bound : ∀ m, last array = some m → m < count) : index ≤ count := by
  rw [h.next]
  cases noted : last array with
  | none => exact Nat.zero_le _
  | some m => exact bound m noted

/-- The array is at its last element once that is noted. -/
theorem tracked_cons (h : Entered ends last root name index outer array)
    {last' : Name → Option Nat} (noted : last' array = some index)
    (others : ∀ n, n ≠ array → last' n = last n) :
    Tracked ends last' root (⟨name, index⟩ :: outer) := by
  obtain ⟨path, found⟩ := h.tracked.nested.element_eq_ok
  refine tracked_iff.mpr ⟨⟨array, h.place, noted⟩, (tracked_iff.mp h.tracked).imp found ?_⟩
  intro n i above before
  rw [others n (Seated.ne_of_isBelow_element h.place found above), before]

end Entered

end Scope

end TomlSemantics
