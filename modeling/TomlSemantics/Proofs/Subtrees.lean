import TomlSemantics.Proofs.ElementOrder
import TomlSemantics.Proofs.NameOrder

/-!
# Subtrees in a list of keys

A set that was only ever added to has every key under its own name, so it lists its keys in the
order of their names. There a name and all below it stand together, the name first, and the
elements of an array follow each other by their indices, each with all below it.

1. `exists_run`, `index_lt_of_lt`: runs and positions in a list in order.
2. `KeySet.exists_subtree`: the run of a name, where every key stands under its own.
3. `Making`: how a set was put together, out of keys and other sets. `Making.lookup_set`: each name
   has the last key that was put in for it.
4. `subtrees_contiguous`: how such a set lists its keys.
-/

namespace TomlSemantics

/-! ## Lists in order -/

section InOrder

variable {α : Type} {lt : α → α → Prop} {l : List α} {P : α → Bool}

/-- What comes after a run that started earlier does not belong to it. -/
theorem not_of_mem_dropWhile {first a : α} (sorted : (first :: l).Pairwise lt)
    (convex : ∀ a b c, lt a b → lt b c → P a = true → P c = true → P b = true)
    (start : P first = true) (late : a ∈ l.dropWhile P) : ¬ P a = true := by
  induction l with
  | nil => cases late
  | cons b l ih =>
    obtain ⟨least, others⟩ := List.pairwise_cons.mp sorted
    by_cases inside : P b = true
    · rw [List.dropWhile_cons_of_pos inside] at late
      exact ih (sorted.sublist ((List.sublist_cons_self b l).cons_cons first)) late
    · rw [List.dropWhile_cons_of_neg inside] at late
      rcases List.mem_cons.mp late with rfl | later
      · exact inside
      · intro again
        exact inside (convex first b a (least b List.mem_cons_self)
          (List.rel_of_pairwise_cons others later) start again)

/-- In a list in order, what holds of all that stands between two elements that it holds of, holds
of one run of elements. -/
theorem exists_run (sorted : l.Pairwise lt)
    (convex : ∀ a b c, lt a b → lt b c → P a = true → P c = true → P b = true) :
    ∃ before run after, l = before ++ run ++ after ∧ (∀ a ∈ run, P a = true) ∧
      ∀ a ∈ before ++ after, ¬ P a = true := by
  induction l with
  | nil => exact ⟨[], [], [], rfl, List.forall_mem_nil _, List.forall_mem_nil _⟩
  | cons first l ih =>
    by_cases start : P first = true
    · refine ⟨[], first :: l.takeWhile P, l.dropWhile P, ?_, ?_, ?_⟩
      · rw [List.nil_append, List.cons_append, List.takeWhile_append_dropWhile]
      · exact List.forall_mem_cons.mpr ⟨start, fun a member => List.mem_takeWhile_imp member⟩
      · exact fun a late => not_of_mem_dropWhile sorted convex start late
    · obtain ⟨before, run, after, rfl, inside, outside⟩ := ih sorted.of_cons
      exact ⟨first :: before, run, after, rfl, inside,
        List.forall_mem_cons.mpr ⟨start, outside⟩⟩

/-- Of two listed elements the lesser stands first. -/
theorem index_lt_of_lt (asymm : ∀ a b, lt a b → ¬ lt b a) (sorted : l.Pairwise lt) {a b : α}
    {i j : Nat} (first : l[i]? = some a) (later : l[j]? = some b) (less : lt a b) : i < j := by
  obtain ⟨inside, rfl⟩ := List.getElem?_eq_some_iff.mp first
  obtain ⟨inside', rfl⟩ := List.getElem?_eq_some_iff.mp later
  rcases Nat.lt_trichotomy i j with before | rfl | after
  · exact before
  · exact absurd less (asymm _ _ less)
  · exact absurd less (asymm _ _ (List.pairwise_iff_getElem.mp sorted j i inside' inside after))

/-- An element that none is less than stands at the front. -/
theorem head?_eq_of_least (sorted : l.Pairwise lt) {a : α} (member : a ∈ l)
    (least : ∀ b ∈ l, ¬ lt b a) : l.head? = some a := by
  cases l with
  | nil => cases member
  | cons first l =>
    rcases List.mem_cons.mp member with rfl | later
    · rfl
    · exact absurd (List.rel_of_pairwise_cons sorted later) (least first List.mem_cons_self)

end InOrder

/-! ## Sets of keys -/

namespace KeySet

variable {s : KeySet}

/-- A name and all keys below it are listed in one run, the name first. -/
theorem exists_subtree (h : s.Named) (p : Name) :
    ∃ before run after, s.toList = before ++ run ++ after ∧
      (∀ k ∈ run, k.name.isWithin p = true) ∧
      (∀ k ∈ before ++ after, ¬ k.name.isWithin p = true) ∧
      ∀ k ∈ s.toList, k.name = p → run.head? = some k := by
  have sorted := List.pairwise_map.mp (pairwise_names h)
  obtain ⟨before, run, after, split, inside, outside⟩ :=
    exists_run (P := fun k : Key => k.name.isWithin p) sorted fun _ _ _ less more =>
      Name.isWithin_of_between (SortedMap.not_lt_of_lt less) (SortedMap.not_lt_of_lt more)
  refine ⟨before, run, after, split, inside, outside, fun k member own => ?_⟩
  have here : k ∈ run := by
    by_contra elsewhere
    refine outside k ?_ (own ▸ Name.isWithin_refl _)
    rw [split] at member
    simpa [elsewhere] using member
  have part : run <:+: s.toList := ⟨before, after, split.symm⟩
  refine head?_eq_of_least (sorted.sublist part.sublist) here fun l member => ?_
  exact own ▸ Name.le_of_isWithin (inside l member)

theorem index_lt_of_name_lt (h : s.Named) {k l : Key} {i j : Nat} (first : s.toList[i]? = some k)
    (later : s.toList[j]? = some l) (less : k.name < l.name) : i < j :=
  index_lt_of_lt (fun _ _ => SortedMap.not_lt_of_lt)
    (List.pairwise_map.mp (pairwise_names h)) first later less

end KeySet

/-! ## Sets that are put together -/

/-- How a set is put together: out of nothing, by one more key, or by all keys of another set. -/
inductive Making
  | empty
  | append (making : Making) (key : Key)
  | mergeInto (source target : Making)

namespace Making

/-- The set. -/
def set : Making → KeySet
  | empty => ∅
  | append making key => making.set.append key
  | mergeInto source target => source.set.mergeInto target.set

/-- The keys that were put in, in turn. -/
def history : Making → List Key
  | empty => []
  | append making key => making.history ++ [key]
  | mergeInto source target => target.history ++ source.history

theorem named (making : Making) : making.set.Named := by
  induction making with
  | empty => exact KeySet.named_empty
  | append making key ih => exact ih.append key
  | mergeInto source target _ ih => exact ih.appendAll _

/-- The last key that was put in for a name is the one that it has. -/
theorem lookup_set (making : Making) (name : Name) :
    making.set.lookup name = making.history.reverse.find? (·.name = name) := by
  induction making with
  | empty => rfl
  | append making key ih =>
    rw [set, history, KeySet.lookup_append, ih, List.reverse_append]
    by_cases same : key.name = name <;> simp [same]
  | mergeInto source target ih ih' =>
    rw [set, history, KeySet.lookup_mergeInto source.named, ih, ih', List.reverse_append,
      List.find?_append]

end Making

/-- The keys of a set that was put together are listed by name, the last of each name. A name and
all keys below it stand in one run, the name first, and the keys at and below the elements of an
array follow each other by index. Of all names, too, what lies between two below one lies below. -/
theorem subtrees_contiguous (making : Making) (p : Name) :
    let keys := making.set.toList
    (keys.map Key.name).Pairwise (· < ·) ∧
      (∀ k, k ∈ keys ↔ making.history.reverse.find? (·.name = k.name) = some k) ∧
      (∃ before run after, keys = before ++ run ++ after ∧
        (∀ k ∈ run, k.name.isWithin p = true) ∧
        (∀ k ∈ before ++ after, ¬ k.name.isWithin p = true) ∧
        ∀ k ∈ keys, k.name = p → run.head? = some k) ∧
      (∀ i j : Nat, i < j → ∀ (x y : Nat) (k l : Key), keys[x]? = some k → keys[y]? = some l →
        k.name.isWithin (p.child (ElementIndex.segment i)) = true →
        l.name.isWithin (p.child (ElementIndex.segment j)) = true → x < y) ∧
      ∀ a b c : Name, a ≤ b → b ≤ c → a.isWithin p = true → c.isWithin p = true →
        b.isWithin p = true := by
  intro keys
  have named := making.named
  refine ⟨KeySet.pairwise_names named, fun k => ?_, KeySet.exists_subtree named p, ?_,
    fun a b c first last => Name.isWithin_of_between first last⟩
  · rw [KeySet.mem_toList_iff named, Making.lookup_set]
  · intro i j less x y k l first later within within'
    exact KeySet.index_lt_of_name_lt named first later
      (Name.lt_of_isWithin_child (ElementIndex.segment_lt_segment less) within within')

/-- Two elements of an array, put in along with keys whose names start like that of the array. -/
def elementsMaking : Making :=
  .mergeInto (.append (.append .empty { name := ⟨["a", "#_10", "x"]⟩ }) { name := ⟨["a-b"]⟩ })
    (.append (.append (.append .empty { name := ⟨["ab"]⟩ }) { name := ⟨["a", "#9"]⟩ })
      { name := ⟨["a"]⟩ })

theorem subtrees_contiguous_elements :
    let keys := elementsMaking.set.toList
    keys.map (·.name.segments) = [["a"], ["a", "#9"], ["a", "#_10", "x"], ["a-b"], ["ab"]] ∧
      ∃ x y : Nat, (keys[x]?.map Key.name) = some ⟨["a", "#9"]⟩ ∧
        (keys[y]?.map Key.name) = some ⟨["a", "#_10", "x"]⟩ ∧ x < y :=
  ⟨by decide, 1, 2, by decide, by decide,
    (subtrees_contiguous elementsMaking ⟨["a"]⟩).2.2.2.1 9 10 (by decide) 1 2
      { name := ⟨["a", "#9"]⟩ } { name := ⟨["a", "#_10", "x"]⟩ } (by decide) (by decide)
      (by decide) (by decide)⟩

end TomlSemantics
