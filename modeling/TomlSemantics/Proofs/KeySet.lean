import Mathlib.Data.List.Sort
import TomlSemantics.KeySet.Basic

/-!
# Sets of keys as functions of the name

A set is known by what each name finds in it. So two changes can be compared name by name, and
the order in which keys of different names were put into a set is forgotten.

1. `SortedMap.ext_lookup`, `KeySet.ext_lookup`: sets that find the same are equal.
2. `lookup_appendAll_of_not_mem`, `lookup_appendAll_of_mem`: what is found after keys were put into
   a set one after another.
3. `append_append_of_eq`, `append_appendAll_comm`: the last key of a name wins, and keys of other
   names do not care when it came.
4. `mem_toList_iff`, `pairwise_names`, `lookup_mergeInto`: if every key stands under its own name,
   the keys that are listed are those that are found, their names are in order, and a merged set
   finds what either set does.
-/

namespace TomlSemantics

/-! ## Sorted maps -/

namespace SortedMap

variable {κ ν : Type} [LT κ] [DecidableEq κ] [DecidableLT κ]
  [Std.Irrefl (α := κ) (· < ·)] [Std.Trichotomous (α := κ) (· < ·)]
  [Trans (α := κ) (· < ·) (· < ·) (· < ·)]

omit [DecidableEq κ] [DecidableLT κ] [Std.Trichotomous (α := κ) (· < ·)]
  [Trans (α := κ) (· < ·) (· < ·) (· < ·)] in
theorem ne_of_lt {j k : κ} (h : j < k) : j ≠ k := fun same =>
  Std.Irrefl.irrefl (r := (· < · : κ → κ → Prop)) j (by rwa [← same] at h)

omit [DecidableEq κ] [DecidableLT κ] [Std.Trichotomous (α := κ) (· < ·)] in
theorem not_lt_of_lt {j k : κ} (h : j < k) : ¬ k < j := fun g =>
  Std.Irrefl.irrefl (r := (· < · : κ → κ → Prop)) j (Trans.trans h g)

omit [DecidableLT κ] [Std.Trichotomous (α := κ) (· < ·)]
  [Trans (α := κ) (· < ·) (· < ·) (· < ·)] in
theorem find?_eq_some_iff {l : List (κ × ν)} (h : l.Pairwise fun a b => a.1 < b.1) {k : κ} {v : ν} :
    (l.find? fun e => e.1 = k).map (·.2) = some v ↔ (k, v) ∈ l := by
  induction l with
  | nil => simp
  | cons e rest ih =>
    obtain ⟨first, later⟩ := List.pairwise_cons.mp h
    by_cases here : e.1 = k
    · have gone : (k, v) ∉ rest := fun member => ne_of_lt (first _ member) here
      obtain ⟨j, w⟩ := e
      cases here
      simp [gone, eq_comm]
    · have other : (k, v) ≠ e := fun same => here (same ▸ rfl)
      simpa [here, other] using ih later

omit [DecidableLT κ] [Std.Trichotomous (α := κ) (· < ·)]
  [Trans (α := κ) (· < ·) (· < ·) (· < ·)] in
theorem lookup_eq_some_iff (m : SortedMap κ ν) {k : κ} {v : ν} :
    m.lookup k = some v ↔ (k, v) ∈ m.entries :=
  find?_eq_some_iff m.sorted

omit [DecidableLT κ] [Std.Trichotomous (α := κ) (· < ·)] in
/-- Maps that find the same values are equal. -/
theorem ext_lookup {m n : SortedMap κ ν} (h : ∀ k, m.lookup k = n.lookup k) : m = n := by
  have distinct (p : SortedMap κ ν) : p.entries.Nodup :=
    p.sorted.imp fun {_ _} less same => ne_of_lt less (congrArg Prod.fst same)
  have members : ∀ e, e ∈ m.entries ↔ e ∈ n.entries := by
    rintro ⟨k, v⟩
    rw [← lookup_eq_some_iff, ← lookup_eq_some_iff, h k]
  apply ext
  refine List.Perm.eq_of_pairwise (fun a b _ _ less more => absurd more (not_lt_of_lt less))
    m.sorted n.sorted ?_
  exact (List.perm_ext_iff_of_nodup (distinct m) (distinct n)).mpr members

omit [DecidableLT κ] [Std.Irrefl (α := κ) (· < ·)] [Std.Trichotomous (α := κ) (· < ·)]
  [Trans (α := κ) (· < ·) (· < ·) (· < ·)] in
theorem lookup_adjust (m : SortedMap κ ν) (k j : κ) (f : ν → ν) :
    (m.adjust k f).lookup j = if j = k then (m.lookup j).map f else m.lookup j := by
  obtain ⟨entries, sorted⟩ := m
  simp only [lookup, adjust]
  clear sorted
  induction entries with
  | nil => simp
  | cons e rest ih =>
    by_cases here : e.1 = k <;> by_cases there : e.1 = j
    · simp [← here, there]
    · rw [List.map_cons, if_pos here]
      simpa [there] using ih
    · have other : j ≠ k := there ▸ here
      simp [there, other]
    · rw [List.map_cons, if_neg here]
      simpa [there] using ih

omit [DecidableLT κ] [Std.Irrefl (α := κ) (· < ·)] [Std.Trichotomous (α := κ) (· < ·)]
  [Trans (α := κ) (· < ·) (· < ·) (· < ·)] in
theorem lookup_erase_of_ne (m : SortedMap κ ν) {k j : κ} (h : k ≠ j) :
    (m.erase k).lookup j = m.lookup j := by
  simp only [lookup, erase, List.find?_filter]
  congr 2
  funext e
  by_cases here : e.1 = j <;> simp [here, Ne.symm h]

omit [DecidableLT κ] [Std.Irrefl (α := κ) (· < ·)] [Std.Trichotomous (α := κ) (· < ·)]
  [Trans (α := κ) (· < ·) (· < ·) (· < ·)] in
theorem lookup_erase_self (m : SortedMap κ ν) (k : κ) : (m.erase k).lookup k = none := by
  simp [lookup, erase, List.find?_filter]

end SortedMap

/-! ## Sets of keys -/

namespace KeySet

/-- Sets that find the same keys are equal. -/
theorem ext_lookup {s t : KeySet} (h : ∀ name, s.lookup name = t.lookup name) : s = t := by
  cases s
  cases t
  exact congrArg mk (SortedMap.ext_lookup h)

@[simp] theorem lookup_empty (name : Name) : (∅ : KeySet).lookup name = none := rfl

theorem lookup_append (s : KeySet) (k : Key) (name : Name) :
    (s.append k).lookup name = if k.name = name then some k else s.lookup name := by
  by_cases same : k.name = name
  · subst same
    simp
  · simp [lookup_append_of_ne s same, same]

theorem lookup_adjust (s : KeySet) (name other : Name) (f : Key → Key) :
    (s.adjust name f).lookup other =
      if other = name then (s.lookup other).map f else s.lookup other :=
  SortedMap.lookup_adjust _ _ _ _

/-! ### Keys put in one after another -/

@[simp] theorem appendAll_nil (s : KeySet) : s.appendAll [] = s := rfl

@[simp] theorem appendAll_cons (s : KeySet) (k : Key) (keys : List Key) :
    s.appendAll (k :: keys) = (s.append k).appendAll keys := rfl

theorem appendAll_append (s : KeySet) (first later : List Key) :
    s.appendAll (first ++ later) = (s.appendAll first).appendAll later :=
  List.foldl_append

theorem lookup_appendAll_of_not_mem {s : KeySet} {keys : List Key} {name : Name}
    (h : name ∉ keys.map Key.name) : (s.appendAll keys).lookup name = s.lookup name := by
  induction keys generalizing s with
  | nil => rfl
  | cons k keys ih =>
    simp only [List.map_cons, List.mem_cons, not_or] at h
    rw [appendAll_cons, ih h.2, lookup_append_of_ne _ (Ne.symm h.1)]

theorem lookup_appendAll_of_mem {s : KeySet} {keys : List Key} {k : Key}
    (distinct : (keys.map Key.name).Nodup) (h : k ∈ keys) :
    (s.appendAll keys).lookup k.name = some k := by
  induction keys generalizing s with
  | nil => simp at h
  | cons first keys ih =>
    rw [List.map_cons, List.nodup_cons] at distinct
    rw [appendAll_cons]
    rcases List.mem_cons.mp h with rfl | later
    · rw [lookup_appendAll_of_not_mem distinct.1, lookup_append_self]
    · exact ih distinct.2 later

theorem lookup_appendAll_eq_none_iff {s : KeySet} {keys : List Key} {name : Name} :
    (s.appendAll keys).lookup name = none ↔ s.lookup name = none ∧ name ∉ keys.map Key.name := by
  induction keys generalizing s with
  | nil => simp
  | cons k keys ih =>
    rw [appendAll_cons, ih, lookup_append, List.map_cons, List.mem_cons, not_or]
    by_cases same : k.name = name
    · simp [same]
    · simp [same, Ne.symm same]

/-- What is found was put in, or was there before. -/
theorem mem_of_lookup_appendAll {s : KeySet} {keys : List Key} {name : Name} {k : Key}
    (h : (s.appendAll keys).lookup name = some k) :
    k ∈ keys ∧ k.name = name ∨ s.lookup name = some k := by
  induction keys generalizing s with
  | nil => exact .inr h
  | cons first keys ih =>
    rcases ih h with ⟨member, same⟩ | before
    · exact .inl ⟨List.mem_cons_of_mem _ member, same⟩
    · rw [lookup_append] at before
      split at before
      · next same =>
        cases before
        exact .inl ⟨List.mem_cons_self, same⟩
      · exact .inr before

theorem mem_of_lookup_appendAll_of_mem {s : KeySet} {keys : List Key} {name : Name} {k : Key}
    (put : name ∈ keys.map Key.name) (h : (s.appendAll keys).lookup name = some k) : k ∈ keys := by
  induction keys generalizing s with
  | nil => simp at put
  | cons first keys ih =>
    by_cases later : name ∈ keys.map Key.name
    · exact List.mem_cons_of_mem _ (ih later h)
    · have same : first.name = name := by simpa [later, eq_comm] using put
      rw [appendAll_cons, lookup_appendAll_of_not_mem later, ← same, lookup_append_self] at h
      cases h
      exact List.mem_cons_self

/-! ### Names that are taken -/

/-- The name is that of a key that is no array of tables. -/
def Taken (s : KeySet) (name : Name) : Prop := ∃ k, s.lookup name = some k ∧ k.isTableArray = false

theorem not_taken_iff {s : KeySet} {name : Name} :
    ¬ s.Taken name ↔ ∀ k, s.lookup name = some k → k.isTableArray = true := by
  simp only [Taken, not_exists, not_and, Bool.not_eq_false]

/-- Keys that are no arrays of tables take their names. -/
theorem taken_appendAll {s : KeySet} {keys : List Key} {name : Name}
    (noTableArray : ∀ k ∈ keys, k.isTableArray = false)
    (h : s.Taken name ∨ name ∈ keys.map Key.name) : (s.appendAll keys).Taken name := by
  by_cases member : name ∈ keys.map Key.name
  · have present : (s.appendAll keys).lookup name ≠ none := fun none =>
      (lookup_appendAll_eq_none_iff.mp none).2 member
    obtain ⟨k, found⟩ := Option.ne_none_iff_exists'.mp present
    exact ⟨k, found, noTableArray k (mem_of_lookup_appendAll_of_mem member found)⟩
  · obtain ⟨k, found, no⟩ := h.resolve_right member
    exact ⟨k, (lookup_appendAll_of_not_mem member).trans found, no⟩

/-! ### The order of keys with different names -/

theorem append_append_of_eq (s : KeySet) {k l : Key} (h : k.name = l.name) :
    (s.append k).append l = s.append l := by
  apply ext_lookup
  intro name
  simp only [lookup_append, h]
  split <;> rfl

theorem append_append_comm (s : KeySet) {k l : Key} (h : k.name ≠ l.name) :
    (s.append k).append l = (s.append l).append k := by
  apply ext_lookup
  intro name
  simp only [lookup_append]
  by_cases first : k.name = name <;> by_cases second : l.name = name
  · exact absurd (first.trans second.symm) h
  all_goals simp [first, second]

theorem append_appendAll_comm (s : KeySet) {k : Key} {keys : List Key}
    (h : k.name ∉ keys.map Key.name) :
    (s.append k).appendAll keys = (s.appendAll keys).append k := by
  induction keys generalizing s with
  | nil => rfl
  | cons l keys ih =>
    simp only [List.map_cons, List.mem_cons, not_or] at h
    rw [appendAll_cons, append_append_comm s h.1, ih _ h.2, appendAll_cons]

/-- A key that is put in again, after keys of other names, might as well have been put in once. -/
theorem append_appendAll_append (s : KeySet) {k l : Key} {keys : List Key} (same : k.name = l.name)
    (h : l.name ∉ keys.map Key.name) :
    ((s.append k).appendAll keys).append l = (s.append l).appendAll keys := by
  rw [← append_appendAll_comm _ h, append_append_of_eq s same]

/-! ### Sets as lists -/

/-- Every key stands under its own name. -/
def Named (s : KeySet) : Prop := ∀ name k, s.lookup name = some k → k.name = name

theorem named_empty : Named ∅ := by
  intro name k h
  simp at h

theorem Named.append {s : KeySet} (h : s.Named) (k : Key) : (s.append k).Named := by
  intro name l found
  rw [lookup_append] at found
  split at found
  · next same =>
    cases found
    exact same
  · exact h name l found

theorem Named.appendAll {s : KeySet} (h : s.Named) (keys : List Key) : (s.appendAll keys).Named := by
  induction keys generalizing s with
  | nil => exact h
  | cons k keys ih => exact ih (h.append k)

theorem Named.adjust {s : KeySet} (h : s.Named) (name : Name) {f : Key → Key}
    (keeps : ∀ k, (f k).name = k.name) : (s.adjust name f).Named := by
  intro other k found
  rw [lookup_adjust] at found
  split at found
  · obtain ⟨old, before, rfl⟩ := Option.map_eq_some_iff.mp found
    rw [keeps]
    exact h other old before
  · exact h other k found

theorem mem_toList_iff {s : KeySet} (h : s.Named) {k : Key} :
    k ∈ s.toList ↔ s.lookup k.name = some k := by
  rw [lookup, SortedMap.lookup_eq_some_iff]
  simp only [toList, SortedMap.values, List.mem_map]
  constructor
  · rintro ⟨⟨name, l⟩, member, rfl⟩
    rwa [h name l ((SortedMap.lookup_eq_some_iff _).mpr member)]
  · intro member
    exact ⟨_, member, rfl⟩

/-- The keys are listed in the order of their names. -/
theorem pairwise_names {s : KeySet} (h : s.Named) : (s.toList.map Key.name).Pairwise (· < ·) := by
  have own : s.toList.map Key.name = s.byName.entries.map (·.1) := by
    simp only [toList, SortedMap.values, List.map_map]
    refine List.map_congr_left fun e member => ?_
    exact h e.1 e.2 ((SortedMap.lookup_eq_some_iff _).mpr member)
  rw [own, List.pairwise_map]
  exact s.byName.sorted

theorem nodup_names {s : KeySet} (h : s.Named) : (s.toList.map Key.name).Nodup :=
  (pairwise_names h).imp SortedMap.ne_of_lt

theorem lookup_mergeInto {s : KeySet} (h : s.Named) (target : KeySet) (name : Name) :
    (s.mergeInto target).lookup name = (s.lookup name).or (target.lookup name) := by
  cases found : s.lookup name with
  | some k =>
    have same := h name k found
    subst same
    exact lookup_appendAll_of_mem (nodup_names h) ((mem_toList_iff h).mpr found)
  | none =>
    refine lookup_appendAll_of_not_mem fun listed => ?_
    obtain ⟨k, inside, same⟩ := List.mem_map.mp listed
    have here := (mem_toList_iff h).mp inside
    rw [same, found] at here
    cases here

/-- Keys of new and different names join the others in the list. -/
theorem toList_appendAll_perm {s : KeySet} (h : s.Named) (keys : List Key)
    (distinct : (keys.map Key.name).Nodup) (fresh : ∀ k ∈ keys, s.lookup k.name = none) :
    (s.appendAll keys).toList.Perm (s.toList ++ keys) := by
  have named := h.appendAll keys
  have old : ∀ k ∈ s.toList, k.name ∉ keys.map Key.name := by
    intro k member named
    obtain ⟨l, inside, same⟩ := List.mem_map.mp named
    have found := (mem_toList_iff h).mp member
    rw [← same, fresh l inside] at found
    cases found
  have apart : (s.toList ++ keys).Nodup := by
    rw [List.nodup_append]
    refine ⟨(nodup_names h).of_map _, distinct.of_map _, fun k member l inside same => ?_⟩
    exact old k member (same ▸ List.mem_map_of_mem inside)
  -- Neither list repeats a key, so it is enough that they hold the same keys.
  refine (List.perm_ext_iff_of_nodup ((nodup_names named).of_map _) apart).mpr fun k => ?_
  rw [mem_toList_iff named, List.mem_append]
  constructor
  · intro found
    rcases mem_of_lookup_appendAll found with ⟨member, -⟩ | before
    · exact .inr member
    · exact .inl ((mem_toList_iff h).mpr before)
  · rintro (before | member)
    · rw [lookup_appendAll_of_not_mem (old k before)]
      exact (mem_toList_iff h).mp before
    · exact lookup_appendAll_of_mem distinct member

/-- What a change leaves alone is listed as before. -/
theorem toList_adjust {α : Type} (s : KeySet) (name : Name) {f : Key → Key} (g : Key → α)
    (keeps : ∀ k, g (f k) = g k) : (s.adjust name f).toList.map g = s.toList.map g := by
  simp only [toList, adjust, SortedMap.adjust, SortedMap.values, List.map_map]
  refine List.map_congr_left fun e _ => ?_
  simp only [Function.comp]
  split
  · exact keeps e.2
  · rfl

/-! ### Sets whose keys are all changed -/

/-- The set with every key changed where it stands. -/
def mapKeys (s : KeySet) (f : Key → Key) : KeySet :=
  ⟨⟨s.byName.entries.map fun e => (e.1, f e.2), s.byName.sorted.map _ fun _ _ less => less⟩⟩

variable {f : Key → Key}

theorem lookup_mapKeys (s : KeySet) (f : Key → Key) (name : Name) :
    (s.mapKeys f).lookup name = (s.lookup name).map f := by
  simp only [lookup, mapKeys, SortedMap.lookup, List.find?_map, Option.map_map]
  rfl

theorem toList_mapKeys (s : KeySet) (f : Key → Key) : (s.mapKeys f).toList = s.toList.map f := by
  simp only [toList, mapKeys, SortedMap.values, List.map_map]
  rfl

theorem mapKeys_append (s : KeySet) (k : Key) (keeps : (f k).name = k.name) :
    (s.append k).mapKeys f = (s.mapKeys f).append (f k) := by
  apply ext_lookup
  intro name
  rw [lookup_mapKeys, lookup_append, lookup_append, lookup_mapKeys, keeps]
  split <;> rfl

theorem mapKeys_adjust (s : KeySet) (name : Name) {g : Key → Key} (comm : ∀ k, f (g k) = g (f k)) :
    (s.adjust name g).mapKeys f = (s.mapKeys f).adjust name g := by
  apply ext_lookup
  intro other
  rw [lookup_mapKeys, lookup_adjust, lookup_adjust, lookup_mapKeys]
  split
  · rw [Option.map_map, Option.map_map]
    exact congrArg (Option.map · _) (funext comm)
  · rfl

end KeySet

end TomlSemantics
