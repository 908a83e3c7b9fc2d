/-!
# Finite maps in key order

A map is the list of its entries in strictly increasing key order, and carries the proof of that.
So two maps with the same entries are equal, and reading the list is iteration in key order.

* `SortedMap.insert` keeps one entry per key: `lookup_insert_self`, `lookup_insert_of_ne`.
* `SortedMap.erase` removes the entry of one key and leaves the others in place.
* `SortedMap.adjust` changes a value where it stands.
-/

namespace TomlSemantics

/-- A finite map from `κ` to `ν`, kept in strictly increasing order of its keys. -/
structure SortedMap (κ ν : Type) [LT κ] where
  entries : List (κ × ν)
  sorted : entries.Pairwise fun a b => a.1 < b.1

namespace SortedMap

variable {κ ν : Type} [LT κ]

/-- Two maps are equal when they list the same entries. -/
@[ext] theorem ext {m n : SortedMap κ ν} (h : m.entries = n.entries) : m = n := by
  cases m; cases n; cases h; rfl

instance [DecidableEq κ] [DecidableEq ν] : DecidableEq (SortedMap κ ν) := fun m n =>
  decidable_of_iff (m.entries = n.entries) ⟨ext, fun h => h ▸ rfl⟩

/-- The map without entries. -/
def empty : SortedMap κ ν := ⟨[], .nil⟩

instance : EmptyCollection (SortedMap κ ν) := ⟨empty⟩
instance : Inhabited (SortedMap κ ν) := ⟨empty⟩

/-- The values in key order. -/
def values (m : SortedMap κ ν) : List ν := m.entries.map (·.2)

/-- The keys in increasing order. -/
def keys (m : SortedMap κ ν) : List κ := m.entries.map (·.1)

/-- The number of entries. -/
def size (m : SortedMap κ ν) : Nat := m.entries.length

/-- The value stored under `k`. -/
def lookup [DecidableEq κ] (m : SortedMap κ ν) (k : κ) : Option ν :=
  (m.entries.find? fun e => e.1 = k).map (·.2)

/-- Whether some value is stored under `k`. -/
def contains [DecidableEq κ] (m : SortedMap κ ν) (k : κ) : Bool := (m.lookup k).isSome

/-! ## Insertion -/

section Insert

variable [DecidableLT κ]

/-- The entries with `v` under `k`: before the first greater key, or in place of the value that
`k` had. -/
def insertEntry (k : κ) (v : ν) : List (κ × ν) → List (κ × ν)
  | [] => [(k, v)]
  | e :: rest =>
      if k < e.1 then (k, v) :: e :: rest
      else if e.1 < k then e :: insertEntry k v rest
      else (e.1, v) :: rest

theorem mem_insertEntry {k : κ} {v : ν} {l : List (κ × ν)} {e : κ × ν}
    (h : e ∈ insertEntry k v l) : e.1 = k ∨ ∃ w, (e.1, w) ∈ l := by
  induction l with
  | nil =>
      simp only [insertEntry, List.mem_singleton] at h
      exact .inl (h ▸ rfl)
  | cons d rest ih =>
      simp only [insertEntry] at h
      split at h
      · rcases List.mem_cons.mp h with rfl | h
        · exact .inl rfl
        · exact .inr ⟨e.2, h⟩
      · split at h
        · rcases List.mem_cons.mp h with rfl | h
          · exact .inr ⟨e.2, List.mem_cons_self⟩
          · rcases ih h with same | ⟨w, hw⟩
            · exact .inl same
            · exact .inr ⟨w, List.mem_cons_of_mem _ hw⟩
        · rcases List.mem_cons.mp h with rfl | h
          · exact .inr ⟨d.2, List.mem_cons_self⟩
          · exact .inr ⟨e.2, List.mem_cons_of_mem _ h⟩

theorem insertEntry_sorted
    [Trans (α := κ) (· < ·) (· < ·) (· < ·)]
    {k : κ} {v : ν} {l : List (κ × ν)}
    (h : l.Pairwise fun a b => a.1 < b.1) :
    (insertEntry k v l).Pairwise fun a b => a.1 < b.1 := by
  induction l with
  | nil => simp [insertEntry]
  | cons e rest ih =>
      obtain ⟨first, later⟩ := List.pairwise_cons.mp h
      simp only [insertEntry]
      split
      · next less =>
          refine .cons (fun b hb => ?_) h
          rcases List.mem_cons.mp hb with rfl | hb
          · exact less
          · exact Trans.trans less (first b hb)
      · split
        · next less =>
            refine .cons (fun b hb => ?_) (ih later)
            rcases mem_insertEntry hb with same | ⟨w, hw⟩
            · exact same ▸ less
            · exact first (b.1, w) hw
        · exact .cons (fun b hb => first b hb) later

/-- The map with `v` under `k`, in place of any value that `k` had. -/
def insert [Trans (α := κ) (· < ·) (· < ·) (· < ·)]
    (m : SortedMap κ ν) (k : κ) (v : ν) : SortedMap κ ν :=
  ⟨insertEntry k v m.entries, insertEntry_sorted m.sorted⟩

end Insert

/-- Texts come in order, so they can be keys. -/
instance : Trans (α := String) (· < ·) (· < ·) (· < ·) := ⟨fun h k => String.lt_trans h k⟩

/-! ## Removal and change in place -/

/-- The map without the entry of `k`. -/
def erase [DecidableEq κ] (m : SortedMap κ ν) (k : κ) : SortedMap κ ν :=
  ⟨m.entries.filter fun e => e.1 ≠ k, m.sorted.filter _⟩

/-- The map with `f` applied to the value of `k`, if there is one. -/
def adjust [DecidableEq κ] (m : SortedMap κ ν) (k : κ) (f : ν → ν) : SortedMap κ ν where
  entries := m.entries.map fun e => if e.1 = k then (e.1, f e.2) else e
  sorted := by
    refine m.sorted.map _ fun a b h => ?_
    split <;> split <;> exact h

@[simp] theorem lookup_empty [DecidableEq κ] (k : κ) : (∅ : SortedMap κ ν).lookup k = none := rfl

/-- Changing values in place moves no key. -/
@[simp] theorem keys_adjust [DecidableEq κ] (m : SortedMap κ ν) (k : κ) (f : ν → ν) :
    (m.adjust k f).keys = m.keys := by
  simp only [keys, adjust, List.map_map]
  exact List.map_congr_left fun e _ => by simp only [Function.comp]; split <;> rfl

/-! ## What is found after an insertion -/

section Lookup

variable [DecidableEq κ] [DecidableLT κ]
  [Std.Irrefl (α := κ) (· < ·)] [Std.Trichotomous (α := κ) (· < ·)]

theorem find?_insertEntry {k j : κ} {v : ν} {l : List (κ × ν)}
    (h : l.Pairwise fun a b => a.1 < b.1) :
    ((insertEntry k v l).find? fun e => e.1 = j).map (·.2) =
      if k = j then some v else (l.find? fun e => e.1 = j).map (·.2) := by
  induction l with
  | nil => by_cases same : k = j <;> simp [insertEntry, same]
  | cons e rest ih =>
      obtain ⟨first, later⟩ := List.pairwise_cons.mp h
      simp only [insertEntry]
      split
      · by_cases same : k = j <;> simp [same]
      · next notLess =>
          split
          · next less =>
              by_cases here : e.1 = j
              · have other : k ≠ j := by
                  intro same
                  rw [here, same] at less
                  exact Std.Irrefl.irrefl (r := (· < · : κ → κ → Prop)) j less
                simp [here, other]
              · simpa [here] using ih later
          · next notMore =>
              have same : e.1 = k :=
                Std.Trichotomous.trichotomous (r := (· < · : κ → κ → Prop)) _ _ notMore notLess
              by_cases here : k = j <;> simp [same, here]

variable [Trans (α := κ) (· < ·) (· < ·) (· < ·)]

@[simp] theorem lookup_insert_self (m : SortedMap κ ν) (k : κ) (v : ν) :
    (m.insert k v).lookup k = some v := by
  simp [lookup, insert, find?_insertEntry m.sorted]

theorem lookup_insert_of_ne (m : SortedMap κ ν) {k j : κ} (v : ν) (h : k ≠ j) :
    (m.insert k v).lookup j = m.lookup j := by
  simp [lookup, insert, find?_insertEntry m.sorted, h]

end Lookup

end SortedMap

end TomlSemantics
