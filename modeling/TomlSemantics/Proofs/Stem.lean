import Mathlib.Data.List.DropRight
import TomlSemantics.Proofs.ElementIndex
import TomlSemantics.Proofs.Name

/-!
# Names without the elements they end in

The stem of a name is what is left of it without the segments of array elements at its end. So all
elements of an array, and their elements, have the stem of the array, and a name that a document
spells, without segments of elements, is its own stem.
-/

namespace TomlSemantics

/-- No segment names an element of an array. -/
def Plain (path : List String) : Prop := ∀ s ∈ path, ElementIndex.ofSegment s = none

namespace Name

variable {n m a : Name} {path : List String} {s t : String}

/-- The name without the segments of elements that it ends in. -/
def stem (n : Name) : Name := ⟨n.segments.rdropWhile fun s => (ElementIndex.ofSegment s).isSome⟩

theorem stem_child_segment (n : Name) {index : Nat} (h : index < ElementIndex.limit) :
    (n.child (ElementIndex.segment index)).stem = n.stem := by
  refine congrArg mk (List.rdropWhile_concat_pos _ _ _ ?_)
  rw [ElementIndex.ofSegment_segment h]
  rfl

theorem child_segment_inj {i j : Nat} (hi : i < ElementIndex.limit) (hj : j < ElementIndex.limit)
    (same : n.child (ElementIndex.segment i) = m.child (ElementIndex.segment j)) : n = m ∧ i = j := by
  have parent := congrArg Name.parent same
  rw [parent_child, parent_child] at parent
  cases parent
  rw [child_eq, child_eq, join_inj] at same
  exact ⟨rfl, ElementIndex.segment_injective hi hj (List.cons.inj same).1⟩

theorem stem_join (n : Name) (nonempty : path ≠ []) (plain : Plain path) :
    (n.join path).stem = n.join path := by
  have none := plain _ (List.getLast_mem nonempty)
  have parts := List.dropLast_concat_getLast nonempty
  rw [← parts]
  simp only [stem, join, ← List.append_assoc]
  rw [List.rdropWhile_concat_neg _ _ _ (by simp [none])]

theorem isWithin_stem (n : Name) : n.isWithin n.stem = true := by
  rw [isWithin, List.isPrefixOf_iff_prefix]
  exact List.rdropWhile_prefix _ _

/-- A name strictly below another is not the stem of that. -/
theorem ne_stem_of_isBelow (h : n.isBelow a = true) : n ≠ a.stem := by
  rintro rfl
  exact not_isWithin_of_isBelow h a.isWithin_stem

end Name

end TomlSemantics
