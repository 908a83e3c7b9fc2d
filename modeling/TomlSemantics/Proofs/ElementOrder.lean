import TomlSemantics.Proofs.ByteOrder
import TomlSemantics.Proofs.Numeral

/-!
# Segments of array elements, in order

A segment names an element just if it is the segment of an index: digits that denote the index,
without a zero in front, and as many underscores as there are further digits. An underscore comes
after every digit, so of two indices the one with more digits has the greater segment, and of as
many digits the first that differ decide.

1. `toDigits_of_number`: digits without a zero in front are those of the number that they denote.
2. `ofSegment_eq_some_iff`: the segments that are read, and what is read from them.
3. `toDigits_lt_toDigits`, `segment_lt_segment`: the order of digits and that of segments.
4. `segment_code`: segments are an exact code of indices, in their order byte by byte.
-/

namespace TomlSemantics.ElementIndex

open Digits

variable {m n d before : Nat} {c : Char} {text : List Char} {s : String}

/-! ## Digits read back -/

theorem singleton_eq_toDigits (h : digit 10 c = some d) : [c] = Nat.toDigits 10 d := by
  obtain ⟨stands, bound⟩ := (digit_eq_some_iff (by decide)).mp h
  have small : ∀ d < 10, "0123456789abcdef".toList[d]?.map ([·]) = some (Nat.toDigits 10 d) := by
    decide
  have capital : ∀ d < 10, "0123456789ABCDEF".toList[d]?.map ([·]) = some (Nat.toDigits 10 d) := by
    decide
  exact stands.eq_of_table (small d bound) (capital d bound)

/-- Digits that are read after a number are written after its digits. -/
theorem toDigits_append_of_numberFrom (positive : 0 < before)
    (read : numberFrom 10 before text = some n) :
    Nat.toDigits 10 before ++ text = Nat.toDigits 10 n := by
  induction text generalizing before with
  | nil =>
    cases read
    exact List.append_nil _
  | cons c rest ih =>
    obtain ⟨d, found, read⟩ := Option.bind_eq_some_iff.mp read
    have bound := ((digit_eq_some_iff (by decide)).mp found).2
    calc
      Nat.toDigits 10 before ++ c :: rest = Nat.toDigits 10 before ++ [c] ++ rest := by simp
      _ = Nat.toDigits 10 before ++ Nat.toDigits 10 d ++ rest := by
        rw [singleton_eq_toDigits found]
      _ = Nat.toDigits 10 (before * 10 + d) ++ rest := by
        rw [Nat.toDigits_append_toDigits (by decide) positive bound, Nat.mul_comm]
      _ = Nat.toDigits 10 n := ih (by omega) read

/-- Digits are those of the number that they denote, unless a zero stands in front of others. -/
theorem toDigits_of_number (read : number 10 text = some n)
    (front : ¬ (1 < text.length ∧ text.head? = some '0')) : text = Nat.toDigits 10 n := by
  cases text with
  | nil => cases read
  | cons c rest =>
    rw [number, List.isEmpty_cons, if_neg Bool.false_ne_true] at read
    obtain ⟨d, found, read⟩ := Option.bind_eq_some_iff.mp read
    rw [Nat.zero_mul, Nat.zero_add] at read
    have first := singleton_eq_toDigits found
    cases rest with
    | nil =>
      cases read
      exact first
    | cons c' rest =>
      have positive : 0 < d := by
        refine Nat.pos_of_ne_zero ?_
        rintro rfl
        cases first
        exact front ⟨by simp, rfl⟩
      rw [← toDigits_append_of_numberFrom positive read, ← first]
      rfl

/-! ## Segments read back -/

theorem readDigits_eq_some {underscores : Nat} (read : readDigits underscores text = some n) :
    text = Nat.toDigits 10 n ∧ underscores = text.length - 1 ∧ n < limit := by
  unfold readDigits at read
  split at read
  · cases read
  · next canonical =>
    obtain ⟨size, front⟩ := not_or.mp canonical
    obtain ⟨read, bound⟩ := Option.filter_eq_some_iff.mp read
    exact ⟨toDigits_of_number read front, by omega, of_decide_eq_true bound⟩

/-- The segments that name an element are those of indices. -/
theorem ofSegment_eq_some_iff : ofSegment s = some n ↔ n < limit ∧ s = segment n := by
  constructor
  · intro read
    unfold ofSegment at read
    split at read
    · next rest shown =>
      obtain ⟨digits, underscores, bound⟩ := readDigits_eq_some read
      refine ⟨bound, String.toList_injective ?_⟩
      have front : rest.takeWhile (· = '_') =
          List.replicate ((Nat.toDigits 10 n).length - 1) '_' := by
        rw [← digits, ← underscores]
        refine List.eq_replicate_length.mpr fun c member => ?_
        simpa using List.mem_takeWhile_imp member
      rw [segment, String.toList_ofList, shown, ← front, List.cons_append, ← digits,
        List.takeWhile_append_dropWhile]
    · cases read
  · rintro ⟨bound, rfl⟩
    exact ofSegment_segment bound

/-! ## Order -/

theorem lt_underscore_of_isDigit (h : c.isDigit) : c < '_' := by
  simp only [Char.isDigit, Bool.and_eq_true, decide_eq_true_eq] at h
  exact UInt32.lt_of_le_of_lt h.2 (by decide)

theorem append_lt_append {first later : List Char} (less : first < later)
    (same : first.length = later.length) (rest rest' : List Char) :
    first ++ rest < later ++ rest' := by
  induction less with
  | nil => cases same
  | rel less => exact .rel less
  | cons _ ih => exact .cons (ih (Nat.succ.inj same))

/-- Of two numbers with as many digits the smaller comes first. -/
theorem toDigits_lt_toDigits (less : m < n)
    (same : (Nat.toDigits 10 m).length = (Nat.toDigits 10 n).length) :
    Nat.toDigits 10 m < Nat.toDigits 10 n := by
  have digits : ∀ e < 10, ∀ d < e, d.digitChar < e.digitChar := by decide
  induction n using Nat.strongRecOn generalizing m with
  | ind n ih =>
    by_cases small : n < 10
    · rw [Nat.toDigits_of_lt_base small, Nat.toDigits_of_lt_base (less.trans small)]
      exact .rel (digits n small m less)
    · have large : 10 ≤ n := Nat.not_lt.mp small
      have large' : 10 ≤ m := by
        by_contra small'
        rw [Nat.toDigits_of_lt_base (Nat.not_le.mp small'), Nat.toDigits_of_base_le (by decide) large]
          at same
        simp at same
      rw [Nat.toDigits_of_base_le (by decide) large, Nat.toDigits_of_base_le (by decide) large']
        at same ⊢
      simp only [List.length_append, List.length_singleton, Nat.add_right_cancel_iff] at same
      -- The numbers without their last digits differ, or the last digits do.
      by_cases front : m / 10 < n / 10
      · exact append_lt_append (ih (n / 10) (by omega) front same) same _ _
      · have equal : m / 10 = n / 10 := by omega
        rw [equal]
        exact List.append_left_lt (.rel (digits (n % 10) (by omega) (m % 10) (by omega)))

theorem length_toDigits_le (h : m ≤ n) :
    (Nat.toDigits 10 m).length ≤ (Nat.toDigits 10 n).length := by
  have below := (Nat.length_toDigits_le_iff (by decide) Nat.length_toDigits_pos).mp
    (Nat.le_refl (Nat.toDigits 10 n).length)
  exact (Nat.length_toDigits_le_iff (by decide) Nat.length_toDigits_pos).mpr (h.trans_lt below)

theorem toList_segment (n : Nat) : (segment n).toList =
    '#' :: (List.replicate ((Nat.toDigits 10 n).length - 1) '_' ++ Nat.toDigits 10 n) := by
  rw [segment, String.toList_ofList, List.cons_append]

theorem segment_lt_segment (less : m < n) : segment m < segment n := by
  show (segment m).toList < (segment n).toList
  rw [toList_segment, toList_segment]
  refine .cons ?_
  have shorter := length_toDigits_le less.le
  by_cases same : (Nat.toDigits 10 m).length = (Nat.toDigits 10 n).length
  · rw [← same]
    exact List.append_left_lt (toDigits_lt_toDigits less same)
  · -- Where the digits of the smaller number start, the greater has another underscore.
    obtain ⟨more, size⟩ : ∃ more, (Nat.toDigits 10 n).length - 1 =
        (Nat.toDigits 10 m).length - 1 + (more + 1) :=
      ⟨(Nat.toDigits 10 n).length - (Nat.toDigits 10 m).length - 1, by
        have := Nat.length_toDigits_pos (b := 10) (n := m)
        omega⟩
    rw [size, ← List.replicate_append_replicate, List.append_assoc]
    refine List.append_left_lt ?_
    cases shown : Nat.toDigits 10 m with
    | nil => exact absurd shown Nat.toDigits_ne_nil
    | cons c rest =>
      have digit : c.isDigit := Nat.isDigit_of_mem_toDigits (by decide) (by decide)
        (shown ▸ List.mem_cons_self)
      exact .rel (lt_underscore_of_isDigit digit)

theorem segment_lt_segment_iff : segment m < segment n ↔ m < n := by
  refine ⟨fun less => ?_, segment_lt_segment⟩
  rcases Nat.lt_trichotomy m n with before | rfl | after
  · exact before
  · exact absurd less (String.lt_irrefl _)
  · exact absurd less (String.lt_asymm (segment_lt_segment after))

/-- Just the segments of indices are read, each as its index, and byte by byte they are in the order
of the indices. -/
theorem segment_code :
    (∀ s n, ofSegment s = some n ↔ n < 2 ^ 64 ∧ s = segment n) ∧
    ∀ m n, (segment m).toByteArray.data.toList < (segment n).toByteArray.data.toList ↔ m < n :=
  ⟨fun _ _ => ofSegment_eq_some_iff, fun _ _ => toByteArray_lt_iff.trans segment_lt_segment_iff⟩

end TomlSemantics.ElementIndex
