import TomlSemantics.Name.ElementIndex

/-!
# Segments of array elements, read back

The segment of an index names that index, as long as it fits into a word. So different indices have
different segments.
-/

namespace TomlSemantics.ElementIndex

/-! ## Digits -/

theorem digit_digitChar : ∀ d < 10, Digits.digit 10 d.digitChar = some d := by decide

theorem numberFrom_concat (base before : Nat) (digits : List Char) (c : Char) :
    Digits.numberFrom base before (digits ++ [c]) =
      (Digits.numberFrom base before digits).bind fun n =>
        (Digits.digit base c).map fun d => n * base + d := by
  induction digits generalizing before with
  | nil =>
    simp only [List.nil_append, Digits.numberFrom, Option.bind_some]
    cases Digits.digit base c <;> rfl
  | cons first rest ih =>
    simp only [List.cons_append, Digits.numberFrom]
    cases Digits.digit base first with
    | none => rfl
    | some d => exact ih _

theorem numberFrom_toDigits (n : Nat) : Digits.numberFrom 10 0 (Nat.toDigits 10 n) = some n := by
  induction n using Nat.strongRecOn with
  | ind n ih =>
    by_cases small : n < 10
    · rw [Nat.toDigits_of_lt_base small]
      simp [Digits.numberFrom, digit_digitChar n small]
    · have large : 10 ≤ n := Nat.not_lt.mp small
      rw [Nat.toDigits_of_base_le (by decide) large, numberFrom_concat,
        ih (n / 10) (Nat.div_lt_self (by omega) (by decide)),
        digit_digitChar _ (Nat.mod_lt n (by decide))]
      simp only [Option.bind_some, Option.map_some, Option.some.injEq]
      omega

/-- Only zero starts with a zero. -/
theorem head?_toDigits {n : Nat} (h : 0 < n) : (Nat.toDigits 10 n).head? ≠ some '0' := by
  induction n using Nat.strongRecOn with
  | ind n ih =>
    by_cases small : n < 10
    · rw [Nat.toDigits_of_lt_base small]
      have others : ∀ d < 10, 0 < d → [d.digitChar].head? ≠ some '0' := by decide
      exact others n small h
    · have large : 10 ≤ n := Nat.not_lt.mp small
      have first := ih (n / 10) (Nat.div_lt_self h (by decide)) (by omega)
      rw [Nat.toDigits_of_base_le (by decide) large]
      cases digits : Nat.toDigits 10 (n / 10) with
      | nil => exact absurd digits Nat.toDigits_ne_nil
      | cons c rest => rwa [digits] at first

theorem readDigits_toDigits {n : Nat} (h : n < limit) :
    readDigits ((Nat.toDigits 10 n).length - 1) (Nat.toDigits 10 n) = some n := by
  have some_ : 0 < (Nat.toDigits 10 n).length := Nat.length_toDigits_pos
  have number : Digits.number 10 (Nat.toDigits 10 n) = some n := by
    rw [Digits.number, if_neg (by simp [Nat.toDigits_ne_nil]), numberFrom_toDigits]
  rw [readDigits, if_neg, number, Option.filter_some, if_pos (decide_eq_true h)]
  rintro (odd | ⟨long, zero⟩)
  · omega
  · refine head?_toDigits (Nat.pos_of_ne_zero ?_) zero
    rintro rfl
    exact absurd long (by decide)

/-! ## Segments -/

/-- The segment of an index names the index. -/
@[simp] theorem ofSegment_segment {n : Nat} (h : n < limit) : ofSegment (segment n) = some n := by
  have digits : ∀ c ∈ Nat.toDigits 10 n, ¬ (decide (c = '_') = true) := fun c member same =>
    Nat.underscore_not_in_toDigits (of_decide_eq_true same ▸ member)
  have underscores : ∀ k, ∀ c ∈ List.replicate k '_', decide (c = '_') = true := fun k c member =>
    decide_eq_true (List.eq_of_mem_replicate member)
  rw [ofSegment, segment, String.toList_ofList]
  simp only [List.cons_append]
  rw [List.takeWhile_append_of_pos (underscores _), List.dropWhile_append_of_pos (underscores _)]
  cases shown : Nat.toDigits 10 n with
  | nil => exact absurd shown Nat.toDigits_ne_nil
  | cons c rest =>
    have first : ¬ (decide (c = '_') = true) := digits c (shown ▸ List.mem_cons_self)
    rw [List.takeWhile_cons_of_neg (p := fun a => decide (a = '_')) first,
      List.dropWhile_cons_of_neg (p := fun a => decide (a = '_')) first, ← shown, List.append_nil,
      List.length_replicate]
    exact readDigits_toDigits h

theorem segment_injective {m n : Nat} (hm : m < limit) (hn : n < limit)
    (same : segment m = segment n) : m = n := by
  have read := ofSegment_segment hm
  rw [same, ofSegment_segment hn] at read
  exact (Option.some.inj read).symm

end TomlSemantics.ElementIndex
