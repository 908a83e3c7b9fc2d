import TomlSemantics.Proofs.Numeral

/-!
# Signs of numbers

Of a decimal integer and of a float, a plus in front is dropped, and what is left is read as a number
that may have a sign of its own. So a second sign after a plus goes unnoticed. The canonical text of
an integer is written anew and is canonical again in any case. That of a float is what is left of
its text, and a plus that is left would be dropped the next time.

1. `leadingSigns_eq_or`, `leadingSigns_before`: the signs of a text before and after a plus is
   dropped.
2. `Integer.leadingSigns_of_readInt`, `Integer.readDecimal_decimalText`: integers are read from at
   most one sign, and read again from their canonical text.
3. `Float.read_eq_ok_iff`, `Float.leadingSigns_of_isNumeral`: floats keep the sign that is left.
4. `canonical_number`: the canonical text of both kinds, by the signs of the text.
5. `second_sign_kept`: a number with two signs is not refused.
-/

namespace TomlSemantics

variable {c : Char} {text cs : List Char} {i : Int} {n : Nat} {s : Scalar} {found : String}

/-! ## Signs and underscores -/

/-- The signs that a text starts with. -/
def leadingSigns (text : List Char) : List Char := text.takeWhile fun c => c = '+' ∨ c = '-'

theorem leadingSigns_eq_nil (h : ∀ c ∈ text.head?, c ≠ '+' ∧ c ≠ '-') : leadingSigns text = [] := by
  cases text with
  | nil => rfl
  | cons c rest =>
    have other := h c rfl
    simp [leadingSigns, other]

/-- A plus that is dropped was one of the signs. -/
theorem leadingSigns_eq_or (text : List Char) :
    leadingSigns text = '+' :: leadingSigns (dropLeading ['+'] text) ∨
      dropLeading ['+'] text = text ∧ text.head? ≠ some '+' := by
  by_cases plus : ['+'] <+: text
  · obtain ⟨rest, rfl⟩ := plus
    rw [Integer.dropLeading_append]
    exact .inl rfl
  · refine .inr ⟨Integer.dropLeading_eq_self plus, fun first => plus ?_⟩
    obtain ⟨rest, rfl⟩ := List.head?_eq_some_iff.mp first
    exact ⟨rest, rfl⟩

theorem head?_leadingSigns : (leadingSigns text).head? = some '+' ↔ text.head? = some '+' := by
  cases text with
  | nil => rfl
  | cons c rest =>
    by_cases plus : c = '+'
    · simp [leadingSigns, plus]
    · by_cases minus : c = '-' <;> simp [leadingSigns, plus, minus]

theorem dropLeading_plus_eq_self_iff : dropLeading ['+'] text = text ↔ text.head? ≠ some '+' := by
  constructor
  · intro same first
    obtain ⟨rest, rfl⟩ := List.head?_eq_some_iff.mp first
    rw [show '+' :: rest = ['+'] ++ rest from rfl, Integer.dropLeading_append] at same
    simpa using congrArg List.length same
  · intro other
    refine Integer.dropLeading_eq_self ?_
    rintro ⟨rest, rfl⟩
    exact other rfl

/-- A plus in front of a text without one changes nothing of what is left. -/
theorem dropLeading_plus_cons (h : (dropUnderscores text).head? ≠ some '+') :
    dropLeading ['+'] (dropUnderscores ('+' :: text)) =
      dropLeading ['+'] (dropUnderscores text) := by
  rw [dropLeading_plus_eq_self_iff.mpr h]
  exact Integer.dropLeading_append ['+'] (dropUnderscores text)

theorem dropUnderscores_eq_self (h : '_' ∉ text) : dropUnderscores text = text := by
  refine List.filter_eq_self.mpr fun c member => decide_eq_true ?_
  rintro rfl
  exact h member

theorem underscore_not_mem (text : List Char) : '_' ∉ dropLeading ['+'] (dropUnderscores text) := by
  have none : '_' ∉ dropUnderscores text := by simp [dropUnderscores]
  unfold dropLeading
  split
  · exact fun member => none (List.mem_of_mem_drop member)
  · exact none

theorem exists_of_map_eq_ok {ε α β : Type} {r : Except ε α} {f : α → β} {b : β}
    (h : f <$> r = .ok b) : ∃ a, r = .ok a ∧ f a = b := by
  cases r with
  | error e => cases h
  | ok a =>
    cases h
    exact ⟨a, rfl, rfl⟩

theorem map_eq_ok_iff {ε α β : Type} {r : Except ε α} {f : α → β} {a : α}
    (injective : Function.Injective f) : f <$> r = .ok (f a) ↔ r = .ok a := by
  constructor
  · intro h
    obtain ⟨a', read, same⟩ := exists_of_map_eq_ok h
    rw [read, injective same]
  · rintro rfl
    rfl

/-! ## Decimal integers -/

namespace Integer

open Digits

theorem leadingSigns_of_denotes (h : Denotes 10 text n) : leadingSigns text = [] := by
  refine leadingSigns_eq_nil fun c first => ?_
  obtain ⟨rest, rfl⟩ := List.head?_eq_some_iff.mp first
  exact ne_of_denotes h

theorem underscore_not_mem_of_denotes (h : Denotes 10 text n) : '_' ∉ text := by
  intro member
  obtain ⟨d, stands, bound⟩ := h.stands_of_mem member
  have none : ∀ d < 10, ¬ Stands '_' d := by decide
  exact none d bound stands

theorem denotes_of_readNat (h : readNat 10 text = .ok n) : Denotes 10 text n := by
  unfold readNat at h
  split at h
  · next found =>
    cases h
    exact (number_eq_some_iff (by decide)).mp found
  · cases h

/-- An integer is read from digits, or from digits after a minus. -/
theorem leadingSigns_of_readInt (h : readInt text = .ok i) :
    leadingSigns text = [] ∨ leadingSigns text = ['-'] := by
  unfold readInt at h
  split at h
  · obtain ⟨value, read, -⟩ := exists_of_map_eq_ok h
    obtain ⟨n, read, -⟩ := exists_of_bind_eq_ok read
    exact .inr (congrArg ('-' :: ·) (leadingSigns_of_denotes (denotes_of_readNat read)))
  · obtain ⟨value, read, -⟩ := exists_of_map_eq_ok h
    obtain ⟨n, read, -⟩ := exists_of_bind_eq_ok read
    exact .inl (leadingSigns_of_denotes (denotes_of_readNat read))

theorem exists_of_readDecimal (h : readDecimal cs = .ok i) :
    readInt (dropLeading ['+'] (dropUnderscores cs)) = .ok i ∧
      -0x8000000000000000 ≤ i ∧ i < 0x8000000000000000 := by
  obtain ⟨value, read, h⟩ := exists_of_bind_eq_ok h
  split at h
  · next range =>
    cases h
    exact ⟨read, range⟩
  · cases h

/-- An integer is read from what is left of its text. -/
theorem readDecimal_congr {cs' : List Char}
    (same : dropLeading ['+'] (dropUnderscores cs) = dropLeading ['+'] (dropUnderscores cs')) :
    readDecimal cs = readDecimal cs' := by
  rw [readDecimal, same, readDecimal]

/-- The canonical numeral of an integer denotes it. -/
theorem decimalText_spec (i : Int) :
    Signed (decimalText i).toList i ∧ '_' ∉ (decimalText i).toList ∧
      (decimalText i).toList.head? ≠ some '+' := by
  obtain ⟨digits, denotes, -, written⟩ := isNumeral_decimalText i
  have none := underscore_not_mem_of_denotes denotes
  rw [written]
  split
  · next negative =>
    have value : -(i.natAbs : Int) = i := by omega
    exact ⟨value ▸ .minus denotes, by simp [none], by simp⟩
  · next positive =>
    have value : (i.natAbs : Int) = i := by omega
    refine ⟨value ▸ .plain denotes, none, fun first => ?_⟩
    · obtain ⟨rest, rfl⟩ := List.head?_eq_some_iff.mp first
      exact (ne_of_denotes denotes).1 rfl

theorem readDecimal_decimalText (least : -0x8000000000000000 ≤ i) (most : i < 0x8000000000000000) :
    readDecimal (decimalText i).toList = .ok i := by
  obtain ⟨signed, none, -⟩ := decimalText_spec i
  exact readDecimal_of_signed (by rwa [dropUnderscores_eq_self none]) ⟨least, most⟩

end Integer

/-! ## Floats -/

namespace Float

/-- A float that has neither underscores nor a plus in front has nothing to drop. -/
theorem normalise_eq (text : List Char) :
    normalise text = dropLeading ['+'] (dropUnderscores text) := by
  unfold normalise
  split
  · rfl
  · next nothing =>
    obtain ⟨none, first⟩ := not_or.mp nothing
    rw [dropUnderscores_eq_self none, Integer.dropLeading_eq_self]
    rintro ⟨rest, rfl⟩
    exact first rfl

/-- A float is read from what is left of its text. -/
theorem read_congr (same : dropLeading ['+'] (dropUnderscores text) =
    dropLeading ['+'] (dropUnderscores cs)) : read text = read cs := by
  rw [read, normalise_eq, same, ← normalise_eq, read]

theorem read_eq_ok_iff {left : List Char} :
    read text = .ok left ↔
      left = dropLeading ['+'] (dropUnderscores text) ∧ isNumeral left = true := by
  rw [read, normalise_eq]
  split
  · next numeral =>
    constructor
    · rintro ⟨⟩
      exact ⟨rfl, numeral⟩
    · rintro ⟨rfl, -⟩
      rfl
  · next other =>
    refine iff_of_false nofun ?_
    rintro ⟨rfl, numeral⟩
    exact other numeral

/-- A numeral is read as it is unless a plus stands in front of it. -/
theorem read_eq_self_iff (numeral : isNumeral text = true) (none : '_' ∉ text) :
    read text = .ok text ↔ text.head? ≠ some '+' := by
  rw [read_eq_ok_iff, dropUnderscores_eq_self none, eq_comm, dropLeading_plus_eq_self_iff]
  exact and_iff_left numeral

/-- Neither a word nor a number without a sign starts with one. -/
theorem leadingSigns_of_unsigned
    (h : (specialWords.contains (text.map Char.toLower) || isUnsignedNumber text) = true) :
    leadingSigns text = [] := by
  refine leadingSigns_eq_nil fun c first => ?_
  obtain ⟨rest, rfl⟩ := List.head?_eq_some_iff.mp first
  constructor
  · rintro rfl
    simp [specialWords, isUnsignedNumber] at h
  · rintro rfl
    simp [specialWords, isUnsignedNumber] at h

theorem leadingSigns_of_isNumeral (h : isNumeral text = true) :
    leadingSigns text = [] ∨ leadingSigns text = ['-'] ∨ leadingSigns text = ['+'] := by
  unfold isNumeral at h
  have unsigned := leadingSigns_of_unsigned h
  unfold dropSign at unsigned
  split at unsigned
  · exact .inr (.inr (congrArg ('+' :: ·) unsigned))
  · exact .inr (.inl (congrArg ('-' :: ·) unsigned))
  · exact .inl unsigned

end Float

/-! ## Canonical numbers -/

theorem Scalar.canonical_of_decimal (decimal : s.kind = .decimal) (text : String) :
    ({ s with text } : Scalar).canonical =
      Integer.decimalText <$> Integer.readDecimal text.toList := by
  rw [canonical, decimal]

theorem Scalar.canonical_of_float (float : s.kind = .float) (text : String) :
    ({ s with text } : Scalar).canonical = String.ofList <$> Float.read text.toList := by
  rw [canonical, float]

/-- What is left of a text has at most one sign. The text has at most one more, a plus, and starts
with two pluses just if one is left. -/
theorem leadingSigns_before
    (left : leadingSigns (dropLeading ['+'] text) = [] ∨
      leadingSigns (dropLeading ['+'] text) = ['-'] ∨
      leadingSigns (dropLeading ['+'] text) = ['+']) :
    ((leadingSigns text).length ≤ 1 ∨ leadingSigns text = ['+', '-'] ∨
        leadingSigns text = ['+', '+']) ∧
      (leadingSigns text = ['+', '+'] ↔ (dropLeading ['+'] text).head? = some '+') := by
  rw [← head?_leadingSigns]
  rcases leadingSigns_eq_or text with plus | ⟨same, first⟩
  · rw [plus]
    rcases left with none | minus | again
    · simp [none]
    · simp [minus]
    · simp [again]
  · rw [same] at left ⊢
    rcases left with none | minus | again
    · simp [none]
    · simp [minus]
    · exact absurd (head?_leadingSigns.mp (congrArg List.head? again)) first

/-- A decimal integer or a float that has a canonical text starts, underscores apart, with no more
than one sign, with a plus and a minus, or, only a float, with two pluses. The canonical text has no
underscores, and is canonical itself, unless it starts with a plus, which it does just after two. A
plus more, in front of a text without one, gives the same canonical text. -/
theorem canonical_number (number : s.kind = .decimal ∨ s.kind = .float)
    (taken : s.canonical = .ok found) :
    let signs := leadingSigns (dropUnderscores s.text.toList)
    (signs.length ≤ 1 ∨ signs = ['+', '-'] ∨ s.kind = .float ∧ signs = ['+', '+']) ∧
      '_' ∉ found.toList ∧
      (found.toList.head? = some '+' ↔ signs = ['+', '+']) ∧
      (({ s with text := found } : Scalar).canonical = .ok found ↔ signs ≠ ['+', '+']) ∧
      (signs.head? ≠ some '+' →
        ({ s with text := "+" ++ s.text } : Scalar).canonical = .ok found) := by
  intro signs
  have front : ("+" ++ s.text).toList = '+' :: s.text.toList := by
    rw [String.toList_append]
    rfl
  rcases number with decimal | float
  · obtain ⟨i, read, rfl⟩ :=
      exists_of_map_eq_ok ((Scalar.canonical_of_decimal decimal s.text).symm.trans taken)
    obtain ⟨left, least, most⟩ := Integer.exists_of_readDecimal read
    obtain ⟨-, none, noPlus⟩ := Integer.decimalText_spec i
    have once := Integer.leadingSigns_of_readInt left
    obtain ⟨shape, pluses⟩ := leadingSigns_before (once.imp_right .inl)
    have single : signs ≠ ['+', '+'] := by
      refine pluses.not.mpr fun plus => ?_
      rw [← head?_leadingSigns] at plus
      rcases once with same | same <;> simp [same] at plus
    refine ⟨shape.imp_right fun h => .inl (h.resolve_right single), none,
      iff_of_false noPlus single, iff_of_true ?_ single, fun first => ?_⟩
    · rw [Scalar.canonical_of_decimal decimal, Integer.readDecimal_decimalText least most]
      rfl
    · rw [Scalar.canonical_of_decimal decimal, front,
        Integer.readDecimal_congr (dropLeading_plus_cons (head?_leadingSigns.not.mp first)), read]
      rfl
  · obtain ⟨left, read, rfl⟩ :=
      exists_of_map_eq_ok ((Scalar.canonical_of_float float s.text).symm.trans taken)
    obtain ⟨rfl, numeral⟩ := Float.read_eq_ok_iff.mp read
    have none := underscore_not_mem s.text.toList
    obtain ⟨shape, pluses⟩ := leadingSigns_before (Float.leadingSigns_of_isNumeral numeral)
    rw [Scalar.canonical_of_float float, String.toList_ofList]
    refine ⟨shape.imp_right (Or.imp_right (⟨float, ·⟩)), none, pluses.symm, ?_, fun first => ?_⟩
    · rw [map_eq_ok_iff fun _ _ => String.ofList_injective, Float.read_eq_self_iff numeral none]
      exact pluses.not.symm
    · rw [Scalar.canonical_of_float float, front,
        Float.read_congr (dropLeading_plus_cons (head?_leadingSigns.not.mp first)), read]
      rfl

theorem canonical_number_signed :
    let s := Scalar.verbatim .float "_+-1_0.5e+3"
    (s.kind = .decimal ∨ s.kind = .float) ∧ s.canonical = .ok "-10.5e+3" ∧
      leadingSigns (dropUnderscores s.text.toList) = ['+', '-'] ∧
      ({ s with text := "-10.5e+3" } : Scalar).canonical = .ok "-10.5e+3" :=
  ⟨by decide, by decide, by decide,
    (canonical_number (s := Scalar.verbatim .float "_+-1_0.5e+3") (by decide)
      (by decide)).2.2.2.1.mpr (by decide)⟩

/-- A second sign is not noticed after a plus. Of two pluses one stays in the canonical text, which
loses it when it is read again. -/
theorem second_sign_kept :
    let doubled := Scalar.verbatim .float "++1"
    (leadingSigns (dropUnderscores doubled.text.toList)).length = 2 ∧
      doubled.canonical = .ok "+1" ∧
      ({ doubled with text := "+1" } : Scalar).canonical = .ok "1" ∧
      (Scalar.verbatim .decimal "+-1").canonical = .ok "-1" := by
  decide

end TomlSemantics
