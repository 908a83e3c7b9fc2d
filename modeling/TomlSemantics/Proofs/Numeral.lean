import Mathlib.Data.List.Forall2
import Mathlib.Data.Nat.Digits.Defs
import TomlSemantics.Proofs.ElementIndex
import TomlSemantics.Proofs.Scope
import TomlSemantics.Scalar.Canonical

/-!
# Integers by the place of their digits

What digits denote is said without reading them: every character stands for a digit, and a digit
counts for more the further left it is. The reader of numbers finds just that, for texts of any
length, so the range of an integer is checked against the number that was meant.

1. `Digits.Stands`, `Digits.Denotes`: digits and the numbers that they denote.
2. `Digits.number_eq_some_iff`: what is read from digits is what they denote.
3. `Integer.Signed`, `Integer.Marked`: what an integer denotes, in decimal and in another base;
   `Integer.IsNumeral`: how it is written again.
4. `canonical_integer`: the canonical text of integers of every base.
-/

namespace TomlSemantics

variable {base n d : Nat} {c : Char} {text mark : List Char} {i : Int}

/-! ## Digits -/

namespace Digits

/-- A character stands for a digit below sixteen. Letters may be small or capital. -/
def Stands (c : Char) (d : Nat) : Prop :=
  "0123456789abcdef".toList[d]? = some c ∨ "0123456789ABCDEF".toList[d]? = some c

instance (c : Char) (d : Nat) : Decidable (Stands c d) := inferInstanceAs (Decidable (_ ∨ _))

/-- A text of digits, at least one, denotes a number: the last digit counts ones, the one before it
counts bases, the next squares of the base, and so on. -/
def Denotes (base : Nat) (text : List Char) (n : Nat) : Prop :=
  ∃ ds : List Nat, List.Forall₂ Stands text ds ∧ (∀ d ∈ ds, d < base) ∧ ds ≠ [] ∧
    Nat.ofDigits base ds.reverse = n

theorem Stands.lt (h : Stands c d) : d < 16 := by
  rcases h with found | found <;> exact (List.getElem?_eq_some_iff.mp found).1

/-- What both tables say of a digit holds of the character that stands for it. -/
theorem Stands.eq_of_table {α : Type} {f : Char → α} {a : α} (h : Stands c d)
    (small : "0123456789abcdef".toList[d]?.map f = some a)
    (capital : "0123456789ABCDEF".toList[d]?.map f = some a) : f c = a := by
  rcases h with found | found
  · rw [found] at small
    exact Option.some.inj small
  · rw [found] at capital
    exact Option.some.inj capital

theorem digit_eq_filter (c : Char) (most : base ≤ 16) :
    digit base c = (digit 16 c).filter (· < base) := by
  unfold digit
  dsimp only
  rw [Option.filter_filter]
  congr 1
  funext value
  grind

theorem toNat_lt_of_digit (h : digit 16 c = some d) : c.toNat < 128 := by
  have range : c.isDigit ∨ ('a' ≤ c ∧ c ≤ 'f') ∨ ('A' ≤ c ∧ c ≤ 'F') := by
    by_contra other
    simp only [not_or] at other
    simp [digit, other] at h
  rcases range with decimal | small | capital
  · simp only [Char.isDigit, Bool.and_eq_true, decide_eq_true_eq] at decimal
    exact Nat.lt_of_le_of_lt decimal.2 (by decide)
  · exact Nat.lt_of_le_of_lt small.2 (by decide)
  · exact Nat.lt_of_le_of_lt capital.2 (by decide)

theorem digit_eq_some_iff (most : base ≤ 16) : digit base c = some d ↔ Stands c d ∧ d < base := by
  -- No character above the ASCII range is a digit, so a table of all others is enough.
  have ascii : ∀ n < 128, ∀ d ∈ digit 16 (Char.ofNat n), Stands (Char.ofNat n) d := by decide
  have small : ∀ d < 16, "0123456789abcdef".toList[d]?.map (digit 16) = some (some d) := by decide
  have capital : ∀ d < 16, "0123456789ABCDEF".toList[d]?.map (digit 16) = some (some d) := by
    decide
  have read : digit 16 c = some d ↔ Stands c d := by
    constructor
    · intro h
      have stands := ascii c.toNat (toNat_lt_of_digit h) d
      rw [Char.ofNat_toNat] at stands
      exact stands h
    · intro h
      exact h.eq_of_table (small d h.lt) (capital d h.lt)
  rw [digit_eq_filter c most, Option.filter_eq_some_iff, read]
  simp

/-! ## Numbers -/

/-- A number that is read after another has the places of that moved up. -/
theorem numberFrom_eq_some_iff (most : base ≤ 16) {before : Nat} :
    numberFrom base before text = some n ↔
      ∃ ds : List Nat, List.Forall₂ Stands text ds ∧ (∀ d ∈ ds, d < base) ∧
        Nat.ofDigits base ds.reverse + base ^ ds.length * before = n := by
  induction text generalizing before with
  | nil =>
    rw [numberFrom, Option.some.injEq]
    constructor
    · rintro rfl
      exact ⟨[], .nil, List.forall_mem_nil _, by simp⟩
    · rintro ⟨ds, stands, -, same⟩
      cases stands
      simpa using same
  | cons c rest ih =>
    -- The first digit is worth the same whether it is read before the others or placed above them.
    have place (d : Nat) (ds : List Nat) :
        Nat.ofDigits base ds.reverse + base ^ ds.length * (before * base + d) =
          Nat.ofDigits base (d :: ds).reverse + base ^ (d :: ds).length * before := by
      rw [Nat.ofDigits_reverse_cons, List.length_cons]
      ring
    rw [numberFrom, Option.bind_eq_some_iff]
    constructor
    · rintro ⟨d, found, read⟩
      obtain ⟨stands, bound⟩ := (digit_eq_some_iff most).mp found
      obtain ⟨ds, others, bounds, same⟩ := ih.mp read
      exact ⟨d :: ds, .cons stands others, List.forall_mem_cons.mpr ⟨bound, bounds⟩,
        (place d ds).symm.trans same⟩
    · rintro ⟨_, stands, bounds, same⟩
      obtain _ | ⟨first, others⟩ := stands
      next d ds =>
      obtain ⟨bound, bounds⟩ := List.forall_mem_cons.mp bounds
      exact ⟨d, (digit_eq_some_iff most).mpr ⟨first, bound⟩,
        ih.mpr ⟨ds, others, bounds, (place d ds).trans same⟩⟩

/-- What is read from digits is what they denote. -/
theorem number_eq_some_iff (most : base ≤ 16) :
    number base text = some n ↔ Denotes base text n := by
  unfold number Denotes
  cases text with
  | nil =>
    refine iff_of_false (by simp) ?_
    rintro ⟨ds, stands, -, some_, -⟩
    cases stands
    exact some_ rfl
  | cons c rest =>
    rw [List.isEmpty_cons, if_neg Bool.false_ne_true, numberFrom_eq_some_iff most]
    refine exists_congr fun ds => and_congr_right fun stands => and_congr_right fun _ => ?_
    have some_ : ds ≠ [] := by
      rintro rfl
      cases stands
    simp [some_]

theorem Denotes.stands_of_mem (h : Denotes base text n) (member : c ∈ text) :
    ∃ d, Stands c d ∧ d < base := by
  obtain ⟨ds, stands, bounds, -, -⟩ := h
  obtain ⟨i, inside, rfl⟩ := List.getElem_of_mem member
  have inside' : i < ds.length := stands.length_eq ▸ inside
  exact ⟨ds[i], stands.get inside inside', bounds _ (List.getElem_mem inside')⟩

/-- A number is written in digits that denote it. -/
theorem denotes_toDigits (n : Nat) : Denotes 10 (Nat.toDigits 10 n) n := by
  rw [← number_eq_some_iff (by decide), number, if_neg (by simp [Nat.toDigits_ne_nil])]
  exact ElementIndex.numberFrom_toDigits n

end Digits

/-! ## Integers -/

namespace Integer

open Digits

/-- What a decimal integer denotes: digits with at most one sign in front. -/
inductive Signed : List Char → Int → Prop
  | plain {text : List Char} {n : Nat} : Denotes 10 text n → Signed text n
  | plus {text : List Char} {n : Nat} : Denotes 10 text n → Signed ('+' :: text) n
  | minus {text : List Char} {n : Nat} : Denotes 10 text n → Signed ('-' :: text) (-n)

/-- What an integer in another base denotes: digits, with the mark of the base in front or not. -/
inductive Marked (mark : List Char) (base : Nat) : List Char → Nat → Prop
  | plain {text : List Char} {n : Nat} : Denotes base text n → Marked mark base text n
  | marked {text : List Char} {n : Nat} : Denotes base text n → Marked mark base (mark ++ text) n

/-- The canonical numeral of an integer: digits that denote its absolute value, with a zero in front
only if that is all, and with a minus before them if the integer is negative. -/
def IsNumeral (i : Int) (text : List Char) : Prop :=
  ∃ digits, Denotes 10 digits i.natAbs ∧ (digits.head? = some '0' → digits = ['0']) ∧
    text = if i < 0 then '-' :: digits else digits

theorem isNumeral_decimalText (i : Int) : IsNumeral i (decimalText i).toList := by
  refine ⟨Nat.toDigits 10 i.natAbs, denotes_toDigits _, fun zero => ?_, ?_⟩
  · cases size : i.natAbs with
    | zero => rfl
    | succ m => exact absurd zero (size ▸ ElementIndex.head?_toDigits (Nat.succ_pos m))
  · unfold decimalText
    split
    · rw [String.toList_append, Nat.toList_repr]
      rfl
    · exact Nat.toList_repr

theorem isNumeral_repr (n : Nat) : IsNumeral n n.repr.toList := by
  have numeral := isNumeral_decimalText n
  rwa [decimalText, if_neg (by omega), Int.natAbs_natCast] at numeral

/-! ### Readers -/

theorem readNat_of_denotes (most : base ≤ 16) (h : Denotes base text n) :
    readNat base text = .ok n := by
  rw [readNat, (number_eq_some_iff most).mpr h]

theorem readNat_of_not_denotes (most : base ≤ 16) (h : ∀ n, ¬ Denotes base text n) :
    readNat base text = .error .invalidDigits := by
  unfold readNat
  cases read : number base text with
  | none => rfl
  | some n => exact absurd ((number_eq_some_iff most).mp read) (h n)

/-- No digit is a sign. -/
theorem ne_of_denotes (h : Denotes 10 (c :: text) n) : c ≠ '+' ∧ c ≠ '-' := by
  obtain ⟨d, stands, bound⟩ := h.stands_of_mem List.mem_cons_self
  have signs : ∀ d < 10, ¬ Stands '+' d ∧ ¬ Stands '-' d := by decide
  constructor
  · rintro rfl
    exact (signs d bound).1 stands
  · rintro rfl
    exact (signs d bound).2 stands

theorem readInt_of_denotes (h : Denotes 10 text n) : readInt text = .ok n := by
  unfold readInt
  split
  · next digits => exact absurd rfl (ne_of_denotes h).2
  · rw [readNat_of_denotes (by decide) h]
    rfl

theorem dropLeading_append (first rest : List Char) : dropLeading first (first ++ rest) = rest := by
  rw [dropLeading, if_pos (by simp), List.drop_left]

theorem dropLeading_eq_self {first : List Char} (h : ¬ first <+: text) :
    dropLeading first text = text :=
  if_neg (by rwa [List.isPrefixOf_iff_prefix])

/-- A plus in front is dropped, and a sign that is left is a minus. -/
theorem readInt_of_signed (h : Signed text i) : readInt (dropLeading ['+'] text) = .ok i := by
  cases h with
  | plain denotes =>
    have kept : ¬ ['+'] <+: text := by
      rintro ⟨rest, rfl⟩
      exact (ne_of_denotes denotes).1 rfl
    rw [dropLeading_eq_self kept]
    exact readInt_of_denotes denotes
  | plus denotes =>
    show readInt (dropLeading ['+'] (['+'] ++ _)) = _
    rw [dropLeading_append]
    exact readInt_of_denotes denotes
  | minus denotes =>
    rw [dropLeading_eq_self (by simp), readInt, readNat_of_denotes (by decide) denotes]
    rfl

/-- The mark of a base holds a letter that is no digit of the base: no digits start with it. -/
theorem marked_iff (foreign : ∃ c ∈ mark, ∀ d < base, ¬ Stands c d) :
    Marked mark base text n ↔ Denotes base (dropLeading mark text) n := by
  obtain ⟨c, member, foreign⟩ := foreign
  constructor
  · intro h
    cases h with
    | marked denotes => rwa [dropLeading_append]
    | plain denotes =>
      have kept : ¬ mark <+: text := by
        rintro ⟨rest, rfl⟩
        obtain ⟨d, stands, bound⟩ := denotes.stands_of_mem (List.mem_append_left rest member)
        exact foreign d bound stands
      rwa [dropLeading_eq_self kept]
  · intro h
    by_cases first : mark <+: text
    · obtain ⟨rest, rfl⟩ := first
      rw [dropLeading_append] at h
      exact .marked h
    · rw [dropLeading_eq_self first] at h
      exact .plain h

/-! ### Results -/

/-- A result is the canonical numeral of an integer, or says that the integer is out of range. -/
def Gives (result : Except Malformed String) (least greatest i : Int) : Prop :=
  if least ≤ i ∧ i ≤ greatest then ∃ text, result = .ok text ∧ IsNumeral i text.toList
  else result = .error .outOfRange

theorem readDecimal_of_signed {cs : List Char} (h : Signed (dropUnderscores cs) i)
    (range : -0x8000000000000000 ≤ i ∧ i < 0x8000000000000000) : readDecimal cs = .ok i := by
  rw [readDecimal, readInt_of_signed h]
  show (if _ then _ else _) = _
  rw [if_pos range]
  rfl

theorem readDecimal_gives {cs : List Char} (h : Signed (dropUnderscores cs) i) :
    Gives (decimalText <$> readDecimal cs) (-2 ^ 63) (2 ^ 63 - 1) i := by
  unfold Gives
  split
  · next range =>
    refine ⟨decimalText i, ?_, isNumeral_decimalText i⟩
    rw [readDecimal_of_signed h (by omega)]
    rfl
  · next range =>
    have beyond : ¬ (-0x8000000000000000 ≤ i ∧ i < 0x8000000000000000) := by omega
    rw [readDecimal, readInt_of_signed h]
    show decimalText <$> (if _ then _ else _) = _
    rw [if_neg beyond]
    rfl

theorem readBased_gives {cs : List Char} (most : base ≤ 16)
    (foreign : ∃ c ∈ mark, ∀ d < base, ¬ Stands c d)
    (h : Marked mark base (dropUnderscores cs) n) :
    Gives (Nat.repr <$> readBased mark base cs) 0 (2 ^ 64 - 1) n := by
  unfold Gives readBased
  rw [readNat_of_denotes most ((marked_iff foreign).mp h)]
  split
  · next range =>
    have fits : n < 0x10000000000000000 := by omega
    refine ⟨n.repr, ?_, isNumeral_repr n⟩
    show Nat.repr <$> (if _ then _ else _) = _
    rw [if_pos fits]
    rfl
  · next range =>
    have beyond : ¬ n < 0x10000000000000000 := by omega
    show Nat.repr <$> (if _ then _ else _) = _
    rw [if_neg beyond]
    rfl

theorem readBased_of_not_marked {cs : List Char} (most : base ≤ 16)
    (foreign : ∃ c ∈ mark, ∀ d < base, ¬ Stands c d)
    (h : ∀ n, ¬ Marked mark base (dropUnderscores cs) n) :
    readBased mark base cs = .error .invalidDigits := by
  have none (n : Nat) : ¬ Denotes base (dropLeading mark (dropUnderscores cs)) n := fun denotes =>
    h n ((marked_iff foreign).mpr denotes)
  rw [readBased, readNat_of_not_denotes most none]
  rfl

/-- The mark and the base of a kind of integer. -/
inductive Based : Kind → List Char → Nat → Prop
  | binary : Based .binary "0b".toList 2
  | octal : Based .octal "0o".toList 8
  | hex : Based .hex "0x".toList 16

theorem canonical_based {s : Scalar} (h : Based s.kind mark base) :
    s.canonical = Nat.repr <$> readBased mark base s.text.toList ∧ base ≤ 16 ∧
      ∃ c ∈ mark, ∀ d < base, ¬ Stands c d := by
  unfold Scalar.canonical
  generalize s.kind = kind at h
  cases h with
  | binary => exact ⟨rfl, by decide, 'b', by decide, by decide⟩
  | octal => exact ⟨rfl, by decide, 'o', by decide, by decide⟩
  | hex => exact ⟨rfl, by decide, 'x', by decide, by decide⟩

end Integer

open Integer in
/-- Underscores apart, a decimal integer of digits after at most one sign gives the canonical
numeral of the integer that they denote, as long as that is a signed word of 64 bits. Digits in
another base, marked or not, give that of their number, as long as it is an unsigned word. All
beyond is out of range. In those bases no other text has valid digits. -/
theorem canonical_integer (s : Scalar) :
    let text := dropUnderscores s.text.toList
    (s.kind = .decimal → ∀ i, Signed text i → Gives s.canonical (-2 ^ 63) (2 ^ 63 - 1) i) ∧
    ∀ mark base, Based s.kind mark base →
      (∀ n : Nat, Marked mark base text n → Gives s.canonical 0 (2 ^ 64 - 1) n) ∧
      ((∀ n, ¬ Marked mark base text n) → s.canonical = .error .invalidDigits) := by
  intro text
  constructor
  · intro decimal i signed
    rw [Scalar.canonical, decimal]
    exact readDecimal_gives signed
  · intro mark base based
    obtain ⟨canonical, most, foreign⟩ := canonical_based based
    rw [canonical]
    constructor
    · exact fun n marked => readBased_gives most foreign marked
    · intro other
      rw [readBased_of_not_marked most foreign other]
      rfl

example : (Scalar.verbatim .decimal "-9_223_372_036_854_775_808").canonical =
    .ok "-9223372036854775808" := by decide +kernel
example : (Scalar.verbatim .hex "0x1_0000_0000_0000_0000").canonical = .error .outOfRange := by
  decide +kernel

end TomlSemantics
