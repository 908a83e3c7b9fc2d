import TomlSemantics.Proofs.DatetimeGrammar
import TomlSemantics.Scalar.Canonical

/-!
# Canonical datetimes, byte by byte

The canonical text of a datetime is found without parsing: a capital letter is written over byte
ten and over the last byte. That is safe for every text, since a byte below 128 is always a
character of its own, and for a well-formed text those two bytes are the marks around the time.

1. `bytes`, `overwrite`: a text in UTF-8, and the letters written over its bytes.
2. `bytes_canonical`: the canonical text is the one with these bytes.
3. `Conforms.canonical`: it is well formed again.
4. `canonical_datetime`: what is kept, what is made the same, and where bytes are replaced.
-/

namespace TomlSemantics.Datetime

open Digits

variable {text before rest : List Char} {bs bs' : List UInt8} {b : UInt8} {c : Char} {n i : Nat}

/-! ## Bytes -/

/-- The bytes of a text in UTF-8. -/
def bytes (text : List Char) : List UInt8 := text.flatMap String.utf8EncodeChar

@[simp] theorem bytes_nil : bytes [] = [] := rfl

@[simp] theorem bytes_cons : bytes (c :: rest) = String.utf8EncodeChar c ++ bytes rest := rfl

@[simp] theorem bytes_append : bytes (before ++ rest) = bytes before ++ bytes rest :=
  List.flatMap_append

theorem bytes_injective : Function.Injective bytes := by
  intro text text' same
  have encoded : (String.ofList text).toByteArray = (String.ofList text').toByteArray := by
    rw [String.toByteArray_ofList, String.toByteArray_ofList]
    exact congrArg List.toByteArray same
  exact String.ofList_injective (String.toByteArray_inj.mp encoded)

/-- Every byte of a longer character has its highest bit set. -/
theorem le_of_mem_utf8EncodeChar (more : c.utf8Size ≠ 1) (member : b ∈ String.utf8EncodeChar c) :
    128 ≤ b.toNat := by
  have high (x m : UInt8) (h : 128 ≤ m.toNat) : 128 ≤ (x ||| m).toNat := by
    rw [UInt8.toNat_or]
    exact h.trans Nat.right_le_or
  revert b
  rcases c.utf8Size_eq with one | two | three | four
  · exact absurd one more
  · rw [String.utf8EncodeChar_eq_cons_cons two]
    simp only [List.forall_mem_cons]
    exact ⟨high _ _ (by decide), high _ _ (by decide), List.forall_mem_nil _⟩
  · rw [String.utf8EncodeChar_eq_cons_cons_cons three]
    simp only [List.forall_mem_cons]
    exact ⟨high _ _ (by decide), high _ _ (by decide), high _ _ (by decide), List.forall_mem_nil _⟩
  · rw [String.utf8EncodeChar_eq_cons_cons_cons_cons four]
    simp only [List.forall_mem_cons]
    exact ⟨high _ _ (by decide), high _ _ (by decide), high _ _ (by decide), high _ _ (by decide),
      List.forall_mem_nil _⟩

/-- A byte below 128 is a character of its own. -/
theorem eq_of_getElem?_utf8EncodeChar (found : (String.utf8EncodeChar c)[n]? = some b)
    (ascii : b.toNat < 128) : n = 0 ∧ c.toNat = b.toNat := by
  by_cases one : c.utf8Size = 1
  · have small : c.toNat ≤ 127 := Char.utf8Size_eq_one_iff.mp one
    rw [String.utf8EncodeChar_eq_singleton one, List.getElem?_singleton] at found
    simp only [Option.ite_none_right_eq_some, Option.some.injEq] at found
    obtain ⟨rfl, rfl⟩ := found
    refine ⟨rfl, ?_⟩
    rw [UInt32.toNat_toUInt8]
    show c.toNat = c.toNat % _
    omega
  · have := le_of_mem_utf8EncodeChar one (List.mem_of_getElem? found)
    omega

/-- Where a byte is below 128, the text has a character between two boundaries. -/
theorem exists_of_ascii (found : (bytes text)[n]? = some b) (ascii : b.toNat < 128) :
    ∃ before c rest, text = before ++ c :: rest ∧ (bytes before).length = n ∧
      c.toNat = b.toNat := by
  induction text generalizing n with
  | nil => simp at found
  | cons c rest ih =>
    rw [bytes_cons] at found
    -- The byte is the only one of the first character, or one of the characters after it.
    by_cases inside : n < (String.utf8EncodeChar c).length
    · rw [List.getElem?_append_left inside] at found
      obtain ⟨rfl, same⟩ := eq_of_getElem?_utf8EncodeChar found ascii
      exact ⟨[], c, rest, rfl, rfl, same⟩
    · rw [List.getElem?_append_right (by omega)] at found
      obtain ⟨before, c', rest, rfl, size, same⟩ := ih found
      refine ⟨c :: before, c', rest, rfl, ?_, same⟩
      rw [bytes_cons, List.length_append, size]
      omega

theorem utf8EncodeChar_of_ascii (ascii : c.toNat < 128) : String.utf8EncodeChar c = [c.toUInt8] :=
  String.utf8EncodeChar_eq_singleton (Char.utf8Size_eq_one_iff.mpr (Nat.le_of_lt_succ ascii))

theorem toNat_toUInt8_of_ascii (ascii : c.toNat < 128) : c.toUInt8.toNat = c.toNat := by
  show c.val.toUInt8.toNat = c.val.toNat
  rw [UInt32.toNat_toUInt8]
  exact Nat.mod_eq_of_lt (Nat.lt_trans ascii (by decide))

/-- Where the byte of a letter is, there is the letter. -/
theorem exists_of_letter (found : (bytes text)[n]? = some c.toUInt8) (ascii : c.toNat < 128) :
    ∃ before rest, text = before ++ c :: rest ∧ (bytes before).length = n := by
  have byte := toNat_toUInt8_of_ascii ascii
  obtain ⟨before, c', rest, rfl, size, same⟩ := exists_of_ascii found (byte ▸ ascii)
  obtain rfl := Char.toNat_inj.mp (same.trans byte)
  exact ⟨before, rest, rfl, size⟩

/-- A letter written over another one is written over its byte. -/
theorem bytes_replace {c' : Char} (before rest : List Char) (ascii : c.toNat < 128)
    (ascii' : c'.toNat < 128) :
    bytes (before ++ c' :: rest) =
      (bytes (before ++ c :: rest)).set (bytes before).length c'.toUInt8 := by
  rw [bytes_append, bytes_append, bytes_cons, bytes_cons, utf8EncodeChar_of_ascii ascii,
    utf8EncodeChar_of_ascii ascii', List.set_append_right _ _ (Nat.le_refl _), Nat.sub_self]
  rfl

/-- There is a boundary between any two characters. -/
theorem isValid_length (before rest : List Char) :
    (⟨(bytes before).length⟩ : String.Pos.Raw).IsValid (String.ofList (before ++ rest)) := by
  rw [String.Pos.Raw.isValid_ofList]
  refine ⟨before.length, ?_⟩
  rw [List.take_left]
  show _ = (String.ofList before).toByteArray.size
  rw [String.toByteArray_ofList]
  simp [List.utf8Encode, bytes]

theorem isValid_of_ascii (found : (bytes text)[n]? = some b) (ascii : b.toNat < 128) :
    (⟨n⟩ : String.Pos.Raw).IsValid (String.ofList text) ∧
      (⟨n + 1⟩ : String.Pos.Raw).IsValid (String.ofList text) := by
  obtain ⟨before, c, rest, rfl, rfl, same⟩ := exists_of_ascii found ascii
  have one : (bytes (before ++ [c])).length = (bytes before).length + 1 := by
    simp [utf8EncodeChar_of_ascii (same ▸ ascii)]
  refine ⟨isValid_length before (c :: rest), ?_⟩
  rw [← one, List.append_cons]
  exact isValid_length (before ++ [c]) rest

/-! ## Letters written over bytes -/

/-- Whether the separator of a datetime has to be replaced. -/
def NeedsSeparator (bs : List UInt8) : Prop :=
  bs[separatorByte]? = some 't'.toUInt8 ∨ bs[separatorByte]? = some ' '.toUInt8

instance (bs : List UInt8) : Decidable (NeedsSeparator bs) := inferInstanceAs (Decidable (_ ∨ _))

/-- The bytes with capital letters for the marks of the time: the separator at its byte, and a `Z`
at the end. -/
def overwrite (bs : List UInt8) : List UInt8 :=
  let bs := if NeedsSeparator bs then bs.set separatorByte 'T'.toUInt8 else bs
  if bs.getLast? = some 'z'.toUInt8 then bs.set (bs.length - 1) 'Z'.toUInt8 else bs

theorem upgradeSeparator_append (before rest : List Char) (c : Char) :
    upgradeSeparator (bytes before).length (before ++ c :: rest) =
      before ++ (if c = 't' ∨ c = ' ' then 'T' else c) :: rest := by
  induction before with
  | nil => rfl
  | cons first before ih =>
    have size : (bytes (first :: before)).length = (bytes before).length + first.utf8Size := by
      simp [Nat.add_comm]
    obtain ⟨n, more⟩ := Nat.exists_eq_succ_of_ne_zero (by have := first.utf8Size_pos; omega :
      (bytes (first :: before)).length ≠ 0)
    rw [more, List.cons_append, upgradeSeparator, if_pos (by omega)]
    -- The walk is short of the separator by the bytes of one character.
    have left : n + 1 - first.utf8Size = (bytes before).length := by omega
    rw [left, ih]
    rfl

theorem upgradeSeparator_eq_self
    (other : ¬ ((bytes text)[n]? = some 't'.toUInt8 ∨ (bytes text)[n]? = some ' '.toUInt8)) :
    upgradeSeparator n text = text := by
  induction text generalizing n with
  | nil => cases n <;> rfl
  | cons c rest ih =>
    cases n with
    | zero =>
      rw [upgradeSeparator, if_neg]
      rintro (rfl | rfl)
      · exact other (.inl rfl)
      · exact other (.inr rfl)
    | succ n =>
      rw [upgradeSeparator]
      split
      · next reached =>
        rw [ih]
        rwa [bytes_cons, List.getElem?_append_right (by simpa using reached),
          String.length_utf8EncodeChar] at other
      · rfl

theorem bytes_upgradeSeparator (text : List Char) :
    bytes (upgradeSeparator separatorByte text) =
      if NeedsSeparator (bytes text) then (bytes text).set separatorByte 'T'.toUInt8
      else bytes text := by
  split
  · next needs =>
    rcases needs with small | space
    · obtain ⟨before, rest, rfl, size⟩ := exists_of_letter small (by decide)
      rw [← size, upgradeSeparator_append]
      exact bytes_replace before rest (by decide) (by decide)
    · obtain ⟨before, rest, rfl, size⟩ := exists_of_letter space (by decide)
      rw [← size, upgradeSeparator_append]
      exact bytes_replace before rest (by decide) (by decide)
  · next other => rw [upgradeSeparator_eq_self other]

theorem getLast?_bytes_eq_iff :
    (bytes text).getLast? = some 'z'.toUInt8 ↔ text.getLast? = some 'z' := by
  constructor
  · intro last
    rw [List.getLast?_eq_getElem?] at last
    obtain ⟨before, rest, rfl, size⟩ := exists_of_letter last (by decide)
    have none : rest = [] := by
      by_contra more
      obtain ⟨c, rest, rfl⟩ := List.exists_cons_of_ne_nil more
      have := c.utf8Size_pos
      simp [utf8EncodeChar_of_ascii (by decide : 'z'.toNat < 128)] at size
      omega
    subst none
    simp
  · intro last
    obtain ⟨before, rfl⟩ := List.getLast?_eq_some_iff.mp last
    simp [utf8EncodeChar_of_ascii (by decide : 'z'.toNat < 128)]

theorem bytes_upgradeZulu (text : List Char) :
    bytes (upgradeZulu text) =
      if (bytes text).getLast? = some 'z'.toUInt8 then
        (bytes text).set ((bytes text).length - 1) 'Z'.toUInt8
      else bytes text := by
  unfold upgradeZulu
  simp only [getLast?_bytes_eq_iff]
  split
  · next last =>
    obtain ⟨before, rfl⟩ := List.getLast?_eq_some_iff.mp last
    have size : (bytes (before ++ ['z'])).length - 1 = (bytes before).length := by
      simp [utf8EncodeChar_of_ascii (by decide : 'z'.toNat < 128)]
    rw [List.dropLast_concat, size]
    exact bytes_replace before [] (by decide) (by decide)
  · rfl

theorem bytes_canonical (text : List Char) : bytes (canonical text) = overwrite (bytes text) := by
  rw [canonical, bytes_upgradeZulu, bytes_upgradeSeparator]
  rfl

theorem length_overwrite (bs : List UInt8) : (overwrite bs).length = bs.length := by
  unfold overwrite
  dsimp only
  split <;> split <;> simp

/-- The bytes of the marks are replaced, and all others are kept. -/
theorem getElem?_overwrite (bs : List UInt8) (i : Nat) :
    (overwrite bs)[i]? =
      if i = separatorByte ∧ NeedsSeparator bs then some 'T'.toUInt8
      else if i + 1 = bs.length ∧ bs[i]? = some 'z'.toUInt8 then some 'Z'.toUInt8
      else bs[i]? := by
  have letters : 'T'.toUInt8 ≠ 'z'.toUInt8 := by decide
  unfold overwrite
  dsimp only
  by_cases needs : NeedsSeparator bs
  · have inside : separatorByte < bs.length := by
      rcases needs with found | found <;> exact (List.getElem?_eq_some_iff.mp found).1
    have marks : bs[separatorByte]? ≠ some 'z'.toUInt8 := by
      rcases needs with found | found <;> rw [found] <;> decide
    rw [if_pos needs]
    simp only [List.getLast?_eq_getElem?, List.length_set, List.getElem?_set]
    grind
  · rw [if_neg needs]
    simp only [List.getLast?_eq_getElem?]
    grind

/-- A replaced mark needs no replacing. -/
theorem overwrite_overwrite (bs : List UInt8) : overwrite (overwrite bs) = overwrite bs := by
  -- What stands at the separator now is a capital letter, or was no mark before.
  have done : ¬ NeedsSeparator (overwrite bs) := by
    unfold NeedsSeparator
    rw [getElem?_overwrite]
    split
    · decide
    · split
      · decide
      · next keeps _ => exact fun needs => keeps ⟨rfl, needs⟩
  refine List.ext_getElem? fun i => ?_
  rw [getElem?_overwrite (overwrite bs), if_neg (fun needs => done needs.2), length_overwrite]
  refine ite_eq_right_iff.mpr fun last => ?_
  rw [getElem?_overwrite] at last
  have letters : 'T'.toUInt8 ≠ 'z'.toUInt8 ∧ 'Z'.toUInt8 ≠ 'z'.toUInt8 := by decide
  grind

/-! ## Well-formed texts -/

theorem length_bytes (ascii : ∀ c ∈ text, c.toNat < 128) : (bytes text).length = text.length := by
  induction text with
  | nil => rfl
  | cons c rest ih =>
    obtain ⟨first, others⟩ := List.forall_mem_cons.mp ascii
    rw [bytes_cons, utf8EncodeChar_of_ascii first, List.length_append, ih others]
    exact Nat.add_comm _ _

theorem IsNumber.isDigit {count : Nat} (number : IsNumber count text n) :
    ∀ c ∈ text, c.isDigit = true := by
  intro c member
  obtain ⟨d, stands, bound⟩ := number.2.stands_of_mem member
  have small : ∀ d < 10, "0123456789abcdef".toList[d]?.map Char.isDigit = some true := by decide
  have capital : ∀ d < 10, "0123456789ABCDEF".toList[d]?.map Char.isDigit = some true := by decide
  exact stands.eq_of_table (small d bound) (capital d bound)

theorem IsDate.chars (date : IsDate text) : ∀ c ∈ text, c.isDigit = true ∨ c = '-' := by
  obtain ⟨year, month, day, -, -⟩ := date
  have := year.isDigit
  have := month.isDigit
  have := day.isDigit
  grind

theorem IsDate.length_eq (date : IsDate text) : text.length = separatorByte := by
  obtain ⟨year, month, day, -, -⟩ := date
  simp [year.1, month.1, day.1, separatorByte]

theorem IsTime.chars (time : IsTime text) : ∀ c ∈ text, c.isDigit = true ∨ c = ':' ∨ c = '.' := by
  have clock : ∀ text, IsClock text → ∀ c ∈ text, c.isDigit = true ∨ c = ':' := by
    rintro _ ⟨hour, minute, -, -⟩
    have := hour.isDigit
    have := minute.isDigit
    grind
  cases time with
  | minutes isClock =>
    have := clock _ isClock
    grind
  | seconds isClock isSecond isFraction =>
    have := clock _ isClock
    obtain ⟨second, number, -⟩ := isSecond
    have := number.isDigit
    cases isFraction with
    | none => grind
    | some _ decimal => grind

theorem IsDate.length_bytes_eq (date : IsDate text) : (bytes text).length = separatorByte := by
  rw [length_bytes, date.length_eq]
  intro c member
  rcases date.chars c member with decimal | rfl
  · simp only [Char.isDigit, Bool.and_eq_true, decide_eq_true_eq] at decimal
    exact Nat.lt_of_le_of_lt decimal.2 (by decide)
  · decide

/-- The separator is the byte past the date. -/
theorem IsDateTime.separator (datetime : IsDateTime text) (rest : List Char) :
    (bytes (text ++ rest))[separatorByte]? = some 'T'.toUInt8 ∨
      NeedsSeparator (bytes (text ++ rest)) := by
  obtain ⟨isDate, member, -⟩ := datetime
  unfold NeedsSeparator
  rw [List.append_assoc, bytes_append, ← isDate.length_bytes_eq,
    List.getElem?_append_right (Nat.le_refl _), Nat.sub_self]
  simp only [List.mem_cons, List.not_mem_nil, or_false] at member
  rcases member with rfl | rfl | rfl
  · exact .inl rfl
  · exact .inr (.inl rfl)
  · exact .inr (.inr rfl)

theorem Conforms.separator {kind : Kind} (joins : kind = .offsetDateTime ∨ kind = .localDateTime)
    (conforms : Conforms kind text) :
    (bytes text)[separatorByte]? = some 'T'.toUInt8 ∨ NeedsSeparator (bytes text) := by
  cases conforms with
  | localDate date => simp at joins
  | localTime time => simp at joins
  | localDateTime datetime => simpa using datetime.separator []
  | offsetDateTime datetime _ => exact datetime.separator _

theorem IsDateTime.upgradeSeparator (datetime : IsDateTime text) (rest : List Char) :
    ∃ text', IsDateTime text' ∧ 'z' ∉ text' ∧
      upgradeSeparator separatorByte (text ++ rest) = text' ++ rest := by
  obtain @⟨date, time, separator, isDate, member, isTime⟩ := datetime
  refine ⟨date ++ 'T' :: time, .intro isDate (by simp) isTime, ?_, ?_⟩
  · have := isDate.chars
    have := isTime.chars
    have other : 'z'.isDigit = false := by decide
    grind
  · rw [← isDate.length_bytes_eq, List.append_assoc, List.cons_append, upgradeSeparator_append]
    have capital : (if separator = 't' ∨ separator = ' ' then 'T' else separator) = 'T' := by grind
    rw [capital]
    simp

theorem upgradeZulu_eq_self (none : 'z' ∉ text) : upgradeZulu text = text :=
  if_neg fun last => none (List.mem_of_getLast? last)

theorem Conforms.canonical {kind : Kind} (joins : kind = .offsetDateTime ∨ kind = .localDateTime)
    (conforms : Conforms kind text) : Conforms kind (canonical text) := by
  cases conforms with
  | localDate date => simp at joins
  | localTime time => simp at joins
  | localDateTime datetime =>
    obtain ⟨text', isDateTime, none, upgraded⟩ := datetime.upgradeSeparator []
    rw [List.append_nil, List.append_nil] at upgraded
    rw [Datetime.canonical, upgraded, upgradeZulu_eq_self none]
    exact .localDateTime isDateTime
  | @offsetDateTime front offset datetime isOffset =>
    obtain ⟨text', isDateTime, none, upgraded⟩ := datetime.upgradeSeparator offset
    rw [Datetime.canonical, upgraded]
    cases isOffset with
    | @zulu c letter =>
      have capital : upgradeZulu (text' ++ [c]) = text' ++ ['Z'] := by
        unfold upgradeZulu
        grind
      rw [capital]
      exact .offsetDateTime isDateTime (.zulu (by simp))
    | hours sign isClock =>
      have := (IsTime.minutes isClock).chars
      have other : 'z'.isDigit = false := by decide
      rw [upgradeZulu_eq_self (by grind)]
      exact .offsetDateTime isDateTime (.hours sign isClock)

/-! ## Canonical scalars -/

/-- Whether a byte is a `Z`, in either case. -/
def IsZulu (b : Option UInt8) : Prop := b = some 'Z'.toUInt8 ∨ b = some 'z'.toUInt8

/-- The same bytes but for the separator, and for the case of a `Z` at the end. -/
def SameButMarks (bs bs' : List UInt8) : Prop :=
  bs.length = bs'.length ∧ ∀ i, i ≠ separatorByte →
    bs[i]? = bs'[i]? ∨ i + 1 = bs.length ∧ IsZulu bs[i]? ∧ IsZulu bs'[i]?

/-- A byte that can stand for the separator is a capital letter afterwards. -/
theorem getElem?_overwrite_separator
    (separator : bs[separatorByte]? = some 'T'.toUInt8 ∨ NeedsSeparator bs) :
    (overwrite bs)[separatorByte]? = some 'T'.toUInt8 := by
  rw [getElem?_overwrite]
  rcases separator with capital | needs
  · have letters : 'T'.toUInt8 ≠ 'z'.toUInt8 := by decide
    rw [capital]
    simp [letters]
  · rw [if_pos ⟨rfl, needs⟩]

theorem getElem?_overwrite_of_ne (other : i ≠ separatorByte) :
    (overwrite bs)[i]? =
      if i + 1 = bs.length ∧ bs[i]? = some 'z'.toUInt8 then some 'Z'.toUInt8 else bs[i]? := by
  rw [getElem?_overwrite, if_neg (by simp [other])]

theorem overwrite_eq_iff (separator : bs[separatorByte]? = some 'T'.toUInt8 ∨ NeedsSeparator bs)
    (separator' : bs'[separatorByte]? = some 'T'.toUInt8 ∨ NeedsSeparator bs') :
    overwrite bs = overwrite bs' ↔ SameButMarks bs bs' := by
  unfold SameButMarks IsZulu
  constructor
  · intro same
    have size : bs.length = bs'.length := by
      rw [← length_overwrite bs, same, length_overwrite]
    refine ⟨size, fun i other => ?_⟩
    have here := congrArg (·[i]?) same
    simp only [getElem?_overwrite_of_ne other] at here
    grind
  · rintro ⟨size, same⟩
    refine List.ext_getElem? fun i => ?_
    by_cases mark : i = separatorByte
    · rw [mark, getElem?_overwrite_separator separator, getElem?_overwrite_separator separator']
    · rw [getElem?_overwrite_of_ne mark, getElem?_overwrite_of_ne mark]
      have := same i mark
      grind

theorem getLast?_overwrite_ne (bs : List UInt8) : (overwrite bs).getLast? ≠ some 'z'.toUInt8 := by
  have letters : 'T'.toUInt8 ≠ 'z'.toUInt8 ∧ 'Z'.toUInt8 ≠ 'z'.toUInt8 := by decide
  rw [List.getLast?_eq_getElem?, length_overwrite, getElem?_overwrite]
  grind

/-- Only a byte below 128 is ever replaced. -/
theorem exists_of_overwrite_ne (replaced : (overwrite bs)[i]? ≠ bs[i]?) :
    ∃ b : UInt8, bs[i]? = some b ∧ b.toNat < 128 := by
  rw [getElem?_overwrite] at replaced
  split at replaced
  · next mark =>
    obtain ⟨rfl, found | found⟩ := mark
    · exact ⟨_, found, by decide⟩
    · exact ⟨_, found, by decide⟩
  · split at replaced
    · next mark => exact ⟨_, mark.2, by decide⟩
    · exact absurd rfl replaced

end TomlSemantics.Datetime

namespace TomlSemantics

open Datetime

/-- A scalar that names a day and a time of day. -/
def Scalar.IsTimestamp (s : Scalar) : Prop := s.kind = .offsetDateTime ∨ s.kind = .localDateTime

/-- A scalar that names a day and a time of day with a well-formed text. -/
def Scalar.IsWellFormed (s : Scalar) : Prop := s.IsTimestamp ∧ isWellFormed s.kind s.text = true

theorem Scalar.IsTimestamp.canonical_eq {s : Scalar} (h : s.IsTimestamp) :
    s.canonical = .ok (.ofList (Datetime.canonical s.text.toList)) := by
  rcases h with offset | plain
  · rw [Scalar.canonical, offset]
  · rw [Scalar.canonical, plain]

theorem Scalar.IsWellFormed.conforms {s : Scalar} (h : s.IsWellFormed) :
    Conforms s.kind s.text.toList :=
  (wellFormed_iff s.kind s.text).1.mp h.2

/-- A well-formed text with capital letters for the marks around the time, the same otherwise. -/
structure Scalar.Capitalised (s : Scalar) (text : String) : Prop where
  wellFormed : Scalar.IsWellFormed { s with text := text }
  length_eq : (bytes text.toList).length = (bytes s.text.toList).length
  separator : (bytes text.toList)[separatorByte]? = some 'T'.toUInt8
  last_ne : (bytes text.toList).getLast? ≠ some 'z'.toUInt8
  /-- Apart from the separator only a `z` at the end may differ. -/
  others : ∀ i, i ≠ separatorByte →
    (bytes text.toList)[i]? = (bytes s.text.toList)[i]? ∨
      i + 1 = (bytes s.text.toList).length ∧ (bytes s.text.toList)[i]? = some 'z'.toUInt8
  /-- The canonical text is canonical. -/
  canonical_eq : Scalar.canonical { s with text := text } = .ok text

theorem Scalar.IsWellFormed.capitalised {s : Scalar} (h : s.IsWellFormed) :
    s.Capitalised (.ofList (Datetime.canonical s.text.toList)) where
  wellFormed := by
    refine ⟨h.1, (wellFormed_iff _ _).1.mpr ?_⟩
    rw [String.toList_ofList]
    exact h.conforms.canonical h.1
  length_eq := by rw [String.toList_ofList, bytes_canonical, length_overwrite]
  separator := by
    rw [String.toList_ofList, bytes_canonical]
    exact getElem?_overwrite_separator (h.conforms.separator h.1)
  last_ne := by
    rw [String.toList_ofList, bytes_canonical]
    exact getLast?_overwrite_ne _
  others := by
    intro i other
    rw [String.toList_ofList, bytes_canonical, getElem?_overwrite_of_ne other]
    split
    · next last => exact .inr last
    · exact .inl rfl
  canonical_eq := by
    have again : Datetime.canonical (Datetime.canonical s.text.toList) =
        Datetime.canonical s.text.toList := by
      -- The bytes tell: overwriting them twice changes no more than once.
      apply bytes_injective
      simp only [bytes_canonical, overwrite_overwrite]
    have timestamp : Scalar.IsTimestamp
        { s with text := .ofList (Datetime.canonical s.text.toList) } := h.1
    rw [timestamp.canonical_eq, String.toList_ofList, again]

/-- The canonical text of a well-formed datetime is well formed, as long as the text that it comes
from and the same but for the marks around the time, which are capital; it is canonical itself, and
shared just by the texts that differ in those marks. Of any text, well formed or not, only whole
characters are replaced. -/
theorem canonical_datetime :
    (∀ s : Scalar, s.IsWellFormed → ∃ text, s.canonical = .ok text ∧ s.Capitalised text) ∧
    (∀ s s' : Scalar, s.IsWellFormed → s'.IsWellFormed → s.kind = s'.kind →
      (s.canonical = s'.canonical ↔ SameButMarks (bytes s.text.toList) (bytes s'.text.toList))) ∧
    ∀ s : Scalar, s.IsTimestamp → ∃ text, s.canonical = .ok text ∧
      bytes text.toList = overwrite (bytes s.text.toList) ∧
      ∀ i, (bytes text.toList)[i]? ≠ (bytes s.text.toList)[i]? →
        (⟨i⟩ : String.Pos.Raw).IsValid s.text ∧ (⟨i + 1⟩ : String.Pos.Raw).IsValid s.text := by
  refine ⟨fun s h => ⟨_, h.1.canonical_eq, h.capitalised⟩, fun s s' h h' _ => ?_, fun s h => ?_⟩
  · rw [h.1.canonical_eq, h'.1.canonical_eq, Except.ok.injEq, String.ofList_inj,
      ← bytes_injective.eq_iff, bytes_canonical, bytes_canonical]
    exact overwrite_eq_iff (h.conforms.separator h.1) (h'.conforms.separator h'.1)
  · refine ⟨_, h.canonical_eq, by rw [String.toList_ofList, bytes_canonical], fun i replaced => ?_⟩
    rw [String.toList_ofList, bytes_canonical] at replaced
    obtain ⟨b, found, ascii⟩ := exists_of_overwrite_ne replaced
    simpa using isValid_of_ascii found ascii

/-- Byte ten may be anywhere in a text that is no datetime. -/
example : (Scalar.verbatim .localDateTime "Zürich été z").canonical = .ok "Zürich éTé Z" := by
  decide +kernel

end TomlSemantics
