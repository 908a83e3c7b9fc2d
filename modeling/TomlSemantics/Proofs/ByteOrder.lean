import TomlSemantics.Proofs.DatetimeCanonical

/-!
# The order of texts is that of their bytes

Texts are compared by code point, and in UTF-8 that is the same as comparing byte by byte: a longer
character starts with a greater byte, and characters of one length hold the bits of their code
points from the highest down. So the order of segments, and with it that of names, may be read
either way.
-/

namespace TomlSemantics

open Datetime

variable {c d : Char} {text other : List Char} {s t : String}

/-- A character that comes first comes first in bytes, whatever follows. -/
theorem utf8EncodeChar_append_lt (less : c < d) (rest rest' : List UInt8) :
    String.utf8EncodeChar c ++ rest < String.utf8EncodeChar d ++ rest' := by
  have less : c.val.toNat < d.val.toNat := less
  have last : d.val.toNat < 0x110000 := by
    have valid := d.valid
    simp only [UInt32.isValidChar, Nat.isValidChar] at valid
    omega
  -- Each byte holds six bits more than the one before, so every shift is one of the last by six.
  have shifts (k : Nat) : k / 4096 = k / 64 / 64 ∧ k / 262144 = k / 64 / 64 / 64 := by omega
  unfold String.utf8EncodeChar
  dsimp only
  rw [(shifts _).1, (shifts _).2, (shifts d.val.toNat).1, (shifts d.val.toNat).2]
  clear shifts
  generalize c.val.toNat = m at less
  generalize d.val.toNat = n at less last
  repeat' split
  all_goals
    simp only [List.cons_append, List.nil_append, List.cons_lt_cons_iff, UInt8.lt_iff_toNat_lt,
      UInt8.toNat_ofNat', ← UInt8.toNat_inj]
    omega

theorem bytes_lt_of_lt (less : text < other) : bytes text < bytes other := by
  induction less with
  | nil =>
    rename_i c rest
    cases shown : String.utf8EncodeChar c with
    | nil => exact absurd shown String.utf8EncodeChar_ne_nil
    | cons b bs =>
      rw [bytes_cons, shown]
      exact List.Lex.nil
  | rel first => exact utf8EncodeChar_append_lt first _ _
  | cons _ ih => exact List.append_left_lt ih

theorem bytes_lt_iff : bytes text < bytes other ↔ text < other := by
  refine ⟨fun less => ?_, bytes_lt_of_lt⟩
  by_contra notLess
  by_cases more : other < text
  · exact List.lt_asymm less (bytes_lt_of_lt more)
  · have same : text = other :=
      Std.Trichotomous.trichotomous (r := (· < · : List Char → List Char → Prop)) _ _ notLess more
    rw [same] at less
    exact List.lt_irrefl _ less

theorem toList_toByteArray (s : String) : s.toByteArray.data.toList = bytes s.toList := by
  rw [← String.utf8Encode_toList]
  exact List.toList_data_toByteArray

/-- Texts are in the order of their bytes. -/
theorem toByteArray_lt_iff :
    s.toByteArray.data.toList < t.toByteArray.data.toList ↔ s < t := by
  rw [toList_toByteArray, toList_toByteArray, bytes_lt_iff]
  rfl

end TomlSemantics
