import PackageAudit.Text.ModifiedUtf8
import Mathlib.Data.List.Lex
/-!
The order of texts and the order of their bytes.

Texts are ordered by code point. In UTF-8 the first byte of a character tells how many bytes it takes,
more bytes for greater characters, and characters of one length are written in base 64, greatest digit
first. So the bytes of two characters differ at some place, the lesser byte belongs to the lesser
character, and what stands behind them does not matter.
-/

namespace PackageAudit.Text

open String (utf8EncodeChar)

theorem utf8_eq_flatMap (text : String) : utf8 text = text.toList.flatMap utf8EncodeChar := by
  rw [utf8, ← String.ofList_toList (s := text), String.toByteArray_ofList, List.utf8Encode,
    List.data_toByteArray, String.toList_ofList]

theorem utf8EncodeChar_ne_nil (c : Char) : utf8EncodeChar c ≠ [] := by
  simp only [utf8EncodeChar]
  split_ifs <;> exact List.cons_ne_nil _ _

/-- A byte has room for its bits above the mark that tells what kind of byte it is. -/
private theorem marked_mod (bits mark size : Nat) (positive : 0 < bits) (room : bits + mark ≤ size)
    (n : Nat) : (n % bits + mark) % size = n % bits + mark := by
  have below := Nat.mod_lt n positive
  exact Nat.mod_eq_of_lt (by omega)

/-- The lesser character has the lesser bytes, whatever follows. -/
theorem utf8EncodeChar_append_lt {one other : Char} (less : one < other) (rest more : List UInt8) :
    utf8EncodeChar one ++ rest < utf8EncodeChar other ++ more := by
  have codes : one.val.toNat < other.val.toNat := UInt32.lt_iff_toNat_lt.mp less
  have bound : other.val.toNat < 1114112 := by
    have valid := other.valid
    simp only [UInt32.isValidChar, Nat.isValidChar] at valid
    change other.val.toNat < 55296 ∨ _ at valid
    omega
  have two (n : Nat) : n / 4096 = n / 64 / 64 := (Nat.div_div_eq_div_mul n 64 64).symm
  have three (n : Nat) : n / 262144 = n / 64 / 64 / 64 := by
    rw [← two, Nat.div_div_eq_div_mul]
  -- Of the pairs of lengths only those are possible in which the lesser character is no longer.
  simp only [utf8EncodeChar]
  split_ifs <;>
    simp only [List.cons_append, List.cons_lt_cons_iff, UInt8.lt_iff_toNat_lt, ← UInt8.toNat_inj,
      UInt8.toNat_ofNat', two, three,
      marked_mod 64 128 (2 ^ 8) (by decide) (by decide),
      marked_mod 32 192 (2 ^ 8) (by decide) (by decide),
      marked_mod 16 224 (2 ^ 8) (by decide) (by decide),
      marked_mod 8 240 (2 ^ 8) (by decide) (by decide)] <;> omega

private theorem flatMap_utf8EncodeChar_lt {one other : List Char} (less : one < other) :
    one.flatMap utf8EncodeChar < other.flatMap utf8EncodeChar := by
  induction less with
  | nil =>
    obtain ⟨first, bytes, encoded⟩ := List.exists_cons_of_ne_nil (utf8EncodeChar_ne_nil _)
    rw [List.flatMap_nil, List.flatMap_cons, encoded]
    exact List.nil_lt_cons _ _
  | rel less =>
    rw [List.flatMap_cons, List.flatMap_cons]
    exact utf8EncodeChar_append_lt less _ _
  | cons _ ih =>
    rw [List.flatMap_cons, List.flatMap_cons]
    exact List.append_left_lt ih

theorem utf8_lt_of_lt {one other : String} (less : one < other) : utf8 one < utf8 other := by
  rw [utf8_eq_flatMap, utf8_eq_flatMap]
  exact flatMap_utf8EncodeChar_lt less

end PackageAudit.Text
