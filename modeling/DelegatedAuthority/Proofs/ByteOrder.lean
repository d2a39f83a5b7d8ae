import DelegatedAuthority.Bytes
import Mathlib.Tactic.SplitIfs
/-!
Texts are in the order of their bytes.

UTF-8 keeps the order of code points: a character that takes more bytes has a greater first byte,
and of two that take the same number the first byte that differs decides.
-/
namespace DelegatedAuthority.Bytes

variable {c d : Char} {text other : String} {m n : Nat}

theorem ofText_eq_flatMap (text : String) :
    ofText text = text.toList.flatMap String.utf8EncodeChar := by
  rw [ofText, String.toUTF8, ← String.utf8Encode_toList, List.utf8Encode]
  simp

theorem toNat_val_lt (c : Char) : c.val.toNat < 0x110000 := by
  rcases c.valid with low | ⟨_, high⟩
  · exact Nat.lt_trans low (by decide)
  · exact high

theorem sextet_lt (h : m < n) : m / 64 < n / 64 ∨ m / 64 = n / 64 ∧ m % 64 < n % 64 := by
  omega

/-- Of the groups of six bits, the first one that differs decides. -/
theorem sextets_lt (h : m < n) :
    m / 4096 < n / 4096 ∨ m / 4096 = n / 4096 ∧
      (m / 64 % 64 < n / 64 % 64 ∨ m / 64 % 64 = n / 64 % 64 ∧ m % 64 < n % 64) := by
  rcases sextet_lt h with higher | ⟨same, lower⟩ <;> omega

theorem sextets_lt_of_four (h : m < n) :
    m / 262144 < n / 262144 ∨ m / 262144 = n / 262144 ∧
      (m / 4096 % 64 < n / 4096 % 64 ∨ m / 4096 % 64 = n / 4096 % 64 ∧
        (m / 64 % 64 < n / 64 % 64 ∨ m / 64 % 64 = n / 64 % 64 ∧ m % 64 < n % 64)) := by
  rcases sextets_lt h with higher | ⟨same, lower⟩ <;> omega

/-- The bytes of the lesser character come first, whatever is behind them. -/
theorem utf8EncodeChar_lt (h : c < d) (rest rest' : Bytes) :
    String.utf8EncodeChar c ++ rest < String.utf8EncodeChar d ++ rest' := by
  have lt : c.val.toNat < d.val.toNat := h
  have bound := toNat_val_lt d
  unfold String.utf8EncodeChar
  dsimp only
  generalize c.val.toNat = m at *
  generalize d.val.toNat = n at *
  have three := sextets_lt lt
  have four := sextets_lt_of_four lt
  -- one case for each pair of lengths; where the lengths differ, the first bytes do
  split_ifs <;>
    simp only [List.cons_append, List.nil_append, List.cons_lt_cons_iff, UInt8.lt_iff_toNat_lt,
      ← UInt8.toNat_inj, UInt8.toNat_ofNat'] <;>
    simp (disch := omega) only [Nat.mod_eq_of_lt] <;> omega

theorem ofText_lt (h : text < other) : ofText text < ofText other := by
  have lt : text.toList < other.toList := h
  rw [ofText_eq_flatMap, ofText_eq_flatMap]
  generalize text.toList = cs at *
  generalize other.toList = ds at *
  induction lt with
  | @nil d ds =>
    have some : String.utf8EncodeChar d ≠ [] := String.utf8EncodeChar_ne_nil
    obtain ⟨b, bytes, first⟩ := List.exists_cons_of_ne_nil some
    rw [List.flatMap_cons, first]
    exact List.nil_lt_cons b _
  | rel before => exact utf8EncodeChar_lt before _ _
  | cons _ ih => exact List.append_left_lt ih

end DelegatedAuthority.Bytes
