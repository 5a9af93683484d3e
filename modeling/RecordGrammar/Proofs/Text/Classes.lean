import Mathlib
import RecordGrammar.Text.Rest

/-!
# Classes of characters as ranges
-/

namespace RecordGrammar

theorem char_le_iff {a c : Char} : a ≤ c ↔ a.toNat ≤ c.toNat := UInt32.le_iff_toNat_le

theorem char_lt_iff {a c : Char} : a < c ↔ a.toNat < c.toNat := UInt32.lt_iff_toNat_lt

theorem char_eq_iff {a c : Char} : a = c ↔ a.toNat = c.toNat := Char.toNat_inj.symm

theorem isUpper_iff {c : Char} : c.isUpper = true ↔ 'A' ≤ c ∧ c ≤ 'Z' := by
  simp [Char.isUpper, char_le_iff, UInt32.le_iff_toNat_le, ← Char.toNat_val]

theorem isUpper_iff_toNat {c : Char} : c.isUpper = true ↔ 0x41 ≤ c.toNat ∧ c.toNat ≤ 0x5A :=
  isUpper_iff.trans (and_congr char_le_iff char_le_iff)

theorem isLower_iff {c : Char} : c.isLower = true ↔ 'a' ≤ c ∧ c ≤ 'z' := by
  simp [Char.isLower, char_le_iff, UInt32.le_iff_toNat_le, ← Char.toNat_val]

theorem isDigit_iff {c : Char} : c.isDigit = true ↔ '0' ≤ c ∧ c ≤ '9' := by
  simp [Char.isDigit, char_le_iff, UInt32.le_iff_toNat_le, ← Char.toNat_val]

theorem isHexDigit_iff {c : Char} :
    Text.isHexDigit c = true ↔ ('0' ≤ c ∧ c ≤ '9') ∨ ('a' ≤ c ∧ c ≤ 'f') ∨ ('A' ≤ c ∧ c ≤ 'F') := by
  simp only [Text.isHexDigit, Text.hexValue?, Bool.and_eq_true, decide_eq_true_eq]
  split
  · next h => simp [h]
  · next h =>
    split
    · next h' => simp [h']
    · next h' =>
      split
      · next h'' => simp [h'']
      · next h'' => simp [h, h', h'']

end RecordGrammar
