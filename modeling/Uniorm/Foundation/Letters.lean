import Mathlib.Data.Char
import Mathlib.Tactic.Common

/-! # Upper and lower case

What folding does to the code of a character: the letters of one case move by 32,
and every other character stays.
-/
namespace Uniorm.Foundation

theorem toNat_toLower (c : Char) :
    c.toLower.toNat = if 65 ≤ c.toNat ∧ c.toNat ≤ 90 then c.toNat + 32 else c.toNat := by
  have hcode : ('A'.val ≤ c.val ∧ c.val ≤ 'Z'.val) ↔ 65 ≤ c.toNat ∧ c.toNat ≤ 90 := Iff.rfl
  delta Char.toLower
  by_cases h : 65 ≤ c.toNat ∧ c.toNat ≤ 90
  · rw [dif_pos (hcode.mpr h), if_pos h]
    simp only [← Char.toNat_val, UInt32.toNat_add] at h ⊢
    simp at h ⊢
    omega
  · rw [dif_neg (hcode.not.mpr h), if_neg h]

theorem toNat_toUpper (c : Char) :
    c.toUpper.toNat = if 97 ≤ c.toNat ∧ c.toNat ≤ 122 then c.toNat - 32 else c.toNat := by
  have hcode : ('a'.val ≤ c.val ∧ c.val ≤ 'z'.val) ↔ 97 ≤ c.toNat ∧ c.toNat ≤ 122 := Iff.rfl
  delta Char.toUpper
  by_cases h : 97 ≤ c.toNat ∧ c.toNat ≤ 122
  · rw [dif_pos (hcode.mpr h), if_pos h]
    simp only [← Char.toNat_val, UInt32.toNat_add] at h ⊢
    simp at h ⊢
    omega
  · rw [dif_neg (hcode.not.mpr h), if_neg h]

theorem lower_lower (c : Char) : c.toLower.toLower = c.toLower := by
  apply Char.toNat_inj.mp
  grind [toNat_toLower]

theorem lower_upper (c : Char) : c.toUpper.toLower = c.toLower := by
  apply Char.toNat_inj.mp
  grind [toNat_toLower, toNat_toUpper]

theorem upper_upper (c : Char) : c.toUpper.toUpper = c.toUpper := by
  apply Char.toNat_inj.mp
  grind [toNat_toLower, toNat_toUpper]

theorem upper_lower (c : Char) : c.toLower.toUpper = c.toUpper := by
  apply Char.toNat_inj.mp
  grind [toNat_toLower, toNat_toUpper]

/-- What is neither a letter nor the image of one is folded to alone. -/
theorem eq_of_toLower {c d : Char} (hd : d.toNat < 65) (h : c.toLower = d) : c = d := by
  apply Char.toNat_inj.mp
  have hcode := toNat_toLower c
  rw [h] at hcode
  split_ifs at hcode <;> omega

theorem eq_of_toUpper {c d : Char} (hd : d.toNat < 65) (h : c.toUpper = d) : c = d := by
  apply Char.toNat_inj.mp
  have hcode := toNat_toUpper c
  rw [h] at hcode
  split_ifs at hcode <;> omega

end Uniorm.Foundation
