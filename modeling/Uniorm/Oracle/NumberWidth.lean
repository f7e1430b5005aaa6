import Uniorm.Foundation.Digits
import Uniorm.Oracle.Fetch

/-! # The width of a number's text

A NUMBER of a precision and a scale is an integer of so many digits with its
point moved to the left. The width that a text is staged with is compared with
every plain way to write such a number.
-/
namespace Uniorm.Oracle

open Foundation

/-- A plain decimal: a sign, digits in front of the point, the point and digits behind it. -/
structure PlainDecimal where
  negative : Bool
  whole : List ℕ
  point : Bool
  fraction : List ℕ
  deriving DecidableEq, Repr

namespace PlainDecimal

def sign (d : PlainDecimal) : List UInt8 := if d.negative then [45] else []

def digitText (digits : List ℕ) : List UInt8 := digits.map fun digit => UInt8.ofNat (48 + digit)

def fractionText (d : PlainDecimal) : List UInt8 :=
  if d.point then 46 :: digitText d.fraction else []

def text (d : PlainDecimal) : List UInt8 := d.sign ++ digitText d.whole ++ d.fractionText

/-- The decimal writes `m` with its point moved by the scale. A zero in front of the point may be
there or not, zeros at the end of the fraction may be left out, and with all of them the point. -/
structure Spells (d : PlainDecimal) (m : ℤ) (scale : ℕ) : Prop where
  digits : ∀ digit ∈ d.whole ++ d.fraction, digit < 10
  nonempty : d.whole ++ d.fraction ≠ []
  leading : 1 < d.whole.length → d.whole.head? ≠ some 0
  short : d.fraction.length ≤ scale
  pointed : d.point = true → 0 < scale
  unpointed : d.point = false → d.fraction = []
  value : m = (if d.negative then -1 else 1) *
    (number 10 (d.whole ++ d.fraction) * 10 ^ (scale - d.fraction.length) : ℕ)

variable {d : PlainDecimal} {m : ℤ} {precision scale : ℕ}

theorem Spells.natAbs (h : d.Spells m scale) :
    m.natAbs = number 10 (d.whole ++ d.fraction) * 10 ^ (scale - d.fraction.length) := by
  rw [h.value, Int.natAbs_mul, Int.natAbs_natCast]
  cases d.negative <;> simp

/-- More than one digit in front of the point is as much as the number is worth. -/
theorem Spells.le_natAbs (h : d.Spells m scale) (hlong : 1 < d.whole.length) :
    10 ^ (d.whole.length - 1 + scale) ≤ m.natAbs := by
  obtain ⟨first, more, hwhole⟩ : ∃ first more, d.whole = first :: more := by
    cases hwhole : d.whole with
    | nil => simp [hwhole] at hlong
    | cons first more => exact ⟨first, more, rfl⟩
  have hfirst : 1 ≤ first := by
    have hne := h.leading hlong
    rw [hwhole, List.head?_cons] at hne
    exact Nat.one_le_iff_ne_zero.mpr fun hzero => hne (by rw [hzero])
  have hlength : d.whole.length - 1 = more.length := by
    rw [hwhole]
    rfl
  have hnumber : 10 ^ more.length * 10 ^ d.fraction.length ≤ number 10 (d.whole ++ d.fraction) := by
    rw [number_append, hwhole, number_cons]
    have hhead : 10 ^ more.length ≤ first * 10 ^ more.length + number 10 more := by
      calc 10 ^ more.length = 1 * 10 ^ more.length := (Nat.one_mul _).symm
        _ ≤ first * 10 ^ more.length := Nat.mul_le_mul_right _ hfirst
        _ ≤ _ := Nat.le_add_right _ _
    exact (Nat.mul_le_mul_right _ hhead).trans (Nat.le_add_right _ _)
  calc 10 ^ (d.whole.length - 1 + scale)
      = 10 ^ more.length * 10 ^ d.fraction.length * 10 ^ (scale - d.fraction.length) := by
        rw [hlength, Nat.mul_assoc, ← Nat.pow_add, Nat.add_sub_cancel' h.short, Nat.pow_add]
    _ ≤ number 10 (d.whole ++ d.fraction) * 10 ^ (scale - d.fraction.length) :=
        Nat.mul_le_mul_right _ hnumber
    _ = m.natAbs := h.natAbs.symm

/-- As many digits in front of the point as the precision has beyond the scale, and one at least. -/
theorem Spells.whole_le (h : d.Spells m scale) (hm : m.natAbs < 10 ^ precision) :
    d.whole.length ≤ max 1 (precision - scale) := by
  by_cases hlong : 1 < d.whole.length
  · have hlt := (h.le_natAbs hlong).trans_lt hm
    have hexponent := (Nat.pow_lt_pow_iff_right (by decide : 1 < 10)).mp hlt
    omega
  · omega

theorem length_text (d : PlainDecimal) : d.text.length =
    (if d.negative then 1 else 0) + d.whole.length +
      if d.point then d.fraction.length + 1 else 0 := by
  unfold text sign fractionText digitText
  split_ifs <;> simp <;> omega

theorem Spells.length_le (h : d.Spells m scale) (hm : m.natAbs < 10 ^ precision) :
    d.text.length ≤ 1 + max 1 (precision - scale) + if 0 < scale then 1 + scale else 0 := by
  have hwhole := h.whole_le hm
  have hshort := h.short
  have hfraction : (if d.point then d.fraction.length + 1 else 0) ≤
      if 0 < scale then 1 + scale else 0 := by
    cases hpoint : d.point with
    | false => exact Nat.zero_le _
    | true =>
      have hscale := h.pointed hpoint
      rw [if_pos rfl, if_pos hscale]
      omega
  rw [length_text]
  split_ifs at hfraction ⊢ <;> omega

end PlainDecimal

theorem numberTextWidth_eq {column : DescribedColumn} (hprecision : 1 ≤ column.precision)
    (hscale : 0 ≤ column.scale) : numberTextWidth column =
      1 + max 1 (column.precision.toNat - column.scale.toNat) +
        if 0 < column.scale.toNat then 1 + column.scale.toNat else 0 := by
  rw [numberTextWidth, if_neg (by omega)]
  simp only
  split_ifs <;> omega

/-- The text of a number fits into its width, so it is staged whole wherever a text of its length
can be: OCI stages none beyond its widest define, and no column can be declared that wide. -/
theorem number_text_fits {column : DescribedColumn} {m : ℤ} {d : PlainDecimal}
    (hprecision : 1 ≤ column.precision) (hscale : 0 ≤ column.scale)
    (hm : |m| < 10 ^ column.precision.toNat) (h : d.Spells m column.scale.toNat) :
    d.text.length ≤ numberTextWidth column ∧
    (column.dty = .num → ∀ capacity,
      (d.text.length ≤ maxScalarWidth ∨ column.precision ≤ 38 ∧ column.scale ≤ 127) →
        stagedLength (stageWidth column capacity) d.text.length = d.text.length) := by
  have habs : m.natAbs < 10 ^ column.precision.toNat := by
    zify
    exact hm
  have hwidth : d.text.length ≤ numberTextWidth column := by
    rw [numberTextWidth_eq hprecision hscale]
    exact h.length_le habs
  refine ⟨hwidth, fun hdty capacity hfits => ?_⟩
  have hscalar : d.text.length ≤ maxScalarWidth := by
    rcases hfits with hfits | ⟨hp, hs⟩
    · exact hfits
    · refine hwidth.trans ?_
      rw [numberTextWidth_eq hprecision hscale, maxScalarWidth]
      split_ifs <;> omega
  have hstage : stageWidth column capacity = min (numberTextWidth column) maxScalarWidth := by
    rw [stageWidth, hdty]
    rfl
  rw [stagedLength, hstage, if_neg]
  exact Nat.not_lt.mpr (le_min hwidth hscalar)

/-- A value below one with all its digits behind the point. -/
theorem number_text_fits_below_one : (PlainDecimal.mk true [0] true [0, 0, 4, 2]).text.length ≤
    numberTextWidth ⟨.num, 22, 3, 4⟩ := by
  have hspells : (PlainDecimal.mk true [0] true [0, 0, 4, 2]).Spells (-42) 4 :=
    ⟨by decide, by decide, by decide, by decide, by decide, by decide, by decide⟩
  exact (@number_text_fits ⟨.num, 22, 3, 4⟩ (-42) _ (by decide) (by decide) (by decide) hspells).1

end Uniorm.Oracle
