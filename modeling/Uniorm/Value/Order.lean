import Uniorm.Value.Reading

/-! # The order of decimals and the integers among them

Two decimals are compared digit by digit on two alignments, the integer parts by
their lengths and the fractions with zeros behind them. Both are one comparison
of the numbers the digits write at the larger scale, so the order is that of the
exact values. The sum of an integer's digits is refused before it would wrap.
-/
namespace Uniorm.Value

open Foundation Sql

namespace Decimal

theorem compareRun_eq (a b : ℕ → ℕ) (count i : ℕ) : compareRun a b count i =
    compareDigits ((List.range' i count).map a) ((List.range' i count).map b) := by
  induction count generalizing i with
  | zero => rfl
  | succ count ih =>
    rw [compareRun, List.range'_succ, List.map_cons, List.map_cons, compareDigits, ih]
    by_cases heq : a i = b i
    · rw [if_neg (not_not.mpr heq), if_pos heq]
    · rw [if_pos heq, if_neg heq]

/-- The digits behind the point, `count` of them. -/
def padded (fraction : List ℕ) (count : ℕ) : List ℕ :=
  fraction ++ List.replicate (count - fraction.length) 0

theorem length_padded {fraction : List ℕ} {count : ℕ} (h : fraction.length ≤ count) :
    (padded fraction count).length = count := by
  rw [padded, List.length_append, List.length_replicate]
  omega

/-- Nothing is left of the zeros in front. -/
theorem Normal.integerFirst {d : Decimal} (h : d.Normal) : d.integerFirst = 0 := by
  rw [Decimal.integerFirst]
  cases hcount : d.integerLen - 1 with
  | zero => rfl
  | succ count =>
    have hlong : d.integerLen = count + 2 := by omega
    have hhead := h.integerPart_head (by omega)
    rw [← h.holds.map_integer, hlong, List.range_succ_eq_map, List.map_cons, List.head?_cons] at hhead
    have hdigit : d.digit 0 ≠ 0 := fun hzero => hhead (congrArg some hzero)
    rw [firstOf, if_neg hdigit]

/-- The number the digits write where `count` of them stand behind the point. -/
def scaled (d : Decimal) (count : ℕ) : ℕ := number 10 (d.integerPart ++ padded d.fractionPart count)

section Magnitude
variable {a b : Decimal} (ha : a.Normal) (hb : b.Normal)
include ha

theorem Normal.map_fractionDigit {count : ℕ} (hcount : a.scale ≤ count) :
    (List.range' 0 count).map a.fractionDigit = padded a.fractionPart count := by
  have hlength : a.fractionPart.length = a.scale := ha.holds.scale.symm
  apply List.ext_getElem
  · rw [length_padded (hlength.le.trans hcount), List.length_map, List.length_range']
  · intro k hk hk'
    rw [List.getElem_map, List.getElem_range', Nat.zero_add, Nat.one_mul, fractionDigit]
    simp only [padded, ← ha.holds.map_fraction]
    by_cases hlt : k < a.scale
    · rw [if_pos hlt, List.getElem_append_left (by rwa [List.length_map, List.length_range']),
        List.getElem_map, List.getElem_range', Nat.one_mul]
    · rw [if_neg hlt, List.getElem_append_right (by rw [List.length_map, List.length_range']; omega),
        List.getElem_replicate]

theorem Normal.isDigit_scaled (count : ℕ) :
    ∀ x ∈ a.integerPart ++ padded a.fractionPart count, x < 10 := by
  intro x hx
  rw [padded, ← List.append_assoc] at hx
  rcases List.mem_append.mp hx with hx | hx
  · rw [← ha.holds.used] at hx
    exact ha.isDigit x hx
  · rw [List.eq_of_mem_replicate hx]
    decide

theorem Normal.scaled_eq (count : ℕ) :
    a.scaled count = number 10 a.used * 10 ^ (count - a.scale) := by
  rw [scaled, padded, ← List.append_assoc, number_append_zeros, ← ha.holds.used, ha.holds.scale]

include hb

/-- The longer of two integer parts is the greater. -/
theorem Normal.scaled_lt {count : ℕ} (hcount : a.scale ≤ count) (hcount' : b.scale ≤ count)
    (hlt : a.integerLen < b.integerLen) : a.scaled count < b.scaled count := by
  have hlong : 1 < b.integerLen := Nat.lt_of_le_of_lt ha.integerLen_pos hlt
  apply number_lt_of_length (by decide) (ha.isDigit_scaled count)
  · rw [List.length_append, List.length_append, length_padded (ha.holds.scale.symm.le.trans hcount),
      length_padded (hb.holds.scale.symm.le.trans hcount'), ← ha.holds.integerLen,
      ← hb.holds.integerLen]
    omega
  · rw [List.head?_append_of_ne_nil _ hb.trimmed.1]
    exact hb.integerPart_head hlong

theorem Normal.compareMagnitude_eq : a.compareMagnitude b =
    compare (a.scaled (max a.scale b.scale)) (b.scaled (max a.scale b.scale)) := by
  have hleft := le_max_left a.scale b.scale
  have hright := le_max_right a.scale b.scale
  have hwhole : ∀ d : Decimal, d.Normal →
      (List.range' 0 d.integerLen).map (fun i => d.digit (0 + i)) = d.integerPart := by
    intro d hd
    rw [← hd.holds.map_integer, List.range_eq_range']
    simp only [Nat.zero_add]
  rw [compareMagnitude, ha.integerFirst, hb.integerFirst]
  simp only [Nat.sub_zero]
  by_cases hlen : a.integerLen = b.integerLen
  · have hlength : a.integerPart.length = b.integerPart.length := by
      rw [← ha.holds.integerLen, ← hb.holds.integerLen, hlen]
    have hlength' : (padded a.fractionPart (max a.scale b.scale)).length =
        (padded b.fractionPart (max a.scale b.scale)).length := by
      rw [length_padded (ha.holds.scale.symm.le.trans hleft),
        length_padded (hb.holds.scale.symm.le.trans hright)]
    rw [if_neg (not_not.mpr hlen), compareRun_eq, compareRun_eq, hwhole a ha, hlen, hwhole b hb,
      ha.map_fractionDigit hleft, hb.map_fractionDigit hright, scaled, scaled,
        ← compareDigits_eq (by decide) _
        (ha.isDigit_scaled _) (hb.isDigit_scaled _), compareDigits_append hlength, ite_not]
    rw [List.length_append, List.length_append, hlength, hlength']
  · rw [if_pos hlen]
    by_cases hlt : a.integerLen < b.integerLen
    · rw [if_pos hlt, compare_lt_iff_lt.mpr (ha.scaled_lt hb hleft hright hlt)]
    · have hgt : b.integerLen < a.integerLen := by omega
      rw [if_neg hlt, compare_gt_iff_gt.mpr (hb.scaled_lt ha hright hleft hgt)]

end Magnitude

/-- The value without its sign. -/
def magnitude (d : Decimal) : ℚ := number 10 d.used / 10 ^ d.scale

theorem value_eq (d : Decimal) : d.value = if d.negative then -d.magnitude else d.magnitude := by
  rw [value, magnitude]
  split_ifs
  · rw [neg_one_mul, neg_div]
  · rw [one_mul]

theorem magnitude_nonneg (d : Decimal) : 0 ≤ d.magnitude := by
  exact div_nonneg (Nat.cast_nonneg _) (pow_nonneg (by norm_num) _)

section Order
variable {a b : Decimal} (ha : a.Normal) (hb : b.Normal)
include ha

theorem Normal.magnitude_pos (hnegative : a.negative = true) : 0 < a.magnitude := by
  have hnumber : number 10 a.used ≠ 0 := by
    rw [Ne, number_eq_zero_iff (by decide)]
    push Not
    exact ha.noNegativeZero hnegative
  have hpos : (0 : ℚ) < number 10 a.used := Nat.cast_pos.mpr (Nat.pos_of_ne_zero hnumber)
  exact div_pos hpos (pow_pos (by norm_num) _)

theorem Normal.scaled_magnitude {count : ℕ} (hcount : a.scale ≤ count) :
    (a.scaled count : ℚ) = a.magnitude * 10 ^ count := by
  have hten : (10 : ℚ) ^ a.scale ≠ 0 := pow_ne_zero _ (by norm_num)
  have hsplit : (10 : ℚ) ^ count = 10 ^ a.scale * 10 ^ (count - a.scale) := by
    rw [← pow_add, Nat.add_sub_cancel' hcount]
  rw [ha.scaled_eq, magnitude, hsplit, ← mul_assoc, div_mul_cancel₀ _ hten]
  push_cast
  rfl

include hb

theorem Normal.compareMagnitude_magnitude : a.compareMagnitude b = compare a.magnitude b.magnitude := by
  have hten : (0 : ℚ) < 10 ^ max a.scale b.scale := by positivity
  have hleft := ha.scaled_magnitude (le_max_left a.scale b.scale)
  have hright := hb.scaled_magnitude (le_max_right a.scale b.scale)
  rw [ha.compareMagnitude_eq hb]
  rcases lt_trichotomy a.magnitude b.magnitude with hlt | heq | hgt
  · rw [compare_lt_iff_lt.mpr hlt, compare_lt_iff_lt, ← Nat.cast_lt (α := ℚ), hleft, hright]
    exact mul_lt_mul_of_pos_right hlt hten
  · rw [compare_eq_iff_eq.mpr heq, compare_eq_iff_eq, ← Nat.cast_inj (R := ℚ), hleft, hright, heq]
  · rw [compare_gt_iff_gt.mpr hgt, compare_gt_iff_gt, ← Nat.cast_lt (α := ℚ), hleft, hright]
    exact mul_lt_mul_of_pos_right hgt hten

theorem Normal.order_eq : a.order b = compare a.value b.value := by
  have hmagnitude := ha.compareMagnitude_magnitude hb
  rw [order, value_eq, value_eq]
  by_cases hsign : a.negative = b.negative
  · rw [if_neg (not_not.mpr hsign), ← hsign, hmagnitude]
    rcases lt_trichotomy a.magnitude b.magnitude with hlt | heq | hgt
    · rw [compare_lt_iff_lt.mpr hlt]
      cases a.negative
      · exact (compare_lt_iff_lt.mpr hlt).symm
      · exact (compare_gt_iff_gt.mpr (neg_lt_neg hlt)).symm
    · rw [compare_eq_iff_eq.mpr heq]
      cases a.negative
      · exact (compare_eq_iff_eq.mpr heq).symm
      · exact (compare_eq_iff_eq.mpr (congrArg Neg.neg heq)).symm
    · rw [compare_gt_iff_gt.mpr hgt]
      cases a.negative
      · exact (compare_gt_iff_gt.mpr hgt).symm
      · exact (compare_lt_iff_lt.mpr (neg_lt_neg hgt)).symm
  · -- a zero is never negative
    rw [if_pos hsign]
    cases hnegative : a.negative with
    | true =>
      have hother : b.negative = false := by
        rw [hnegative] at hsign
        exact Bool.eq_false_iff.mpr (Ne.symm hsign)
      rw [hother]
      have hneg : -a.magnitude < b.magnitude :=
        (neg_neg_of_pos (ha.magnitude_pos hnegative)).trans_le b.magnitude_nonneg
      exact (compare_lt_iff_lt.mpr hneg).symm
    | false =>
      have hother : b.negative = true := by
        rw [hnegative] at hsign
        exact Bool.eq_true_of_not_eq_false (Ne.symm hsign)
      rw [hother]
      have hneg : -b.magnitude < a.magnitude :=
        (neg_neg_of_pos (hb.magnitude_pos hother)).trans_le a.magnitude_nonneg
      exact (compare_gt_iff_gt.mpr hneg).symm

end Order

/-- The order of decimals that are read is the order of their values, and they are equal where these
are. -/
theorem order_eq_compare (a b : Decimal) (ha : a.Obtained) (hb : b.Obtained) :
    a.order b = compare a.value b.value ∧ (a.equal b = true ↔ a.value = b.value) := by
  have horder := ha.normal.order_eq hb.normal
  refine ⟨horder, ?_⟩
  rw [equal, beq_iff_eq, horder, compare_eq_iff_eq]

/-- The fractions are told apart by more than their scales. -/
theorem order_eq_compare_half : ∃ a b, fromLiteral "-1.50".toList = .ok a ∧
    fromLiteral "-1.5".toList = .ok b ∧ a.order b = compare a.value b.value ∧
      (a.equal b = true ↔ a.value = b.value) := by
  let l : Literal := ⟨.minus, [1], some [5, 0], by decide, by decide⟩
  let l' : Literal := ⟨.minus, [1], some [5], by decide, by decide⟩
  obtain ⟨a, hread, -⟩ := fromLiteral_ok l (by decide)
  obtain ⟨b, hread', -⟩ := fromLiteral_ok l' (by decide)
  exact ⟨a, b, hread, hread', order_eq_compare a b ⟨_, hread⟩ ⟨_, hread'⟩⟩

end Decimal

end Uniorm.Value
