import Uniorm.Value.Order

/-! # The integers among the decimals

A decimal without a fraction is added up digit by digit in 64 bits without sign.
Each step is refused before it would wrap, so the sum is the number the digits
write, and one further limit keeps it within the signed range.
-/
namespace Uniorm.Value

open Foundation Sql

namespace Decimal

theorem toNat_digit {digit : ℕ} (h : digit < 10) : (UInt64.ofNat digit).toNat = digit :=
  UInt64.toNat_ofNat_of_lt' (h.trans (by decide))

/-- The guard tells that the next step would wrap. -/
theorem guard_iff (magnitude : UInt64) {digit : ℕ} (h : digit < 10) :
    (18446744073709551615 - UInt64.ofNat digit) / 10 < magnitude ↔
      2 ^ 64 ≤ magnitude.toNat * 10 + digit := by
  have hle : UInt64.ofNat digit ≤ 18446744073709551615 := by
    rw [UInt64.le_iff_toNat_le, toNat_digit h]
    change digit ≤ 18446744073709551615
    omega
  rw [UInt64.lt_iff_toNat_lt, UInt64.toNat_div, UInt64.toNat_sub_of_le _ _ hle, toNat_digit h]
  change (18446744073709551615 - digit) / 10 < magnitude.toNat ↔ _
  omega

theorem addDigit_ok (magnitude : UInt64) {digit : ℕ} (hdigit : digit < 10)
    (hfits : magnitude.toNat * 10 + digit < 2 ^ 64) : ∃ sum, addDigit magnitude digit = .ok sum ∧
      sum.toNat = magnitude.toNat * 10 + digit := by
  have hguard := (guard_iff magnitude hdigit).not.mpr (Nat.not_le_of_lt hfits)
  refine ⟨magnitude * 10 + UInt64.ofNat digit, if_neg hguard, ?_⟩
  rw [UInt64.toNat_add, UInt64.toNat_mul, toNat_digit hdigit]
  change (magnitude.toNat * 10 % 2 ^ 64 + digit) % 2 ^ 64 = _
  omega

theorem addDigit_error (magnitude : UInt64) {digit : ℕ} (hdigit : digit < 10)
    (hfits : 2 ^ 64 ≤ magnitude.toNat * 10 + digit) :
    ∃ what, addDigit magnitude digit = .error (.typeMismatch what) :=
  ⟨"decimal_t value is out of int64 range", if_pos ((guard_iff magnitude hdigit).mpr hfits)⟩

theorem ok_bind {α β : Type} (x : α) (f : α → Except Fault β) : (Except.ok x >>= f) = f x := rfl

/-- The sum of the digits is the number they write, or is refused where that does not fit. -/
theorem foldlM_addDigit {ds : List ℕ} (hdigits : ∀ d ∈ ds, d < 10) :
    (number 10 ds < 2 ^ 64 → ∃ sum, ds.foldlM addDigit 0 = .ok sum ∧ sum.toNat = number 10 ds) ∧
    (2 ^ 64 ≤ number 10 ds → ∃ what, ds.foldlM addDigit 0 = .error (.typeMismatch what)) := by
  induction ds using List.reverseRecOn with
  | nil =>
    refine ⟨fun _ => ⟨0, rfl, rfl⟩, fun h => ?_⟩
    have hnil : number 10 [] = 0 := number_nil
    omega
  | append_singleton ds d ih =>
    have hd : d < 10 := hdigits d (List.mem_append_right _ List.mem_cons_self)
    obtain ⟨hok, herror⟩ := ih fun x hx => hdigits x (List.mem_append_left _ hx)
    have hfold : (ds ++ [d]).foldlM addDigit 0 =
        (ds.foldlM addDigit 0 >>= fun sum => addDigit sum d) := by
      rw [List.foldlM_append]
      simp
    rw [hfold, number_concat]
    constructor
    · intro hlt
      obtain ⟨sum, hsum, hnat⟩ := hok (by omega)
      obtain ⟨sum', hadd, hnat'⟩ := addDigit_ok sum hd (by omega)
      refine ⟨sum', ?_, ?_⟩
      · rw [hsum, ok_bind, hadd]
      · rw [hnat', hnat]
    · intro hle
      by_cases hlt : number 10 ds < 2 ^ 64
      · obtain ⟨sum, hsum, hnat⟩ := hok hlt
        obtain ⟨what, hadd⟩ := addDigit_error sum hd (by omega)
        refine ⟨what, ?_⟩
        rw [hsum, ok_bind, hadd]
      · obtain ⟨what, hsum⟩ := herror (Nat.le_of_not_lt hlt)
        refine ⟨what, ?_⟩
        rw [hsum]
        rfl

theorem sum_exact {ds : List ℕ} (hdigits : ∀ d ∈ ds, d < 10) {sum : UInt64}
    (hsum : ds.foldlM addDigit 0 = .ok sum) : sum.toNat = number 10 ds := by
  obtain ⟨hok, herror⟩ := foldlM_addDigit hdigits
  by_cases hlt : number 10 ds < 2 ^ 64
  · obtain ⟨sum', hsum', hnat⟩ := hok hlt
    rw [hsum] at hsum'
    rw [Except.ok.inj hsum', hnat]
  · obtain ⟨what, hsum'⟩ := herror (Nat.le_of_not_lt hlt)
    rw [hsum] at hsum'
    cases hsum'

theorem toInt_signed {magnitude : UInt64} {negative : Bool}
    (hlimit : magnitude.toNat ≤ if negative then 2 ^ 63 else 2 ^ 63 - 1) :
    (if negative then (~~~magnitude + 1).toInt64 else magnitude.toInt64).toInt =
      if negative then -(magnitude.toNat : ℤ) else magnitude.toNat := by
  have hofNat : magnitude.toInt64 = Int64.ofNat magnitude.toNat := by
    rw [← UInt64.toInt64_ofNat', UInt64.ofNat_toNat]
  cases negative with
  | true =>
    rw [if_pos rfl, if_pos rfl, ← UInt64.neg_eq_not_add, UInt64.toInt64_neg, hofNat,
      Int64.toInt_neg_ofNat_of_le hlimit]
  | false =>
    rw [if_neg Bool.false_ne_true, if_neg Bool.false_ne_true, hofNat]
    apply Int64.toInt_ofNat_of_lt
    rw [if_neg Bool.false_ne_true] at hlimit
    omega

/-- The greatest sum that is returned with the sign. -/
def limitOf (negative : Bool) : ℕ := if negative then 2 ^ 63 else 2 ^ 63 - 1

def withSign (negative : Bool) (magnitude : UInt64) : Except Fault Int64 :=
  let limit : UInt64 := if negative then (1 : UInt64) <<< (63 : UInt64) else 9223372036854775807
  if limit < magnitude then throw (.typeMismatch "decimal_t value is out of int64 range")
  else pure (if negative then (~~~magnitude + 1).toInt64 else magnitude.toInt64)

theorem withSign_ok {magnitude : UInt64} {negative : Bool} (h : magnitude.toNat ≤ limitOf negative) :
    ∃ r, withSign negative magnitude = .ok r ∧
      r.toInt = if negative then -(magnitude.toNat : ℤ) else magnitude.toNat := by
  refine ⟨_, if_neg ?_, toInt_signed h⟩
  rw [UInt64.lt_iff_toNat_lt]
  cases negative
  · exact Nat.not_lt_of_le h
  · exact Nat.not_lt_of_le h

theorem withSign_error {magnitude : UInt64} {negative : Bool} (h : limitOf negative < magnitude.toNat) :
    ∃ what, withSign negative magnitude = .error (.typeMismatch what) := by
  refine ⟨"decimal_t value is out of int64 range", if_pos ?_⟩
  rw [UInt64.lt_iff_toNat_lt]
  cases negative
  · exact h
  · exact h

theorem toInt64_eq (d : Decimal) : d.toInt64 =
    if (List.range' d.integerLen d.scale).any (fun i => d.digit i != 0) then
      .error (.typeMismatch "decimal_t value has a fraction to drop")
    else ((List.range d.integerLen).map d.digit).foldlM addDigit 0 >>= withSign d.negative := by
  by_cases hany : (List.range' d.integerLen d.scale).any (fun i => d.digit i != 0) = true
  · rw [toInt64, if_pos hany, if_pos hany]
    rfl
  · rw [toInt64, if_neg hany, if_neg hany]
    rfl

section Exact
variable {d : Decimal} (h : d.Normal)
include h

theorem Normal.any_fraction :
    (List.range' d.integerLen d.scale).any (fun i => d.digit i != 0) = true ↔
      ∃ x ∈ d.fractionPart, x ≠ 0 := by
  rw [← h.holds.map_fraction]
  simp

theorem Normal.isDigit_integer : ∀ x ∈ d.integerPart, x < 10 := fun x hx =>
  h.isDigit x (List.mem_of_mem_take hx)

theorem Normal.isDigit_fraction : ∀ x ∈ d.fractionPart, x < 10 := fun x hx =>
  h.isDigit x (List.mem_of_mem_drop hx)

theorem Normal.magnitude_split : d.magnitude =
    number 10 d.integerPart + (number 10 d.fractionPart : ℚ) / 10 ^ d.scale := by
  have hten : (10 : ℚ) ^ d.scale ≠ 0 := pow_ne_zero _ (by norm_num)
  rw [magnitude, h.holds.used, number_append, ← h.holds.scale]
  push_cast
  rw [add_div, mul_div_cancel_right₀ _ hten]

/-- A fraction that is not zero lies between two integers. -/
theorem Normal.value_ne_intCast (hfraction : ∃ x ∈ d.fractionPart, x ≠ 0) (v : ℤ) : d.value ≠ v := by
  have hnumber : number 10 d.fractionPart ≠ 0 := by
    rw [Ne, number_eq_zero_iff (by decide)]
    push Not
    exact hfraction
  have hlt := number_lt (b := 10) (by decide) h.isDigit_fraction
  rw [← h.holds.scale] at hlt
  have hten : (0 : ℚ) < 10 ^ d.scale := pow_pos (by norm_num) _
  have hbetween : ∀ w : ℤ, d.magnitude ≠ w := by
    intro w hw
    rw [h.magnitude_split] at hw
    have hpos : (0 : ℚ) < number 10 d.fractionPart / 10 ^ d.scale :=
      div_pos (Nat.cast_pos.mpr (Nat.pos_of_ne_zero hnumber)) hten
    have hless : (number 10 d.fractionPart : ℚ) / 10 ^ d.scale < 1 := by
      rw [div_lt_one₀ hten]
      exact_mod_cast hlt
    have hlow : ((number 10 d.integerPart : ℤ) : ℚ) < w := by
      rw [← hw]
      push_cast
      linarith
    have hhigh : (w : ℚ) < ((number 10 d.integerPart + 1 : ℤ) : ℚ) := by
      rw [← hw]
      push_cast
      linarith
    have hlow' := Int.cast_lt.mp hlow
    have hhigh' := Int.cast_lt.mp hhigh
    omega
  intro hv
  rw [value_eq] at hv
  split_ifs at hv
  · apply hbetween (-v)
    rw [Int.cast_neg, ← hv, neg_neg]
  · exact hbetween v hv

theorem Normal.value_eq_intCast (hfraction : ¬ ∃ x ∈ d.fractionPart, x ≠ 0) : d.value =
    ((if d.negative then -(number 10 d.integerPart : ℤ) else number 10 d.integerPart : ℤ) : ℚ) := by
  have hnumber : number 10 d.fractionPart = 0 := by
    rw [number_eq_zero_iff (by decide)]
    push Not at hfraction
    exact hfraction
  have hmagnitude : d.magnitude = number 10 d.integerPart := by
    rw [h.magnitude_split, hnumber, Nat.cast_zero, zero_div, add_zero]
  rw [value_eq, hmagnitude]
  split_ifs
  · push_cast
    rfl
  · push_cast
    rfl

theorem Normal.toInt64_sum (hfraction : ¬ ∃ x ∈ d.fractionPart, x ≠ 0) :
    (number 10 d.integerPart ≤ limitOf d.negative → ∃ r, d.toInt64 = .ok r ∧ r.toInt =
      if d.negative then -(number 10 d.integerPart : ℤ) else number 10 d.integerPart) ∧
    (limitOf d.negative < number 10 d.integerPart →
      ∃ what, d.toInt64 = .error (.typeMismatch what)) := by
  have hlimit : limitOf d.negative < 2 ^ 64 := by
    rw [limitOf]
    split_ifs
    · norm_num
    · norm_num
  have heq := toInt64_eq d
  rw [if_neg (h.any_fraction.not.mpr hfraction), h.holds.map_integer] at heq
  obtain ⟨hok, herror⟩ := foldlM_addDigit h.isDigit_integer
  constructor
  · intro hle
    obtain ⟨sum, hsum, hnat⟩ := hok (Nat.lt_of_le_of_lt hle hlimit)
    rw [← hnat] at hle
    obtain ⟨r, hr, hvalue⟩ := withSign_ok hle
    rw [hnat] at hvalue
    rw [hsum, ok_bind, hr] at heq
    exact ⟨r, heq, hvalue⟩
  · intro hlt
    by_cases hfits : number 10 d.integerPart < 2 ^ 64
    · obtain ⟨sum, hsum, hnat⟩ := hok hfits
      rw [← hnat] at hlt
      obtain ⟨what, hr⟩ := withSign_error hlt
      rw [hsum, ok_bind, hr] at heq
      exact ⟨what, heq⟩
    · obtain ⟨what, hsum⟩ := herror (Nat.le_of_not_lt hfits)
      rw [hsum] at heq
      exact ⟨what, heq⟩

end Exact

def InRange (v : ℤ) : Prop := -2 ^ 63 ≤ v ∧ v ≤ 2 ^ 63 - 1

theorem le_limitOf_iff (n : ℕ) (negative : Bool) :
    n ≤ limitOf negative ↔ InRange (if negative then -(n : ℤ) else n) := by
  rw [InRange, limitOf]
  cases negative
  · rw [if_neg Bool.false_ne_true, if_neg Bool.false_ne_true]
    omega
  · rw [if_pos rfl, if_pos rfl]
    omega

/-- The integer a decimal is comes back where it is in the range, anything else is refused, and what
has been summed up of the digits is at each of them the number they write. -/
theorem toInt64_exact (d : Decimal) (h : d.Obtained) :
    (∀ v : ℤ, (∃ r, d.toInt64 = .ok r ∧ r.toInt = v) ↔ d.value = v ∧ InRange v) ∧
    ((¬ ∃ v : ℤ, d.value = v ∧ InRange v) → ∃ what, d.toInt64 = .error (.typeMismatch what)) ∧
    ∀ k sum, (((List.range d.integerLen).map d.digit).take k).foldlM addDigit 0 = .ok sum →
      sum.toNat = number 10 (((List.range d.integerLen).map d.digit).take k) := by
  have hnormal := h.normal
  refine and_assoc.mp ⟨?_, ?_⟩
  · by_cases hfraction : ∃ x ∈ d.fractionPart, x ≠ 0
    · -- a fraction is refused, and it is no integer
      have herror := toInt64_eq d
      rw [if_pos (hnormal.any_fraction.mpr hfraction)] at herror
      refine ⟨fun v => ⟨?_, ?_⟩, fun _ => ⟨_, herror⟩⟩
      · rintro ⟨r, hok, -⟩
        rw [herror] at hok
        cases hok
      · rintro ⟨hvalue, -⟩
        exact absurd hvalue (hnormal.value_ne_intCast hfraction v)
    · have hinteger := hnormal.value_eq_intCast hfraction
      obtain ⟨hok, herror⟩ := hnormal.toInt64_sum hfraction
      by_cases hle : number 10 d.integerPart ≤ limitOf d.negative
      · obtain ⟨r, hr, hvalue⟩ := hok hle
        have hrange := (le_limitOf_iff _ _).mp hle
        rw [← hvalue] at hrange hinteger
        refine ⟨fun v => ⟨?_, ?_⟩, fun hnone => absurd ⟨r.toInt, hinteger, hrange⟩ hnone⟩
        · rintro ⟨r', hok', rfl⟩
          rw [hr] at hok'
          obtain rfl := Except.ok.inj hok'
          exact ⟨hinteger, hrange⟩
        · rintro ⟨hv, -⟩
          rw [hinteger] at hv
          exact ⟨r, hr, Int.cast_injective hv⟩
      · obtain ⟨what, hwhat⟩ := herror (Nat.lt_of_not_le hle)
        refine ⟨fun v => ⟨?_, ?_⟩, fun _ => ⟨what, hwhat⟩⟩
        · rintro ⟨r, hr, -⟩
          rw [hwhat] at hr
          cases hr
        · rintro ⟨hv, hrange⟩
          rw [hinteger] at hv
          rw [← Int.cast_injective hv] at hrange
          exact absurd ((le_limitOf_iff _ _).mpr hrange) hle
  · intro k sum hsum
    apply sum_exact ?_ hsum
    rw [hnormal.holds.map_integer]
    exact fun x hx => hnormal.isDigit_integer x (List.mem_of_mem_take hx)

/-- The least number of 64 bits with sign, with a fraction of zeros. -/
theorem toInt64_least : ∃ d, fromLiteral "-9223372036854775808.0".toList = .ok d ∧
    (∀ v : ℤ, (∃ r, d.toInt64 = .ok r ∧ r.toInt = v) ↔ d.value = v ∧ InRange v) ∧
    ((¬ ∃ v : ℤ, d.value = v ∧ InRange v) → ∃ what, d.toInt64 = .error (.typeMismatch what)) ∧
    ∀ k sum, (((List.range d.integerLen).map d.digit).take k).foldlM addDigit 0 = .ok sum →
      sum.toNat = number 10 (((List.range d.integerLen).map d.digit).take k) := by
  let l : Literal :=
    ⟨.minus, [9, 2, 2, 3, 3, 7, 2, 0, 3, 6, 8, 5, 4, 7, 7, 5, 8, 0, 8], some [0], by decide, by decide⟩
  obtain ⟨d, hread, -⟩ := fromLiteral_ok l (by decide)
  exact ⟨d, hread, toInt64_exact d ⟨_, hread⟩⟩

end Decimal

end Uniorm.Value
