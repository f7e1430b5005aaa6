import Uniorm.Value.Accepted

/-! # Reading a decimal and writing it back

The texts that are read are the literals with room for every digit they write;
the array holds the value of the literal, and what is written from it is read as
the same decimal.
-/
namespace Uniorm.Value

open Foundation Sql Decimal

namespace Decimal

/-- The texts read are the literals that keep no more digits than the array has, and any other is
refused as a mismatch of types, with no access outside the array. -/
structure AcceptsByKept (text : Text) : Prop where
  accepts : (∃ d, fromLiteral text = .ok d) ↔ ∃ l : Literal, l.text = text ∧ l.kept ≤ maxDigits
  refuses : (∀ d, fromLiteral text ≠ .ok d) → ∃ what, fromLiteral text = .error (.typeMismatch what)
  inside : fromLiteral text ≠ .error .outside

theorem ok_or_mismatch (text : Text) : (∃ d, fromLiteral text = .ok d) ∨
    ∃ what, fromLiteral text = .error (.typeMismatch what) := by
  rcases fromLiteral_cases text with ⟨l, rfl, hroom⟩ | herror
  · obtain ⟨d, hread, -⟩ := fromLiteral_ok l hroom
    exact .inl ⟨d, hread⟩
  · exact .inr herror

/-- A digit in front of the integer part counts against the limit before it is dropped. -/
theorem acceptsByKept_iff (text : Text) : AcceptsByKept text ↔
    ∀ l : Literal, l.text = text → l.kept ≤ maxDigits → l.written ≤ maxDigits := by
  constructor
  · intro h l htext hkept
    by_contra hlong
    obtain ⟨what, herror⟩ := fromLiteral_error l (Nat.lt_of_not_le hlong)
    obtain ⟨d, hread⟩ := h.accepts.mpr ⟨l, htext, hkept⟩
    rw [htext, hread] at herror
    cases herror
  · intro h
    have hdecided := ok_or_mismatch text
    constructor
    · constructor
      · rintro ⟨d, hread⟩
        obtain ⟨l, htext, hfrom⟩ := readFrom_of_ok hread
        exact ⟨l, htext, l.kept_le_written.trans hfrom.fits⟩
      · rintro ⟨l, rfl, hkept⟩
        obtain ⟨d, hread, -⟩ := fromLiteral_ok l (h l rfl hkept)
        exact ⟨d, hread⟩
    · intro hnone
      exact hdecided.resolve_left fun ⟨d, hread⟩ => hnone d hread
    · intro houtside
      rcases hdecided with ⟨d, hread⟩ | ⟨what, herror⟩
      · rw [houtside] at hread
        cases hread
      · rw [houtside] at herror
        cases herror

/-- A zero in front of as many digits as the array has. -/
theorem zeroAndOnes_not_acceptsByKept : ¬ AcceptsByKept ('0' :: List.replicate 78 '1') := by
  intro h
  let l : Literal := ⟨.absent, 0 :: List.replicate 78 1, none, by decide, by decide⟩
  have htext : l.text = '0' :: List.replicate 78 '1' := by decide
  have hkept : l.kept ≤ maxDigits := by decide
  have hwritten : maxDigits < l.written := by decide
  exact absurd ((acceptsByKept_iff _).mp h l htext hkept) (Nat.not_le_of_lt hwritten)

section Holds
variable {d : Decimal} {integer fraction : List ℕ} (h : Holds d integer fraction)
include h

theorem Holds.integerLen : d.integerLen = integer.length := by
  rw [Decimal.integerLen, h.len, h.scale, List.length_append, Nat.add_sub_cancel]

theorem Holds.map_digit (count first : ℕ) (hle : first + count ≤ d.len) :
    (List.range' first count).map d.digit = ((integer ++ fraction).drop first).take count := by
  have hdigits : d.len ≤ d.digits.toList.length := by
    have hlength := congrArg List.length h.used
    rw [Decimal.used, List.length_take, ← h.len] at hlength
    exact min_eq_left_iff.mp hlength
  rw [← h.used, Decimal.used]
  apply List.ext_getElem
  · simp only [List.length_map, List.length_range', List.length_take, List.length_drop]
    omega
  · intro k hk hk'
    rw [List.length_map, List.length_range'] at hk
    have hlt : first + k < d.digits.toList.length := by omega
    simp only [List.getElem_map, List.getElem_range', Nat.one_mul, digit, List.getD_eq_getElem?_getD,
      List.getElem?_eq_getElem hlt, Option.getD_some, List.getElem_take, List.getElem_drop]

theorem Holds.map_integer : (List.range d.integerLen).map d.digit = integer := by
  have hle : 0 + d.integerLen ≤ d.len := by
    rw [Nat.zero_add]
    exact Nat.sub_le _ _
  rw [List.range_eq_range', h.map_digit _ _ hle, h.integerLen, List.drop_zero, List.take_left]

theorem Holds.map_fraction : (List.range' d.integerLen d.scale).map d.digit = fraction := by
  have hle : d.integerLen + d.scale ≤ d.len := by
    rw [h.integerLen, h.scale, h.len, List.length_append]
  rw [h.map_digit _ _ hle, h.integerLen, List.drop_left, List.take_of_length_le h.scale.ge]

theorem Holds.toLiteral : d.toLiteral = (if d.negative then ['-'] else []) ++
    (integer.map digitChar ++ if fraction = [] then [] else '.' :: fraction.map digitChar) := by
  have hinteger : (List.range d.integerLen).map (fun i => digitChar (d.digit i)) =
      integer.map digitChar := by
    conv_rhs => rw [← h.map_integer, List.map_map]
    rfl
  have hfraction : (List.range' d.integerLen d.scale).map (fun i => digitChar (d.digit i)) =
      fraction.map digitChar := by
    conv_rhs => rw [← h.map_fraction, List.map_map]
    rfl
  rw [Decimal.toLiteral, hinteger, hfraction, List.append_assoc]
  congr 2
  have hscale := h.scale
  by_cases hnil : fraction = []
  · subst hnil
    rw [if_pos rfl, if_neg (by rw [hscale]; exact lt_irrefl 0)]
  · rw [if_neg hnil, if_pos (by rw [hscale]; exact List.length_pos_iff.mpr hnil)]

theorem Holds.value : d.value = (if d.negative then -1 else 1) *
    number 10 (integer ++ fraction) / 10 ^ fraction.length := by
  rw [Decimal.value, h.used, h.scale]

end Holds

def integerPart (d : Decimal) : List ℕ := d.used.take d.integerLen

def fractionPart (d : Decimal) : List ℕ := d.used.drop d.integerLen

def Trimmed (digits : List ℕ) : Prop := digits ≠ [] ∧ trimZeros digits = digits

theorem trimmed_trimZeros {digits : List ℕ} (h : digits ≠ []) : Trimmed (trimZeros digits) :=
  ⟨trimZeros_ne_nil h, trimZeros_of_head trimZeros_head⟩

section Normal
variable {d : Decimal}

theorem Normal.length_used (h : d.Normal) : d.used.length = d.len := by
  rw [used, List.length_take, length_digits, min_eq_left h.fits]

theorem Normal.holds (h : d.Normal) : Holds d d.integerPart d.fractionPart := by
  have happend : d.integerPart ++ d.fractionPart = d.used := List.take_append_drop _ _
  refine ⟨happend.symm, ?_, ?_⟩
  · rw [happend, h.length_used]
  · have hscale := h.scale
    rw [fractionPart, List.length_drop, h.length_used, Decimal.integerLen]
    omega

theorem Normal.integerLen_pos (h : d.Normal) : 0 < d.integerLen := Nat.sub_pos_of_lt h.scale

theorem Normal.integerPart_head (h : d.Normal) (hlong : 1 < d.integerLen) :
    d.integerPart.head? ≠ some 0 := by
  rw [integerPart, List.head?_take, if_neg h.integerLen_pos.ne']
  exact h.noLeadingZero hlong

theorem Normal.trimmed (h : d.Normal) : Trimmed d.integerPart := by
  have hlength : d.integerPart.length = d.integerLen := h.holds.integerLen.symm
  constructor
  · exact List.ne_nil_of_length_pos (hlength.symm ▸ h.integerLen_pos)
  · apply trimZeros_of_head
    rw [hlength]
    exact h.integerPart_head

theorem Holds.normal {integer fraction : List ℕ} (h : Holds d integer fraction)
    (htrimmed : Trimmed integer) (hfits : (integer ++ fraction).length ≤ maxDigits)
    (hdigits : ∀ x ∈ integer ++ fraction, x < 10)
    (hsign : d.negative = true → ∃ x ∈ integer ++ fraction, x ≠ 0) : d.Normal := by
  have hpos : 0 < integer.length := List.length_pos_iff.mpr htrimmed.1
  have hlen := h.len
  have hscale := h.scale
  rw [List.length_append] at hlen
  constructor
  · omega
  · rwa [h.len]
  · omega
  · rwa [h.used]
  · rw [h.integerLen, h.used, List.head?_append_of_ne_nil _ htrimmed.1, ← htrimmed.2]
    exact trimZeros_head
  · rwa [h.used]

end Normal

theorem normal_default : Normal {} := by
  have hholds : Holds {} [0] [] := ⟨rfl, rfl, rfl⟩
  exact hholds.normal ⟨List.cons_ne_nil _ _, rfl⟩ (by decide) (by decide) (by decide)

end Decimal

namespace Literal

variable (l : Literal)

theorem trimmed : Trimmed l.integer := trimmed_trimZeros (integerOf_ne_nil _)

theorem isDigit_kept : ∀ x ∈ l.integer ++ l.decimals, x < 10 := by
  have hinteger : ∀ x ∈ integerOf l.whole, x < 10 := by
    rw [integerOf]
    split_ifs
    · decide
    · exact fun x hx => l.isDigit x (List.mem_append_left _ hx)
  obtain ⟨k, hk⟩ := trimZeros_eq (integerOf l.whole)
  intro x hx
  rcases List.mem_append.mp hx with hx | hx
  · refine hinteger x ?_
    rw [hk]
    exact List.mem_append_right _ hx
  · exact l.isDigit x (List.mem_append_right _ hx)

theorem isZero_iff : l.IsZero ↔ ∀ x ∈ l.integer ++ l.decimals, x = 0 := by
  rw [IsZero, ← number_eq_zero_iff (b := 10) (by decide), ← number_kept,
    number_eq_zero_iff (by decide)]

end Literal

namespace Decimal

section ReadFrom
variable {d : Decimal} {l : Literal}

theorem ReadFrom.negative_iff (h : d.ReadFrom l) : d.negative = true ↔ l.sign = .minus ∧ ¬ l.IsZero := by
  simp [h.negative]

theorem ReadFrom.normal (h : d.ReadFrom l) : d.Normal := by
  apply h.holds.normal l.trimmed (l.kept_le_written.trans h.fits) l.isDigit_kept
  intro hnegative
  have hnonzero := (h.negative_iff.mp hnegative).2
  rw [l.isZero_iff] at hnonzero
  push Not at hnonzero
  exact hnonzero

theorem ReadFrom.value (h : d.ReadFrom l) : d.value = l.value := by
  rw [h.holds.value, Literal.value, number_kept]
  by_cases hzero : l.IsZero
  · have hnumber : number 10 (l.whole ++ l.decimals) = 0 := (number_eq_zero_iff (by decide)).mpr hzero
    rw [hnumber, Nat.cast_zero, mul_zero, mul_zero]
  · have hsign : d.negative = true ↔ l.sign = .minus := h.negative_iff.trans (and_iff_left hzero)
    simp only [hsign]

theorem ReadFrom.toLiteral (h : d.ReadFrom l) : d.toLiteral = l.canonicalText := by
  rw [h.holds.toLiteral, Literal.canonicalText, Literal.unsignedText]
  simp only [h.negative_iff]

end ReadFrom

theorem Obtained.normal {d : Decimal} (h : d.Obtained) : d.Normal := by
  obtain ⟨text, hread⟩ := h
  obtain ⟨l, -, hfrom⟩ := readFrom_of_ok hread
  exact hfrom.normal

section RoundTrip
variable {d : Decimal} (h : d.Normal)
include h

theorem Normal.append_parts : d.integerPart ++ (if d.fractionPart = [] then none else
    some d.fractionPart).getD [] = d.used := by
  rw [h.holds.used]
  split_ifs with hnil
  · rw [hnil]
    rfl
  · rfl

theorem Normal.reads_back : ∃ d', fromLiteral d.toLiteral = .ok d' ∧ d.Same d' := by
  have happend := h.append_parts
  have hne : d.used ≠ [] := by
    apply List.ne_nil_of_length_pos
    rw [h.length_used]
    exact h.pos
  let l : Literal := ⟨if d.negative then .minus else .absent, d.integerPart,
    if d.fractionPart = [] then none else some d.fractionPart, by rw [happend]; exact h.isDigit,
    by rw [happend]; exact hne⟩
  have hdecimals : l.decimals = d.fractionPart := by
    change (if d.fractionPart = [] then none else some d.fractionPart).getD [] = _
    split_ifs with hnil
    · exact hnil.symm
    · rfl
  have hintegerOf : integerOf d.integerPart = d.integerPart := by
    rw [integerOf, if_neg h.trimmed.1]
  have hinteger : l.integer = d.integerPart := by
    change trimZeros (integerOf d.integerPart) = _
    rw [hintegerOf, h.trimmed.2]
  have hwritten : l.written ≤ maxDigits := by
    have hlength : l.written = d.len := by
      change (integerOf d.integerPart ++ l.decimals).length = _
      rw [hintegerOf, hdecimals, h.holds.len]
    rw [hlength]
    exact h.fits
  have htext : l.text = d.toLiteral := by
    rw [h.holds.toLiteral]
    change (if d.negative then Sign.minus else Sign.absent).text ++ (_ ++ _) = _
    have hbehind : Option.elim (if d.fractionPart = [] then none else some d.fractionPart) []
        (fun ds => '.' :: ds.map digitChar) =
          if d.fractionPart = [] then [] else '.' :: d.fractionPart.map digitChar := by
      split_ifs <;> rfl
    rw [hbehind]
    cases d.negative <;> rfl
  obtain ⟨d', hread, hfrom⟩ := fromLiteral_ok l hwritten
  rw [htext] at hread
  refine ⟨d', hread, ?_, ?_, ?_, ?_⟩
  · have hzero : ¬ l.IsZero ↔ ∃ x ∈ d.used, x ≠ 0 := by
      rw [l.isZero_iff, hinteger, hdecimals, ← h.holds.used]
      push Not
      rfl
    rw [Bool.eq_iff_iff, hfrom.negative_iff, hzero]
    have hsign : l.sign = .minus ↔ d.negative = true := by
      change (if d.negative then Sign.minus else Sign.absent) = _ ↔ _
      cases d.negative <;> decide
    rw [hsign]
    exact and_iff_left_of_imp h.noNegativeZero
  · rw [hfrom.holds.scale, h.holds.scale, hdecimals]
  · rw [hfrom.holds.len, h.holds.len, hinteger, hdecimals]
  · rw [hfrom.holds.used, h.holds.used, hinteger, hdecimals]

end RoundTrip

/-- What is read holds the literal's value in a normal form, is written as the literal in that form,
and that text is read as the same decimal. -/
theorem literal_roundTrip :
    (∀ text d, fromLiteral text = .ok d → ∃ l : Literal, l.text = text ∧ d.Normal ∧
      d.value = l.value ∧ d.scale = l.decimals.length ∧ d.toLiteral = l.canonicalText) ∧
    ∀ d : Decimal, d.Obtained ∨ d = {} → ∃ d', fromLiteral d.toLiteral = .ok d' ∧ d.Same d' := by
  constructor
  · intro text d hread
    obtain ⟨l, htext, hfrom⟩ := readFrom_of_ok hread
    exact ⟨l, htext, hfrom.normal, hfrom.value, hfrom.holds.scale, hfrom.toLiteral⟩
  · rintro d (hobtained | rfl)
    · exact hobtained.normal.reads_back
    · exact normal_default.reads_back

/-- A zero loses its minus. -/
theorem minusZero_toLiteral : ∃ l : Literal, l.text = "-0".toList ∧ l.tidyText = "-0".toList ∧
    ∃ d, fromLiteral "-0".toList = .ok d ∧ d.toLiteral = "0".toList := by
  let l : Literal := ⟨.minus, [0], none, by decide, by decide⟩
  obtain ⟨d, hread, hfrom⟩ := fromLiteral_ok l (by decide)
  refine ⟨l, rfl, rfl, d, hread, ?_⟩
  rw [hfrom.toLiteral]
  decide

/-- A sign, zeros in front and a fraction that ends in a zero. -/
theorem plusSeven_roundTrip : ∃ d, fromLiteral "+007.50".toList = .ok d ∧
    (∃ l : Literal, l.text = "+007.50".toList ∧ d.Normal ∧ d.value = l.value ∧
      d.scale = l.decimals.length ∧ d.toLiteral = l.canonicalText) ∧
    ∃ d', fromLiteral d.toLiteral = .ok d' ∧ d.Same d' := by
  let l : Literal := ⟨.plus, [0, 0, 7], some [5, 0], by decide, by decide⟩
  obtain ⟨d, hread, -⟩ := fromLiteral_ok l (by decide)
  have hread' : fromLiteral "+007.50".toList = .ok d := hread
  exact ⟨d, hread', literal_roundTrip.1 _ _ hread', literal_roundTrip.2 _ (.inl ⟨_, hread'⟩)⟩

end Decimal

end Uniorm.Value
