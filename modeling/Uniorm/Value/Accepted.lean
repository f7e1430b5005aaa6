import Mathlib.Algebra.Order.Field.Rat
import Uniorm.Value.Literal

/-! # What a decimal is read from and written as

A literal is told by its sign, the digits in front of its point and those behind
it. Reading it gives its exact value in a form without surplus zeros, and what
is written back is the literal in that form.
-/
namespace Uniorm.Value

open Foundation Sql Decimal

inductive Sign where
  | absent
  | plus
  | minus
  deriving DecidableEq, Repr

def Sign.text : Sign → Text
  | absent => []
  | plus => ['+']
  | minus => ['-']

/-- `[+-]?(D+(.D*)?|.D+)`: digits, at most one point among them, and at least one digit. -/
structure Literal where
  sign : Sign
  whole : List ℕ
  fraction : Option (List ℕ)
  isDigit : ∀ d ∈ whole ++ fraction.getD [], d < 10
  nonempty : whole ++ fraction.getD [] ≠ []

namespace Literal

variable (l : Literal)

def text : Text := l.sign.text ++ spelled l.whole l.fraction

/-- The digits behind the point. -/
def decimals : List ℕ := l.fraction.getD []

def integer : List ℕ := trimZeros (integerOf l.whole)

def value : ℚ := (if l.sign = .minus then -1 else 1) * number 10 (l.whole ++ l.decimals) /
  10 ^ l.decimals.length

/-- The digits that are left. -/
def kept : ℕ := (l.integer ++ l.decimals).length

/-- The digits there are, one of them in front of the point. -/
def written : ℕ := (integerOf l.whole ++ l.decimals).length

def IsZero : Prop := ∀ d ∈ l.whole ++ l.decimals, d = 0

instance : Decidable l.IsZero := inferInstanceAs (Decidable (∀ d ∈ l.whole ++ l.decimals, d = 0))

/-- The literal without its sign, without surplus zeros in front, with a digit in front of the point
and no point behind the last digit. -/
def unsignedText : Text :=
  l.integer.map digitChar ++ if l.decimals = [] then [] else '.' :: l.decimals.map digitChar

def tidyText : Text := (if l.sign = .minus then ['-'] else []) ++ l.unsignedText

/-- The literal in that form, with a minus it has unless it is a zero. -/
def canonicalText : Text :=
  (if l.sign = .minus ∧ ¬ l.IsZero then ['-'] else []) ++ l.unsignedText

theorem kept_le_written : l.kept ≤ l.written := by
  obtain ⟨k, hk⟩ := trimZeros_eq (integerOf l.whole)
  rw [kept, written, List.length_append, List.length_append]
  refine Nat.add_le_add_right ?_ _
  rw [integer]
  conv_rhs => rw [hk, List.length_append]
  exact Nat.le_add_left _ _

end Literal

namespace Decimal

/-- What holds of every decimal that is read. -/
structure Normal (d : Decimal) : Prop where
  pos : 1 ≤ d.len
  fits : d.len ≤ maxDigits
  scale : d.scale < d.len
  isDigit : ∀ x ∈ d.used, x < 10
  noLeadingZero : 1 < d.integerLen → d.used.head? ≠ some 0
  noNegativeZero : d.negative = true → ∃ x ∈ d.used, x ≠ 0

/-- The decimals are the same as far as the digits in use go. -/
structure Same (d d' : Decimal) : Prop where
  negative : d'.negative = d.negative
  scale : d'.scale = d.scale
  len : d'.len = d.len
  used : d'.used = d.used

def Obtained (d : Decimal) : Prop := ∃ text, fromLiteral text = .ok d

structure ReadFrom (d : Decimal) (l : Literal) : Prop where
  holds : Holds d l.integer l.decimals
  negative : d.negative = (decide (l.sign = .minus) && !decide l.IsZero)
  fits : l.written ≤ maxDigits

theorem fromLiteral_text (l : Literal) :
    fromLiteral l.text = fromUnsigned (decide (l.sign = .minus)) (spelled l.whole l.fraction) := by
  have hplain : ∀ text : Text, (∀ c ∈ text.head?, c ≠ '-' ∧ c ≠ '+') →
      fromLiteral text = fromUnsigned false text := by
    intro text htext
    unfold fromLiteral
    split
    · exact absurd rfl (htext '-' rfl).1
    · exact absurd rfl (htext '+' rfl).2
    · rfl
  cases hsign : l.sign with
  | minus =>
    rw [Literal.text, hsign]
    rfl
  | plus =>
    rw [Literal.text, hsign]
    rfl
  | absent =>
    rw [Literal.text, hsign]
    refine hplain _ fun c hc => ?_
    rcases mem_spelled l.isDigit (List.mem_of_mem_head? hc) with rfl | ⟨d, hd, rfl⟩
    · exact ⟨by decide, by decide⟩
    · exact ⟨digitChar_ne hd (.inl (by decide)), digitChar_ne hd (.inl (by decide))⟩

theorem number_integerOf (whole : List ℕ) : number 10 (integerOf whole) = number 10 whole := by
  rw [integerOf]
  split_ifs with h
  · subst h
    rfl
  · rfl

theorem number_kept (l : Literal) :
    number 10 (l.integer ++ l.decimals) = number 10 (l.whole ++ l.decimals) := by
  rw [number_append, number_append, Literal.integer, number_trimZeros, number_integerOf]

theorem all_zero_iff (l : Literal) :
    (l.integer ++ l.decimals).all (· == 0) = decide l.IsZero := by
  rw [Bool.eq_iff_iff, List.all_eq_true, decide_eq_true_eq, Literal.IsZero,
    ← number_eq_zero_iff (b := 10) (by decide), ← number_kept, number_eq_zero_iff (by decide)]
  simp only [beq_iff_eq]

section Unsigned
variable {whole : List ℕ} {fraction : Option (List ℕ)}

/-- What is read behind the sign, where it is read. -/
theorem fromUnsigned_ok (hdigits : ∀ d ∈ whole ++ fraction.getD [], d < 10)
    (hne : whole ++ fraction.getD [] ≠ [])
    (hroom : (integerOf whole ++ fraction.getD []).length ≤ maxDigits) (negative : Bool) :
    ∃ d, fromUnsigned negative (spelled whole fraction) = .ok d ∧
      Holds d (trimZeros (integerOf whole)) (fraction.getD []) ∧ d.negative =
        (negative && !(trimZeros (integerOf whole) ++ fraction.getD []).all (· == 0)) := by
  have hroom' : (whole ++ fraction.getD []).length ≤ maxDigits := by
    refine le_trans ?_ hroom
    rw [List.length_append, List.length_append, integerOf]
    split_ifs with h
    · subst h
      exact Nat.add_le_add_right (Nat.zero_le _) _
    · exact le_rfl
  have htext : spelled whole fraction = spelled [] none ++ spelled whole fraction := rfl
  obtain ⟨s, hfold, hreads⟩ := foldlM_readChar_ok reads_nil hdigits hroom' htext
  obtain ⟨s', hwith, hreads'⟩ := withInteger_ok hreads hne hroom
  obtain ⟨d, harranged, hholds, hnegative⟩ := arranged_spec hreads' (integerOf_ne_nil whole) negative
  refine ⟨d, ?_, hholds, hnegative⟩
  change ((spelled whole fraction).foldlM readChar {} >>= fun s => withInteger s >>= arranged negative) = _
  rw [hfold]
  change (withInteger s >>= arranged negative) = _
  rw [hwith]
  exact harranged

/-- What is refused is refused by a `type_mismatch`; the rest is a literal. -/
theorem fromUnsigned_cases (negative : Bool) (text : Text) :
    (∃ whole fraction, spelled whole fraction = text ∧ (∀ d ∈ whole ++ fraction.getD [], d < 10) ∧
      whole ++ fraction.getD [] ≠ [] ∧
      (integerOf whole ++ fraction.getD []).length ≤ maxDigits) ∨
    ∃ what, fromUnsigned negative text = .error (.typeMismatch what) := by
  have hbind : fromUnsigned negative text =
      text.foldlM readChar {} >>= fun s => withInteger s >>= arranged negative := rfl
  rw [hbind]
  rcases foldlM_readChar reads_nil text with ⟨s, whole, fraction, hfold, hreads, htext⟩ | ⟨what, hfold⟩
  · rw [hfold]
    by_cases hbad : whole ++ fraction.getD [] = [] ∨
        maxDigits < (integerOf whole ++ fraction.getD []).length
    · obtain ⟨what, hwith⟩ := withInteger_error hreads hbad
      refine .inr ⟨what, ?_⟩
      change (withInteger s >>= arranged negative) = _
      rw [hwith]
      rfl
    · obtain ⟨hne, hroom⟩ := not_or.mp hbad
      exact .inl ⟨whole, fraction, htext, hreads.isDigit, hne, Nat.le_of_not_lt hroom⟩
  · rw [hfold]
    exact .inr ⟨what, rfl⟩

end Unsigned

theorem fromLiteral_ok (l : Literal) (h : l.written ≤ maxDigits) :
    ∃ d, fromLiteral l.text = .ok d ∧ d.ReadFrom l := by
  obtain ⟨d, hread, hholds, hnegative⟩ := fromUnsigned_ok l.isDigit l.nonempty h (decide (l.sign = .minus))
  rw [← fromLiteral_text] at hread
  refine ⟨d, hread, hholds, ?_, h⟩
  rw [hnegative]
  congr 2
  exact all_zero_iff l

theorem fromLiteral_cases (text : Text) : (∃ l : Literal, l.text = text ∧ l.written ≤ maxDigits) ∨
    ∃ what, fromLiteral text = .error (.typeMismatch what) := by
  have hsigned : ∀ (sign : Sign) (rest : Text), sign.text ++ rest = text →
      fromLiteral text = fromUnsigned (decide (sign = .minus)) rest →
        (∃ l : Literal, l.text = text ∧ l.written ≤ maxDigits) ∨
          ∃ what, fromLiteral text = .error (.typeMismatch what) := by
    intro sign rest htext hread
    rw [hread]
    rcases fromUnsigned_cases (decide (sign = .minus)) rest with
      ⟨whole, fraction, hspelled, hdigits, hne, hroom⟩ | herror
    · refine .inl ⟨⟨sign, whole, fraction, hdigits, hne⟩, ?_, hroom⟩
      rw [← htext, ← hspelled]
      rfl
    · exact .inr herror
  unfold fromLiteral at hsigned ⊢
  split at hsigned
  · exact hsigned .minus _ rfl rfl
  · exact hsigned .plus _ rfl rfl
  · exact hsigned .absent _ rfl rfl

theorem fromLiteral_error (l : Literal) (h : maxDigits < l.written) :
    ∃ what, fromLiteral l.text = .error (.typeMismatch what) := by
  rcases foldlM_readChar reads_nil (spelled l.whole l.fraction) with
    ⟨s, whole, fraction, hfold, hreads, htext⟩ | ⟨what, hfold⟩
  · obtain ⟨rfl, rfl⟩ := spelled_inj hreads.isDigit l.isDigit htext
    obtain ⟨what, hwith⟩ := withInteger_error hreads (.inr h)
    refine ⟨what, ?_⟩
    rw [fromLiteral_text]
    change ((spelled l.whole l.fraction).foldlM readChar {} >>= fun s => withInteger s >>= arranged _) = _
    rw [hfold]
    change (withInteger s >>= arranged _) = _
    rw [hwith]
    rfl
  · refine ⟨what, ?_⟩
    rw [fromLiteral_text]
    change ((spelled l.whole l.fraction).foldlM readChar {} >>= fun s => withInteger s >>= arranged _) = _
    rw [hfold]
    rfl

theorem readFrom_of_ok {text : Text} {d : Decimal} (h : fromLiteral text = .ok d) :
    ∃ l : Literal, l.text = text ∧ d.ReadFrom l := by
  rcases fromLiteral_cases text with ⟨l, rfl, hroom⟩ | ⟨what, herror⟩
  · obtain ⟨d', hread, hfrom⟩ := fromLiteral_ok l hroom
    rw [hread] at h
    obtain rfl := Except.ok.inj h
    exact ⟨l, rfl, hfrom⟩
  · rw [herror] at h
    cases h

end Decimal

end Uniorm.Value
