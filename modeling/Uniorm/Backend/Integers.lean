import Uniorm.Libpq.Cells
import Uniorm.Oracle.Whole

/-! # Integers from the two native backends

What a member of an integer type receives of a value through libpq, which gets
it as a text and checks the range of the member's width, and through OCI, which
gets it in 64 bits and casts.
-/
namespace Uniorm.Backend

open Foundation Value

inductive IntegerWidth where
  | bool | int16 | int32 | int64
  deriving DecidableEq, Repr

namespace IntegerWidth

abbrev member : IntegerWidth → PlainType
  | bool => .bool
  | int16 => .int16
  | int32 => .int32
  | int64 => .int64

abbrev requested : IntegerWidth → Oracle.Requested
  | bool => .bit
  | int16 => .int16
  | int32 => .int32
  | int64 => .int64

def number : (w : IntegerWidth) → w.member.Carrier → ℤ
  | bool, value => if value then 1 else 0
  | int16, value => Int16.toInt value
  | int32, value => Int32.toInt value
  | int64, value => Int64.toInt value

def Has : IntegerWidth → ℤ → Prop
  | bool, v => v = 0 ∨ v = 1
  | int16, v => -2 ^ 15 ≤ v ∧ v < 2 ^ 15
  | int32, v => -2 ^ 31 ≤ v ∧ v < 2 ^ 31
  | int64, v => -2 ^ 63 ≤ v ∧ v < 2 ^ 63

/-- `direct_binding::write`, which casts what stands in the place to the type of the member. -/
def cast : (w : IntegerWidth) → w.requested.Slot → w.member.Carrier
  | bool, (slot : Int8) => decide (slot ≠ 0)
  | int16, slot => slot
  | int32, slot => slot
  | int64, slot => slot

end IntegerWidth

/-- The texts of whole numbers and booleans. -/
inductive SpellsInteger : List UInt8 → ℤ → Prop where
  | digits {ds : List UInt8} (hne : ds ≠ []) (hdigits : ∀ byte ∈ ds, Libpq.isDigit byte = true) :
    SpellsInteger ds (Libpq.digitsValue ds)
  | negative {ds : List UInt8} (hne : ds ≠ []) (hdigits : ∀ byte ∈ ds, Libpq.isDigit byte = true) :
    SpellsInteger (45 :: ds) (-Libpq.digitsValue ds)
  | yes : SpellsInteger [116] 1
  | no : SpellsInteger [102] 0

section
variable (strtod : List UInt8 → Option (BitVec 64)) (native : Libpq.PgType) {V : Type}
  (oci : Oracle.Oci V) (w : IntegerWidth)

def libpqInteger (text : List UInt8) : Option w.member.Carrier :=
  Libpq.typedValue strtod w.member native text

/-- What a member receives through OCI, whatever its place held. -/
def oracleInteger (n : ℚ) (place : Oracle.Place w.requested) : Option w.member.Carrier :=
  (Oracle.putNumber oci n w.requested place).toOption.map fun put => w.cast put.1.slot

def ExactOrRefused (v : ℤ) (received : Option w.member.Carrier) : Prop :=
  ∀ value, received = some value → w.number value = v

end

theorem cString_digits {ds : List UInt8} (h : ∀ byte ∈ ds, Libpq.isDigit byte = true) :
    Foundation.cString ds = ds := by
  rw [Foundation.cString, List.takeWhile_eq_self_iff]
  intro byte hbyte
  have hdigit := h byte hbyte
  rw [bne_iff_ne]
  rintro rfl
  cases hdigit

theorem not_isSpace_of_isDigit {byte : UInt8} (h : Libpq.isDigit byte = true) :
    Libpq.isSpace byte = false ∧ byte ≠ 43 ∧ byte ≠ 45 ∧ byte ≠ 116 ∧ byte ≠ 102 := by
  have hrange : 48 ≤ byte.toNat ∧ byte.toNat ≤ 57 := by
    simpa [Libpq.isDigit, UInt8.le_iff_toNat_le] using h
  refine ⟨?_, ?_, ?_, ?_, ?_⟩
  · simp [Libpq.isSpace, UInt8.le_iff_toNat_le, ← UInt8.toNat_inj]
    omega
  all_goals
    rintro rfl
    exact absurd hrange (by decide)

/-- A number is read up to its end. -/
theorem strtoll_spells {text : List UInt8} {v : ℤ} (h : SpellsInteger text v) :
    text = [116] ∨ text = [102] ∨ Libpq.strtoll text = some (v, []) := by
  have hwhole : ∀ {ds : List UInt8}, (∀ byte ∈ ds, Libpq.isDigit byte = true) →
      ds.takeWhile Libpq.isDigit = ds ∧ ds.dropWhile Libpq.isDigit = [] := fun hdigits =>
    ⟨List.takeWhile_eq_self_iff.mpr hdigits, List.dropWhile_eq_nil_iff.mpr hdigits⟩
  cases h with
  | yes => exact .inl rfl
  | no => exact .inr (.inl rfl)
  | digits hne hdigits =>
    right; right
    obtain ⟨d, ds, rfl⟩ := List.exists_cons_of_ne_nil hne
    obtain ⟨hspace, hplus, hminus, -, -⟩ := not_isSpace_of_isDigit (hdigits d List.mem_cons_self)
    obtain ⟨htake, hdrop⟩ := hwhole hdigits
    have hskip : (d :: ds).dropWhile Libpq.isSpace = d :: ds := by
      rw [List.dropWhile_cons_of_neg (by simp [hspace])]
    unfold Libpq.strtoll
    rw [hskip]
    dsimp only
    split
    · rename_i heq
      exact absurd (List.cons.inj heq).1 hplus
    · rename_i heq
      exact absurd (List.cons.inj heq).1 hminus
    · simp [htake, hdrop, hminus]
  | @negative ds hne hdigits =>
    right; right
    obtain ⟨htake, hdrop⟩ := hwhole hdigits
    have hskip : (45 :: ds).dropWhile Libpq.isSpace = 45 :: ds := rfl
    unfold Libpq.strtoll
    rw [hskip]
    simp [htake, hdrop, hne]

theorem wholeInteger_spells {text : List UInt8} {v : ℤ} (h : SpellsInteger text v) :
    (Libpq.wholeInteger text).toOption =
      if -2 ^ 63 ≤ v ∧ v < 2 ^ 63 then some (Int64.ofInt v) else none := by
  have hend : Foundation.cString text = text := by
    cases h with
    | digits _ hdigits => exact cString_digits hdigits
    | negative _ hdigits =>
      rw [Foundation.cString, List.takeWhile_cons_of_pos (by decide)]
      exact congrArg _ (cString_digits hdigits)
    | yes => rfl
    | no => rfl
  have hstrtoll := strtoll_spells h
  unfold Libpq.wholeInteger
  rw [hend]
  split
  · cases h with
    | digits _ hdigits => exact absurd (hdigits 116 List.mem_cons_self) (by decide)
    | yes => rfl
  · cases h with
    | digits _ hdigits => exact absurd (hdigits 102 List.mem_cons_self) (by decide)
    | no => rfl
  · rename_i hyes hno
    rw [(hstrtoll.resolve_left hyes).resolve_left hno]
    simp only
    split_ifs <;> rfl

theorem intOf_spells {text : List UInt8} {v : ℤ} (h : SpellsInteger text v) {bits : ℕ}
    (hbits : bits ≤ 64) : Libpq.intOf bits text =
      if -2 ^ (bits - 1) ≤ v ∧ v < 2 ^ (bits - 1) then some (Int64.ofInt v) else none := by
  have hwhole := wholeInteger_spells h
  have hmono : (2 : ℤ) ^ (bits - 1) ≤ 2 ^ 63 := pow_le_pow_right₀ (by norm_num) (by omega)
  unfold Libpq.intOf
  cases hvalue : Libpq.wholeInteger text with
  | error e =>
    rw [hvalue] at hwhole
    have hout : ¬(-2 ^ 63 ≤ v ∧ v < 2 ^ 63) := by
      intro hin
      rw [if_pos hin] at hwhole
      cases hwhole
    rw [if_neg fun hin => hout ⟨by omega, by omega⟩]
    rfl
  | ok value =>
    rw [hvalue] at hwhole
    by_cases hin : -2 ^ 63 ≤ v ∧ v < 2 ^ 63
    · rw [if_pos hin] at hwhole
      obtain rfl := Option.some.inj hwhole
      have hto : (Int64.ofInt v).toInt = v := Int64.toInt_ofInt_of_le hin.1 hin.2
      change (Libpq.asWidth bits (Int64.ofInt v) 0 text).toOption = _
      rw [Libpq.asWidth, hto]
      split_ifs <;> rfl
    · rw [if_neg hin] at hwhole
      cases hwhole

section
variable (strtod : List UInt8 → Option (BitVec 64)) (native : Libpq.PgType) {V : Type}
  (oci : Oracle.Oci V)

theorem oracleInteger_exact (w : IntegerWidth) (x : Int64) (place : Oracle.Place w.requested) :
    oracleInteger oci w x.toInt place = some (match w with
      | .bool => decide (x.toInt8 ≠ 0)
      | .int16 => x.toInt16
      | .int32 => x.toInt32
      | .int64 => x) := by
  have hexact : Oracle.numberToInteger oci x.toInt = .ok x := by
    rw [Oracle.numberToInteger, oci.numberToInt_exact]
  unfold oracleInteger
  cases w <;> rw [Oracle.putNumber, hexact] <;> rfl

/-- A member that one backend casts into and the other refuses agrees where the cast is exact. -/
theorem exact_and_same_iff {w : IntegerWidth} {v : ℤ} {value : w.member.Carrier} {inside : Prop}
    [Decidable inside] (hexact : inside → w.number value = v) :
    (ExactOrRefused w v (if inside then some value else none) ∧ ExactOrRefused w v (some value) ∧
      (if inside then some value else none) = some value) ↔ inside := by
  by_cases hinside : inside
  · have hreceived : ExactOrRefused w v (some value) := by
      intro received heq
      rw [← Option.some.inj heq, hexact hinside]
    rw [if_pos hinside]
    exact iff_of_true ⟨hreceived, hreceived, rfl⟩ hinside
  · simp [hinside]

/-- Of an integer that the member has, both backends give that integer; of any other one they do not
both give it or refuse it, or they differ. What is no integer of 64 bits is refused. -/
theorem integer_reads_exact_iff (w : IntegerWidth) :
    (∀ text (x : Int64) (place : Oracle.Place w.requested), SpellsInteger text x.toInt →
      (ExactOrRefused w x.toInt (libpqInteger strtod native w text) ∧
        ExactOrRefused w x.toInt (oracleInteger oci w x.toInt place) ∧
        libpqInteger strtod native w text = oracleInteger oci w x.toInt place ↔
          w.Has x.toInt)) ∧
    ∀ text v, SpellsInteger text v → ¬(-2 ^ 63 ≤ v ∧ v < 2 ^ 63) →
      libpqInteger strtod native w text = none := by
  constructor
  · intro text x place h
    rw [oracleInteger_exact]
    have hofInt : Int64.ofInt x.toInt = x := Int64.ofInt_toInt x
    have hint : ∀ {bits}, bits ≤ 64 → Libpq.intOf bits text =
        if -2 ^ (bits - 1) ≤ x.toInt ∧ x.toInt < 2 ^ (bits - 1) then some x else none := by
      intro bits hbits
      rw [intOf_spells h hbits, hofInt]
    cases w with
    | bool =>
      have hlibpq : libpqInteger strtod native .bool text =
          if -2 ^ 7 ≤ x.toInt ∧ x.toInt < 2 ^ 7 then some (decide (x ≠ 0)) else none := by
        rw [libpqInteger, Libpq.typedValue, hint (by norm_num)]
        split_ifs <;> rfl
      rw [hlibpq]
      constructor
      · -- a member that is a bool holds no other integers
        rintro ⟨-, hreceived, -⟩
        have hnumber := hreceived _ rfl
        simp only [IntegerWidth.number] at hnumber
        split_ifs at hnumber
        · exact .inr hnumber.symm
        · exact .inl hnumber.symm
      · intro hhas
        have hcases : x = 0 ∨ x = 1 :=
          hhas.imp (fun h => Int64.toInt_inj.mp h) fun h => Int64.toInt_inj.mp h
        obtain rfl | rfl := hcases
        · refine ⟨fun value hvalue => ?_, fun value hvalue => ?_, rfl⟩
          · obtain rfl := Option.some.inj hvalue
            rfl
          · obtain rfl := Option.some.inj hvalue
            rfl
        · refine ⟨fun value hvalue => ?_, fun value hvalue => ?_, rfl⟩
          · obtain rfl := Option.some.inj hvalue
            rfl
          · obtain rfl := Option.some.inj hvalue
            rfl
    | int16 =>
      have hlibpq : libpqInteger strtod native .int16 text =
          if -2 ^ 15 ≤ x.toInt ∧ x.toInt < 2 ^ 15 then some x.toInt16 else none := by
        rw [libpqInteger, Libpq.typedValue, hint (by norm_num)]
        split_ifs <;> rfl
      rw [hlibpq]
      refine exact_and_same_iff fun hin => ?_
      exact (Int64.toInt_toInt16 x).trans (Int.bmod_eq_of_le (by norm_num; omega) (by norm_num; omega))
    | int32 =>
      have hlibpq : libpqInteger strtod native .int32 text =
          if -2 ^ 31 ≤ x.toInt ∧ x.toInt < 2 ^ 31 then some x.toInt32 else none := by
        rw [libpqInteger, Libpq.typedValue, hint (by norm_num)]
        split_ifs <;> rfl
      rw [hlibpq]
      refine exact_and_same_iff fun hin => ?_
      exact (Int64.toInt_toInt32 x).trans (Int.bmod_eq_of_le (by norm_num; omega) (by norm_num; omega))
    | int64 =>
      have hlibpq : libpqInteger strtod native .int64 text =
          if -2 ^ 63 ≤ x.toInt ∧ x.toInt < 2 ^ 63 then some x else none := by
        rw [libpqInteger, Libpq.typedValue, wholeInteger_spells h, hofInt]
      rw [hlibpq]
      exact exact_and_same_iff fun _ => rfl
  · intro text v h hout
    have hnone : ∀ {bits}, bits ≤ 64 → Libpq.intOf bits text = none := by
      intro bits hbits
      have hmono : (2 : ℤ) ^ (bits - 1) ≤ 2 ^ 63 := pow_le_pow_right₀ (by norm_num) (by omega)
      rw [intOf_spells h hbits, if_neg fun hin => hout ⟨by omega, by omega⟩]
    unfold libpqInteger
    cases w with
    | bool => rw [Libpq.typedValue, hnone (by norm_num)]; rfl
    | int16 => rw [Libpq.typedValue, hnone (by norm_num)]; rfl
    | int32 => rw [Libpq.typedValue, hnone (by norm_num)]; rfl
    | int64 => rw [Libpq.typedValue, wholeInteger_spells h, if_neg hout]

end

/-- A number that a 16-bit member has. -/
theorem seven_is_read_exactly :
    ExactOrRefused .int16 7 (libpqInteger (fun _ => none) .bigint .int16 [55]) ∧
      ExactOrRefused .int16 7 (oracleInteger Oracle.textOci .int16 ((7 : Int64).toInt : ℚ) ⟨0, 0⟩) ∧
      libpqInteger (fun _ => none) .bigint .int16 [55] =
        oracleInteger Oracle.textOci .int16 ((7 : Int64).toInt : ℚ) ⟨0, 0⟩ :=
  ((integer_reads_exact_iff (fun _ => none) .bigint Oracle.textOci .int16).1 [55] 7 ⟨0, 0⟩
    (.digits (by decide) (List.all_eq_true.mp (by decide)))).mpr ⟨by decide, by decide⟩

/-- A number beyond 16 bits: libpq refuses it, OCI's comes out as five. -/
theorem large_key_is_wrapped : SpellsInteger [54, 53, 53, 52, 49] 65541 ∧
    libpqInteger (fun _ => none) .bigint .int16 [54, 53, 53, 52, 49] = none ∧
    oracleInteger Oracle.textOci .int16 ((65541 : Int64).toInt : ℚ) ⟨0, 0⟩ = some (5 : Int16) ∧
    ¬ExactOrRefused .int16 65541
      (oracleInteger Oracle.textOci .int16 ((65541 : Int64).toInt : ℚ) ⟨0, 0⟩) := by
  have hwrapped : oracleInteger Oracle.textOci .int16 ((65541 : Int64).toInt : ℚ) ⟨0, 0⟩ =
      some (5 : Int16) := oracleInteger_exact Oracle.textOci .int16 65541 ⟨0, 0⟩
  refine ⟨.digits (by decide) (List.all_eq_true.mp (by decide)), by decide, hwrapped, fun hexact => ?_⟩
  exact absurd (hexact (5 : Int16) hwrapped) (by decide)

end Uniorm.Backend
