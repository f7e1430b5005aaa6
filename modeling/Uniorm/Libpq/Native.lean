import Mathlib.Data.List.TakeWhile
import Mathlib.Tactic.IntervalCases
import Mathlib.Tactic.NormNum
import Uniorm.Foundation.Memory
import Uniorm.Schema.Meta
import Uniorm.Value.SqlValue

/-! # What the server's texts say

The server answers with texts: numbers, byte strings in hex, dates and clocks. Which of these a text
is, and how wide a column is declared, follows from the type of the column and its modifier.
-/
namespace Uniorm.Libpq

open Foundation Schema Value

/-- The numbers of `pg_type`. -/
inductive PgType where
  | boolean | bytea | character | name | bigint | smallint | integer | text | oid | json | xml
  | real | doublePrecision | bpchar | varchar | date | time | timestamp | timestamptz | interval
  | timetz | numeric | uuid | jsonb
  | other (number : ℕ)
  deriving DecidableEq, Repr

def declaredLength (modifier : ℤ) : ℕ := if modifier < 4 then 0 else (modifier - 4).toNat

def declaredPrecision (modifier : ℤ) : ℕ := if modifier < 4 then 0 else (modifier - 4).toNat / 65536

def PgType.sqlType : PgType → SqlType
  | boolean => .boolean
  | character => .character
  | smallint => .smallint
  | integer => .integer
  | bigint => .bigint
  | oid => .bigint
  | real => .real
  | doublePrecision => .doublePrecision
  | numeric => .decimal
  | bpchar => .character
  | varchar => .varchar
  | name | text | xml | json | jsonb => .longvarchar
  | bytea => .varbinary
  | date => .date
  | time | timetz => .time
  | timestamp | timestamptz => .timestamp
  | uuid => .guid
  | interval | other _ => .other

def displayWidth (type : SqlType) (native : PgType) (modifier : ℤ) : ℕ :=
  match type with
  | .decimal => declaredPrecision modifier
  | .character | .varchar => declaredLength modifier
  | .varbinary => if native = .bytea then declaredLength modifier else 0
  | _ => 0

/-- What a read throws. `overrun` stands for an access outside the place of a row, which the program
does not notice. -/
inductive ReadError where
  | overrun
  | integer (text : List UInt8)
  | floating (text : List UInt8)
  | notHexForm
  | notHex
  | width (column bits : ℕ) (text : List UInt8)
  | pastSelectList (index : ℕ)
  | boundTwice (index : ℕ)
  | readColumn (column : ℕ)
  | nullValue
  | numericRange
  | numericText
  | integralTarget
  | incompatible
  | notA (what : String)
  | converter
  deriving DecidableEq

def spelled (text : List UInt8) : String := String.ofList (text.map fun byte => Char.ofNat byte.toNat)

def ReadError.what : ReadError → String
  | overrun => ""
  | integer text => "read '" ++ spelled text ++ "' as an integer"
  | floating text => "read '" ++ spelled text ++ "' as a floating value"
  | notHexForm => "read a byte string the server did not send as hex"
  | notHex => "read a byte string that is not hex"
  | width column bits text =>
    "read result column " ++ toString column ++ " as a " ++ toString bits ++ "-bit integer: '" ++
      spelled text ++ "'"
  | pastSelectList index => "result column " ++ toString index ++ " is past the select list"
  | boundTwice index => "bind result column " ++ toString index ++ " a second time"
  | readColumn column => "read a value of result column " ++ toString column
  | nullValue => "NULL value for non-optional projection field"
  | numericRange => "numeric value out of range for target type"
  | numericText => "sql_value text is not a number for this target"
  | integralTarget => "cannot convert double to integral target"
  | incompatible => "incompatible sql_value type"
  | notA what => "sql_value does not hold " ++ what
  | converter => ""

def isDigit (byte : UInt8) : Bool := 48 ≤ byte && byte ≤ 57

def isSpace (byte : UInt8) : Bool := byte == 32 || (9 ≤ byte && byte ≤ 13)

def digitsValue (digits : List UInt8) : ℕ := digits.foldl (fun n byte => n * 10 + (byte.toNat - 48)) 0

/-- `strtoll` in base ten: the value, and what it stopped at; `none` where there is no number. -/
def strtoll (text : List UInt8) : Option (ℤ × List UInt8) :=
  let text := text.dropWhile isSpace
  let body := match text with
    | 43 :: rest => rest
    | 45 :: rest => rest
    | _ => text
  let digits := body.takeWhile isDigit
  if digits = [] then none
  else some (if text.head? = some 45 then -digitsValue digits else digitsValue digits,
    body.dropWhile isDigit)

/-- The server spells a bool one character long. -/
def wholeInteger (text : List UInt8) : Except ReadError Int64 :=
  match cString text with
  | [116] => .ok 1
  | [102] => .ok 0
  | t =>
    match strtoll t with
    | some (value, []) =>
      if -2 ^ 63 ≤ value ∧ value < 2 ^ 63 then .ok (Int64.ofInt value) else .error (.integer t)
    | _ => .error (.integer t)

/-- A value in the range of `bits` bits. -/
def asWidth (bits : ℕ) (value : Int64) (column : ℕ) (text : List UInt8) : Except ReadError Int64 :=
  if -2 ^ (bits - 1) ≤ value.toInt ∧ value.toInt < 2 ^ (bits - 1) then .ok value
  else .error (.width column bits (cString text))

def hexDigit (n : ℕ) : UInt8 := if n < 10 then UInt8.ofNat (48 + n) else UInt8.ofNat (87 + n)

def hexValue (c : UInt8) : Option ℕ :=
  if 48 ≤ c ∧ c ≤ 57 then some (c.toNat - 48)
  else if 97 ≤ c ∧ c ≤ 102 then some (c.toNat - 97 + 10)
  else if 65 ≤ c ∧ c ≤ 70 then some (c.toNat - 65 + 10)
  else none

def hexDigitsOf : List UInt8 → List UInt8
  | [] => []
  | byte :: bytes => hexDigit (byte.toNat / 16) :: hexDigit (byte.toNat % 16) :: hexDigitsOf bytes

def hexTextOf (bytes : List UInt8) : List UInt8 := 92 :: 120 :: hexDigitsOf bytes

def bytesOfDigits : List UInt8 → Except ReadError (List UInt8)
  | high :: low :: rest =>
    match hexValue high, hexValue low with
    | some h, some l => do
      let bytes ← bytesOfDigits rest
      pure (UInt8.ofNat (h * 16 + l) :: bytes)
    | _, _ => .error .notHex
  | _ => .ok []

def bytesOf (text : List UInt8) (hexForm : Bool) : Except ReadError (List UInt8) :=
  if hexForm then
    match text with
    | 92 :: 120 :: digits => if digits.length % 2 = 0 then bytesOfDigits digits else .error .notHexForm
    | _ => .error .notHexForm
  else .ok text

theorem hexValue_hexDigit {n : ℕ} (h : n < 16) : hexValue (hexDigit n) = some n := by
  interval_cases n <;> rfl

@[simp] theorem length_hexDigitsOf (bytes : List UInt8) :
    (hexDigitsOf bytes).length = 2 * bytes.length := by
  induction bytes with
  | nil => rfl
  | cons byte bytes ih =>
    rw [hexDigitsOf, List.length_cons, List.length_cons, ih, List.length_cons]
    omega

theorem bytesOfDigits_hexDigitsOf (bytes : List UInt8) :
    bytesOfDigits (hexDigitsOf bytes) = .ok bytes := by
  induction bytes with
  | nil => rfl
  | cons byte bytes ih =>
    have hbyte := byte.toNat_lt
    have hhigh := hexValue_hexDigit (n := byte.toNat / 16) (by omega)
    have hlow := hexValue_hexDigit (n := byte.toNat % 16) (by omega)
    have hvalue : UInt8.ofNat (byte.toNat / 16 * 16 + byte.toNat % 16) = byte := by
      rw [Nat.mul_comm, Nat.div_add_mod, UInt8.ofNat_toNat]
    rw [hexDigitsOf, bytesOfDigits, hhigh, hlow]
    simp only [ih, hvalue]
    rfl

/-- A byte string is what the server's text of it carries. -/
theorem bytesOf_hexTextOf (bytes : List UInt8) : bytesOf (hexTextOf bytes) true = .ok bytes := by
  have heven : (hexDigitsOf bytes).length % 2 = 0 := by
    rw [length_hexDigitsOf]
    omega
  rw [hexTextOf, bytesOf, if_pos rfl]
  simp only [heven, if_true]
  exact bytesOfDigits_hexDigitsOf bytes

def takeDigits : ℕ → List UInt8 → ℕ → ℕ × List UInt8
  | value, byte :: rest, wanted + 1 =>
    if isDigit byte then takeDigits (value * 10 + (byte.toNat - 48)) rest wanted
    else (value, byte :: rest)
  | value, scan, _ => (value, scan)

def skip (byte : UInt8) (scan : List UInt8) : List UInt8 :=
  if scan.head? = some byte then scan.tail else scan

def takeFraction (scan : List UInt8) : ℕ :=
  let digits := (scan.take 9).takeWhile isDigit
  digitsValue digits * 10 ^ (9 - digits.length)

structure TextShape where
  hasDay : Bool
  hasClock : Bool
  deriving DecidableEq, Repr

def shapeOf : PgType → TextShape
  | .time | .timetz => ⟨false, true⟩
  | .date => ⟨true, false⟩
  | _ => ⟨true, true⟩

def datePartsOf (text : List UInt8) (wantsTime : Bool) : (ℕ × ℕ × ℕ) × List UInt8 :=
  let year := takeDigits 0 text 4
  let month := takeDigits 0 (skip 45 year.2) 2
  let day := takeDigits 0 (skip 45 month.2) 2
  let scan := if wantsTime then
      if day.2.head? = some 32 ∨ day.2.head? = some 84 then day.2.tail else day.2
    else day.2
  ((year.1, month.1, day.1), scan)

def clockPartsOf (text : List UInt8) : ℕ × ℕ × ℕ × ℕ :=
  let hour := takeDigits 0 text 2
  let minute := takeDigits 0 (skip 58 hour.2) 2
  let second := takeDigits 0 (skip 58 minute.2) 2
  (hour.1, minute.1, second.1,
    if second.2.head? = some 46 then takeFraction second.2.tail else 0)

/-- `parts_of`, given the type of the column. A clock without a day stands on the first day of the
epoch. -/
def partsOf (text : List UInt8) (native : PgType) : TimestampParts :=
  let shape := shapeOf native
  let date := if shape.hasDay then datePartsOf text shape.hasClock else ((1970, 1, 1), text)
  let clock := if shape.hasClock then clockPartsOf date.2 else (0, 0, 0, 0)
  ⟨date.1.1, date.1.2.1, date.1.2.2, clock.1, clock.2.1, clock.2.2.1, clock.2.2.2⟩

theorem digit_lt {byte : UInt8} (h : isDigit byte = true) : byte.toNat - 48 < 10 := by
  unfold isDigit at h
  rw [Bool.and_eq_true, decide_eq_true_eq, decide_eq_true_eq, UInt8.le_iff_toNat_le,
    UInt8.le_iff_toNat_le] at h
  have hlast : (57 : UInt8).toNat = 57 := rfl
  omega

theorem takeDigits_lt (value : ℕ) (scan : List UInt8) (wanted : ℕ) :
    (takeDigits value scan wanted).1 < (value + 1) * 10 ^ wanted := by
  fun_induction takeDigits value scan wanted with
  | case1 value byte rest wanted hdigit ih =>
    have hlt := digit_lt hdigit
    calc (takeDigits (value * 10 + (byte.toNat - 48)) rest wanted).1
        < (value * 10 + (byte.toNat - 48) + 1) * 10 ^ wanted := ih
      _ ≤ ((value + 1) * 10) * 10 ^ wanted := Nat.mul_le_mul_right _ (by omega)
      _ = (value + 1) * 10 ^ (wanted + 1) := by rw [pow_succ, Nat.mul_assoc, Nat.mul_comm 10]
  | case2 value byte rest wanted hdigit =>
    exact (Nat.lt_succ_self value).trans_le (Nat.le_mul_of_pos_right _ (Nat.pow_pos (by decide)))
  | case3 value scan wanted hother =>
    exact (Nat.lt_succ_self _).trans_le (Nat.le_mul_of_pos_right _ (Nat.pow_pos (by norm_num)))

theorem digitsValue_lt {digits : List UInt8} (h : ∀ byte ∈ digits, isDigit byte = true) :
    digitsValue digits < 10 ^ digits.length := by
  have hfold : ∀ n, digits.foldl (fun n byte => n * 10 + (byte.toNat - 48)) n <
      (n + 1) * 10 ^ digits.length := by
    induction digits with
    | nil =>
      intro n
      simp
    | cons byte digits ih =>
      intro n
      have hlt := digit_lt (h byte List.mem_cons_self)
      have hrest := ih (fun b hb => h b (List.mem_cons_of_mem _ hb)) (n * 10 + (byte.toNat - 48))
      calc digits.foldl (fun n byte => n * 10 + (byte.toNat - 48)) (n * 10 + (byte.toNat - 48))
          < (n * 10 + (byte.toNat - 48) + 1) * 10 ^ digits.length := hrest
        _ ≤ ((n + 1) * 10) * 10 ^ digits.length := Nat.mul_le_mul_right _ (by omega)
        _ = (n + 1) * 10 ^ (byte :: digits).length := by
          rw [List.length_cons, pow_succ, Nat.mul_assoc, Nat.mul_comm 10]
  simpa [digitsValue] using hfold 0

theorem takeFraction_lt (scan : List UInt8) : takeFraction scan < 10 ^ 9 := by
  unfold takeFraction
  obtain ⟨digits, hdigits⟩ : ∃ d, (scan.take 9).takeWhile isDigit = d := ⟨_, rfl⟩
  have hlen : digits.length ≤ 9 := by
    rw [← hdigits]
    exact (List.takeWhile_prefix _).length_le.trans (List.length_take_le _ _)
  have hall : ∀ byte ∈ digits, isDigit byte = true := by
    intro byte hbyte
    rw [← hdigits] at hbyte
    exact List.mem_takeWhile_imp hbyte
  simp only [hdigits]
  calc digitsValue digits * 10 ^ (9 - digits.length)
      < 10 ^ digits.length * 10 ^ (9 - digits.length) :=
        Nat.mul_lt_mul_of_pos_right (digitsValue_lt hall) (Nat.pow_pos (by decide))
    _ = 10 ^ 9 := by rw [← pow_add, Nat.add_sub_cancel' hlen]

theorem fits_partsOf (text : List UInt8) (native : PgType) : (partsOf text native).Fits := by
  have htwo : ∀ scan, (takeDigits 0 scan 2).1 < 2 ^ 16 := fun scan =>
    (takeDigits_lt 0 scan 2).trans (by norm_num)
  have hfour : ∀ scan, (takeDigits 0 scan 4).1 < 2 ^ 15 := fun scan =>
    (takeDigits_lt 0 scan 4).trans (by norm_num)
  have hnine : ∀ scan, takeFraction scan < 2 ^ 32 := fun scan =>
    (takeFraction_lt scan).trans (by norm_num)
  have hclock : ∀ scan, (clockPartsOf scan).1 < 2 ^ 16 ∧ (clockPartsOf scan).2.1 < 2 ^ 16 ∧
      (clockPartsOf scan).2.2.1 < 2 ^ 16 ∧ (clockPartsOf scan).2.2.2 < 2 ^ 32 := by
    intro scan
    refine ⟨htwo _, htwo _, htwo _, ?_⟩
    unfold clockPartsOf
    simp only
    split
    · exact hnine _
    · norm_num
  have hdate : ∀ scan wantsTime, (datePartsOf scan wantsTime).1.1 < 2 ^ 15 ∧
      (datePartsOf scan wantsTime).1.2.1 < 2 ^ 16 ∧ (datePartsOf scan wantsTime).1.2.2 < 2 ^ 16 :=
    fun scan wantsTime => ⟨hfour _, htwo _, htwo _⟩
  obtain ⟨shape, hshape⟩ : ∃ shape, shapeOf native = shape := ⟨_, rfl⟩
  unfold partsOf
  rw [hshape]
  obtain ⟨date, hday⟩ : ∃ date, (if shape.hasDay then datePartsOf text shape.hasClock
      else ((1970, 1, 1), text)) = date := ⟨_, rfl⟩
  obtain ⟨clock, htime⟩ : ∃ clock, (if shape.hasClock then clockPartsOf date.2
      else (0, 0, 0, 0)) = clock := ⟨_, rfl⟩
  have hfits : date.1.1 < 2 ^ 15 ∧ date.1.2.1 < 2 ^ 16 ∧ date.1.2.2 < 2 ^ 16 := by
    rw [← hday]
    split
    · exact hdate _ _
    · norm_num
  have hfits' : clock.1 < 2 ^ 16 ∧ clock.2.1 < 2 ^ 16 ∧ clock.2.2.1 < 2 ^ 16 ∧
      clock.2.2.2 < 2 ^ 32 := by
    rw [← htime]
    split
    · exact hclock _
    · norm_num
  simp only [hday, htime]
  exact ⟨by simp only; omega, hfits.2.1, hfits.2.2, hfits'.1, hfits'.2.1, hfits'.2.2.1, hfits'.2.2.2⟩

end Uniorm.Libpq
