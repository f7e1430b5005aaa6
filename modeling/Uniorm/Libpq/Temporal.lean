import Mathlib.Data.List.DropRight
import Uniorm.Libpq.Native
import Uniorm.Value.Clock

/-! # Dates and clocks as text

The server's texts of dates, clocks and timestamps, what this backend reads in them, and the texts it
binds a timestamp as. The reader takes four digits for a year and passes over what it does not
expect, so it is exact for the years the clock can hold and takes no notice of any other.
-/
namespace Uniorm.Libpq

open Foundation Value

/-- `std::to_string`. -/
def decimal (value : ℕ) : List UInt8 := (Nat.toDigits 10 value).map fun c => UInt8.ofNat c.toNat

def padded (value width : ℕ) : List UInt8 :=
  List.replicate (width - (decimal value).length) 48 ++ decimal value

/-- `text_of_timestamp`, from the parts on. -/
def textOfParts (parts : TimestampParts) (native : PgType) : List UInt8 :=
  let shape := shapeOf native
  let micros := parts.fractionNs / 1000
  let fraction := if micros ≠ 0 then 46 :: (padded micros 6).rdropWhile (· == 48) else []
  let clock := if shape.hasClock then
      padded parts.hour 2 ++ 58 :: padded parts.minute 2 ++ 58 :: padded parts.second 2 ++ fraction
    else []
  if !shape.hasDay then clock
  else
    let date :=
      padded (parts.year % 2 ^ 64).toNat 4 ++ 45 :: padded parts.month 2 ++ 45 :: padded parts.day 2
    if shape.hasClock then date ++ 32 :: clock else date

def textOfTimestamp (value : Int64) (native : PgType) : Option (List UInt8) :=
  (breakTimestamp? value).map fun parts => textOfParts parts native

/-- A time of day, with the digits of its fraction. -/
structure PgClock where
  hour : ℕ
  minute : ℕ
  second : ℕ
  fraction : List UInt8
  deriving DecidableEq, Repr

/-- The values of the columns without a time zone. The years before the first are counted
backwards from it. -/
inductive PgTemporal where
  | date (day : Civil)
  | time (clock : PgClock)
  | timestamp (day : Civil) (clock : PgClock)
  | infinity (negative hasClock : Bool)
  deriving DecidableEq, Repr

/-- The last midnight of a day has an hour of its own. -/
structure PgClock.Valid (c : PgClock) : Prop where
  hour : c.hour ≤ 24
  minute : c.minute < 60
  second : c.second < 60
  digits : ∀ byte ∈ c.fraction, isDigit byte = true
  fraction : c.fraction.length ≤ 6

namespace PgTemporal

def Valid : PgTemporal → Prop
  | date day => day.Valid
  | time clock => clock.Valid
  | timestamp day clock => day.Valid ∧ clock.Valid
  | infinity _ _ => True

def native : PgTemporal → PgType
  | date _ => .date
  | time _ => .time
  | timestamp _ _ => .timestamp
  | infinity _ hasClock => if hasClock then .timestamp else .date

end PgTemporal

def pgDate (day : Civil) : List UInt8 :=
  padded (if 0 < day.year then day.year else 1 - day.year).toNat 4 ++
    45 :: padded day.month 2 ++ 45 :: padded day.day 2

def pgEra (day : Civil) : List UInt8 := if 0 < day.year then [] else [32, 66, 67]

def PgClock.text (c : PgClock) : List UInt8 :=
  padded c.hour 2 ++ 58 :: padded c.minute 2 ++ 58 :: padded c.second 2 ++
    if c.fraction = [] then [] else 46 :: c.fraction

def PgTemporal.text : PgTemporal → List UInt8
  | date day => pgDate day ++ pgEra day
  | time clock => clock.text
  | timestamp day clock => pgDate day ++ 32 :: clock.text ++ pgEra day
  | infinity negative _ =>
    (if negative then [45] else []) ++ [105, 110, 102, 105, 110, 105, 116, 121]

def PgClock.nanoseconds (c : PgClock) : ℕ := digitsValue c.fraction * 10 ^ (9 - c.fraction.length)

/-- The parts of a value, with the half its type does not store; an infinite one has none. -/
def PgTemporal.parts : PgTemporal → Option TimestampParts
  | date day => some ⟨day.year, day.month, day.day, 0, 0, 0, 0⟩
  | time c => some ⟨1970, 1, 1, c.hour, c.minute, c.second, c.nanoseconds⟩
  | timestamp day c =>
    some ⟨day.year, day.month, day.day, c.hour, c.minute, c.second, c.nanoseconds⟩
  | infinity _ _ => none

def PgTemporal.instant (v : PgTemporal) : Option ℤ := v.parts.map TimestampParts.instant

/-- From the text of a cell to the member: the parts in a buffer, and the timestamp they make. The
way throws nothing. -/
def readTimestamp (native : PgType) (text : List UInt8) : Option Int64 :=
  makeTimestamp? (.ofBytes (partsOf text native).toBytes)

theorem toNat_of_isDigit {c : Char} (h : c.isDigit = true) :
    (UInt8.ofNat c.toNat).toNat = c.toNat ∧ 48 ≤ c.toNat ∧ c.toNat ≤ 57 := by
  unfold Char.isDigit at h
  simp only [Bool.and_eq_true, decide_eq_true_eq, ge_iff_le, UInt32.le_iff_toNat_le] at h
  have hlow : 48 ≤ c.toNat := h.1
  have hhigh : c.toNat ≤ 57 := h.2
  refine ⟨?_, hlow, hhigh⟩
  rw [UInt8.toNat_ofNat']
  omega

theorem isDigit_decimal (value : ℕ) : ∀ byte ∈ decimal value, isDigit byte = true := by
  intro byte hbyte
  obtain ⟨c, hc, rfl⟩ := List.mem_map.mp hbyte
  obtain ⟨hbyte, hlow, hhigh⟩ :=
    toNat_of_isDigit (Nat.isDigit_of_mem_toDigits (by decide) (by decide) hc)
  unfold isDigit
  rw [Bool.and_eq_true, decide_eq_true_eq, decide_eq_true_eq, UInt8.le_iff_toNat_le,
    UInt8.le_iff_toNat_le, hbyte]
  exact ⟨hlow, hhigh⟩

theorem digitsValue_decimal (value : ℕ) : digitsValue (decimal value) = value := by
  have hfold : ∀ (cs : List Char) (n : ℕ), (∀ c ∈ cs, c.isDigit = true) →
      (cs.map fun c => UInt8.ofNat c.toNat).foldl (fun n byte => n * 10 + (byte.toNat - 48)) n =
        Nat.ofDigitChars 10 cs n := by
    intro cs
    induction cs with
    | nil => exact fun _ _ => rfl
    | cons c cs ih =>
      intro n hdigits
      rw [List.map_cons, List.foldl_cons, ih _ fun d hd => hdigits d (List.mem_cons_of_mem _ hd),
        (toNat_of_isDigit (hdigits c List.mem_cons_self)).1, Nat.mul_comm n]
      rfl
  have hdigits : ∀ c ∈ Nat.toDigits 10 value, c.isDigit = true := fun c hc =>
    Nat.isDigit_of_mem_toDigits (by decide) (by decide) hc
  rw [digitsValue, decimal, hfold _ 0 hdigits, Nat.ofDigitChars_ten_toDigits]

theorem length_decimal_le {value width : ℕ} (hwidth : 0 < width) (h : value < 10 ^ width) :
    (decimal value).length ≤ width := by
  rw [decimal, List.length_map]
  exact (Nat.length_toDigits_le_iff (by decide) hwidth).mpr h

theorem isDigit_padded (value width : ℕ) : ∀ byte ∈ padded value width, isDigit byte = true := by
  intro byte hbyte
  rcases List.mem_append.mp hbyte with hzero | hdigit
  · rw [List.eq_of_mem_replicate hzero]
    rfl
  · exact isDigit_decimal value byte hdigit

theorem length_padded {value width : ℕ} (hwidth : 0 < width) (h : value < 10 ^ width) :
    (padded value width).length = width := by
  have hle := length_decimal_le hwidth h
  rw [padded, List.length_append, List.length_replicate]
  omega

theorem digitsValue_append (front back : List UInt8) : digitsValue (front ++ back) =
    back.foldl (fun n byte => n * 10 + (byte.toNat - 48)) (digitsValue front) :=
  List.foldl_append ..

theorem digitsValue_padded (value width : ℕ) : digitsValue (padded value width) = value := by
  have hzeros : ∀ k, digitsValue (List.replicate k 48) = 0 := by
    intro k
    induction k with
    | zero => rfl
    | succ k ih =>
      rw [List.replicate_succ', digitsValue_append, ih]
      rfl
  rw [padded, digitsValue_append, hzeros]
  exact digitsValue_decimal value

theorem digitsValue_append_zeros (digits : List UInt8) (k : ℕ) :
    digitsValue (digits ++ List.replicate k 48) = digitsValue digits * 10 ^ k := by
  induction k with
  | zero => simp
  | succ k ih =>
    rw [List.replicate_succ', ← List.append_assoc, digitsValue_append, ih, pow_succ, ← Nat.mul_assoc]
    rfl

/-- As many digits as are wanted are taken, whatever stands behind them. -/
theorem takeDigits_append {digits : List UInt8} (h : ∀ byte ∈ digits, isDigit byte = true)
    (value : ℕ) (rest : List UInt8) : takeDigits value (digits ++ rest) digits.length =
      (digits.foldl (fun n byte => n * 10 + (byte.toNat - 48)) value, rest) := by
  induction digits generalizing value with
  | nil => cases rest <;> rfl
  | cons byte digits ih =>
    rw [List.cons_append, List.length_cons, takeDigits, if_pos (h byte List.mem_cons_self),
      ih fun b hb => h b (List.mem_cons_of_mem _ hb)]
    rfl

theorem takeDigits_padded {value width : ℕ} (hwidth : 0 < width) (h : value < 10 ^ width)
    (rest : List UInt8) : takeDigits 0 (padded value width ++ rest) width = (value, rest) := by
  have htake := takeDigits_append (isDigit_padded value width) 0 rest
  rw [length_padded hwidth h] at htake
  rw [htake]
  exact congrArg (·, rest) (digitsValue_padded value width)

theorem takeFraction_digits {digits : List UInt8} (h : ∀ byte ∈ digits, isDigit byte = true)
    (hlength : digits.length ≤ 9) :
    takeFraction digits = digitsValue digits * 10 ^ (9 - digits.length) := by
  have htake : digits.take 9 = digits := List.take_of_length_le hlength
  have hwhile : digits.takeWhile isDigit = digits := List.takeWhile_eq_self_iff.mpr h
  unfold takeFraction
  simp only [htake, hwhile]

theorem skip_self (byte : UInt8) (rest : List UInt8) : skip byte (byte :: rest) = rest := if_pos rfl

/-- A clock is read as it was written. -/
theorem clockPartsOf_text {c : PgClock} (h : c.Valid) :
    clockPartsOf c.text = (c.hour, c.minute, c.second, c.nanoseconds) := by
  have hhour : c.hour < 10 ^ 2 := h.hour.trans_lt (by decide)
  have hminute : c.minute < 10 ^ 2 := h.minute.trans (by decide)
  have hsecond : c.second < 10 ^ 2 := h.second.trans (by decide)
  have hlength : c.fraction.length ≤ 9 := h.fraction.trans (by decide)
  unfold clockPartsOf PgClock.text PgClock.nanoseconds
  simp only [List.append_assoc, List.cons_append, takeDigits_padded (Nat.succ_pos 1) hhour,
    takeDigits_padded (Nat.succ_pos 1) hminute, takeDigits_padded (Nat.succ_pos 1) hsecond, skip_self]
  by_cases hempty : c.fraction = []
  · simp [hempty, digitsValue]
  · simp [hempty, takeFraction_digits h.digits hlength]

/-- A date of a year of four digits is read as it was written. -/
theorem datePartsOf_pgDate {day : Civil} (h : day.Valid) (hyear : 0 < day.year ∧ day.year < 10000)
    (wantsTime : Bool) (rest : List UInt8) : datePartsOf (pgDate day ++ rest) wantsTime =
      ((day.year.toNat, day.month, day.day),
        if wantsTime then if rest.head? = some 32 ∨ rest.head? = some 84 then rest.tail else rest
        else rest) := by
  have hy : day.year.toNat < 10 ^ 4 := by omega
  have hm : day.month < 10 ^ 2 := by
    have hlast := h.month.2
    omega
  have hd : day.day < 10 ^ 2 := by
    have hlast := h.day.2.trans (Civil.lastDay_le _ _)
    omega
  unfold datePartsOf pgDate
  simp only [if_pos hyear.1, List.append_assoc, List.cons_append,
    takeDigits_padded (Nat.succ_pos 3) hy, takeDigits_padded (Nat.succ_pos 1) hm,
    takeDigits_padded (Nat.succ_pos 1) hd, skip_self]

/-- What the server writes within the years of four digits is read as it was written. -/
theorem partsOf_text {v : PgTemporal} (h : v.Valid) {parts : TimestampParts}
    (hparts : v.parts = some parts) (hyear : 0 < parts.year ∧ parts.year < 10000)
    {native : PgType} (hnative : shapeOf native = shapeOf v.native) :
    partsOf v.text native = parts := by
  unfold partsOf
  rw [hnative]
  cases v with
  | date day =>
    obtain rfl := Option.some.inj hparts
    have hera : pgEra day = [] := if_pos hyear.1
    simp only [PgTemporal.native, PgTemporal.text, shapeOf, if_true, Bool.false_eq_true, if_false,
      hera, datePartsOf_pgDate h hyear, TimestampParts.mk.injEq, and_true]
    exact Int.toNat_of_nonneg hyear.1.le
  | time clock =>
    obtain rfl := Option.some.inj hparts
    simp only [PgTemporal.native, PgTemporal.text, shapeOf, if_true, Bool.false_eq_true, if_false,
      clockPartsOf_text h, Nat.cast_ofNat]
  | timestamp day clock =>
    obtain rfl := Option.some.inj hparts
    have hera : pgEra day = [] := if_pos hyear.1
    simp only [PgTemporal.native, PgTemporal.text, shapeOf, if_true, hera, List.append_nil,
      datePartsOf_pgDate h.1 hyear, List.head?_cons, true_or, List.tail_cons, clockPartsOf_text h.2,
      TimestampParts.mk.injEq, and_true]
    exact Int.toNat_of_nonneg hyear.1.le
  | infinity negative hasClock => cases hparts

/-- The date of an instant in the range of the clock. -/
theorem year_of_day (day : Civil) (h : day.Valid) (hlow : -106754 ≤ day.toDays)
    (hhigh : day.toDays ≤ 106752) : 0 < day.year ∧ day.year < 10000 := by
  have hbounds : 4 * 400 ≤ (Civil.ofDays day.toDays).year ∧
      (Civil.ofDays day.toDays).year ≤ 6 * 400 := by
    apply Civil.year_ofDays_bounds
    · unfold Civil.daysOfEra Civil.epoch
      omega
    · unfold Civil.daysOfEra Civil.epoch
      omega
  rw [Civil.ofDays_toDays h] at hbounds
  omega

theorem PgClock.Valid.nanoseconds_lt {c : PgClock} (h : c.Valid) : c.nanoseconds < 1000000000 := by
  have hlength := h.fraction
  calc digitsValue c.fraction * 10 ^ (9 - c.fraction.length)
      < 10 ^ c.fraction.length * 10 ^ (9 - c.fraction.length) :=
        Nat.mul_lt_mul_of_pos_right (digitsValue_lt h.digits) (Nat.pow_pos (by decide))
    _ = 10 ^ 9 := by rw [← pow_add, Nat.add_sub_cancel' (by omega)]

theorem PgTemporal.Valid.clock {v : PgTemporal} (h : v.Valid) {parts : TimestampParts}
    (hparts : v.parts = some parts) : parts.Clock := by
  cases v with
  | date day =>
    obtain rfl := Option.some.inj hparts
    exact ⟨Nat.zero_le _, Nat.succ_pos _, Nat.succ_pos _, Nat.succ_pos _⟩
  | time c =>
    obtain rfl := Option.some.inj hparts
    exact ⟨h.hour, h.minute, h.second, h.nanoseconds_lt⟩
  | timestamp day c =>
    obtain rfl := Option.some.inj hparts
    exact ⟨h.2.hour, h.2.minute, h.2.second, h.2.nanoseconds_lt⟩
  | infinity negative hasClock => cases hparts

/-- An instant in the range of the clock is written with a year of four digits. -/
theorem PgTemporal.Valid.year {v : PgTemporal} (h : v.Valid) {parts : TimestampParts}
    (hparts : v.parts = some parts) (hrange : -2 ^ 63 ≤ parts.instant ∧ parts.instant < 2 ^ 63) :
    0 < parts.year ∧ parts.year < 10000 := by
  obtain ⟨hhour, hminute, hsecond, hfraction⟩ := h.clock hparts
  have hdays : -106754 ≤ Civil.toDays ⟨parts.year, parts.month, parts.day⟩ ∧
      Civil.toDays ⟨parts.year, parts.month, parts.day⟩ ≤ 106752 := by
    unfold TimestampParts.instant nanosecondsPerDay at hrange
    omega
  cases v with
  | date day =>
    obtain rfl := Option.some.inj hparts
    exact year_of_day day h hdays.1 hdays.2
  | time c =>
    obtain rfl := Option.some.inj hparts
    exact ⟨by simp, by simp⟩
  | timestamp day c =>
    obtain rfl := Option.some.inj hparts
    exact year_of_day day h.1 hdays.1 hdays.2
  | infinity negative hasClock => cases hparts

/-- What the member receives of a value whose instant is in the range of the clock. -/
theorem readTimestamp_eq_some {v : PgTemporal} (h : v.Valid) {n : ℤ} (hn : v.instant = some n)
    (hrange : -2 ^ 63 ≤ n ∧ n < 2 ^ 63) (tp : Int64) :
    readTimestamp v.native v.text = some tp ↔ tp.toInt = n ∧ firstWholeSecond ≤ n := by
  obtain ⟨parts, hparts, rfl⟩ := Option.map_eq_some_iff.mp hn
  unfold readTimestamp
  rw [TimestampParts.ofBytes_toBytes (fits_partsOf _ _),
    partsOf_text h hparts (h.year hparts hrange) rfl, makeTimestamp?_eq_some (h.clock hparts)]

/-- A read of what the server writes yields the instant of the text exactly when the text denotes an
instant that the clock can hold, from its first whole second on. The years before the first and
behind the last four-digit one, the infinities and what lies outside the clock's range are read all
the same, as some other instant or through an overflow: the read throws nothing. -/
theorem temporal_read_exact_iff {v : PgTemporal} (h : v.Valid) :
    (∃ tp, readTimestamp v.native v.text = some tp ∧ v.instant = some tp.toInt) ↔
      ∃ n, v.instant = some n ∧ firstWholeSecond ≤ n ∧ n < 2 ^ 63 := by
  constructor
  · rintro ⟨tp, hread, hinstant⟩
    rw [readTimestamp_eq_some h hinstant ⟨tp.le_toInt, tp.toInt_lt⟩] at hread
    exact ⟨tp.toInt, hinstant, hread.2, tp.toInt_lt⟩
  · rintro ⟨n, hinstant, hlow, hhigh⟩
    have hfirst : -2 ^ 63 ≤ firstWholeSecond := by decide
    have htp : (Int64.ofInt n).toInt = n := Int64.toInt_ofInt_of_le (hfirst.trans hlow) hhigh
    refine ⟨Int64.ofInt n, ?_, by rw [hinstant, htp]⟩
    rw [readTimestamp_eq_some h hinstant ⟨hfirst.trans hlow, hhigh⟩]
    exact ⟨htp, hlow⟩

def lastOfLeapDay : PgTemporal := .timestamp ⟨2024, 2, 29⟩ ⟨23, 59, 59, [57, 57, 57, 57, 57, 57]⟩

theorem leap_day_read_exactly : ∃ tp, readTimestamp lastOfLeapDay.native lastOfLeapDay.text =
    some tp ∧ lastOfLeapDay.instant = some tp.toInt := by
  have hvalid : lastOfLeapDay.Valid := by
    refine ⟨⟨by decide, by decide⟩, by decide, by decide, by decide, ?_, by decide⟩
    exact List.all_eq_true.mp (by decide)
  exact (temporal_read_exact_iff hvalid).mpr
    ⟨1709251199999999000, by decide, by decide, by decide⟩

/-- The second of January 2024 BC is read as that of 2024. -/
theorem era_is_not_read : (PgTemporal.date ⟨-2023, 1, 2⟩).Valid ∧
    (PgTemporal.date ⟨-2023, 1, 2⟩).text =
      [50, 48, 50, 52, 45, 48, 49, 45, 48, 50, 32, 66, 67] ∧
    readTimestamp .date [50, 48, 50, 52, 45, 48, 49, 45, 48, 50, 32, 66, 67] =
      some 1704153600000000000 ∧
    (PgTemporal.date ⟨-2023, 1, 2⟩).instant ≠ some 1704153600000000000 := by
  refine ⟨⟨by decide, by decide⟩, by decide, by decide, by decide⟩

def storedIn (shape : TextShape) (p : TimestampParts) : TimestampParts where
  year := if shape.hasDay then p.year else 1970
  month := if shape.hasDay then p.month else 1
  day := if shape.hasDay then p.day else 1
  hour := if shape.hasClock then p.hour else 0
  minute := if shape.hasClock then p.minute else 0
  second := if shape.hasClock then p.second else 0
  fractionNs := if shape.hasClock then p.fractionNs / 1000 * 1000 else 0

def PgTemporal.fraction : PgTemporal → List UInt8
  | time clock => clock.fraction
  | timestamp _ clock => clock.fraction
  | _ => []

/-- A text is what the server itself writes for a value of a shape, and no digit of its fraction could
be left out. -/
structure PgTemporal.WrittenAs (v : PgTemporal) (native : PgType) (text : List UInt8) : Prop where
  valid : v.Valid
  text : v.text = text
  shape : shapeOf v.native = shapeOf native
  year : ∀ parts, v.parts = some parts → 0 < parts.year ∧ parts.year < 10000
  trimmed : v.fraction.getLast? ≠ some 48

/-- The digits of a fraction without the zeros at its end. -/
def trimmedFraction (micros : ℕ) : List UInt8 :=
  if micros ≠ 0 then (padded micros 6).rdropWhile (· == 48) else []

theorem trimmedFraction_spec {micros : ℕ} (h : micros < 10 ^ 6) :
    (∀ byte ∈ trimmedFraction micros, isDigit byte = true) ∧ (trimmedFraction micros).length ≤ 6 ∧
      (trimmedFraction micros).getLast? ≠ some 48 ∧
      (trimmedFraction micros = [] ↔ micros = 0) ∧
      digitsValue (trimmedFraction micros) * 10 ^ (9 - (trimmedFraction micros).length) =
        micros * 1000 := by
  unfold trimmedFraction
  by_cases hzero : micros = 0
  · simp [hzero, digitsValue]
  rw [if_pos hzero]
  have hlength := length_padded (Nat.succ_pos 5) h
  have hvalue := digitsValue_padded micros 6
  have hdigits := isDigit_padded micros 6
  generalize padded micros 6 = digits at *
  have hsplit := List.rdropWhile_append_rtakeWhile (p := (· == (48 : UInt8))) (l := digits)
  have hlast := List.rdropWhile_last_not (fun byte : UInt8 => byte == 48) digits
  have hzeros : digits.rtakeWhile (· == 48) =
      List.replicate (digits.rtakeWhile (· == 48)).length 48 :=
    List.eq_replicate_of_mem fun byte hbyte => by
      simpa using List.mem_rtakeWhile_imp (p := (· == (48 : UInt8))) hbyte
  generalize digits.rdropWhile (· == 48) = kept at *
  generalize (digits.rtakeWhile (· == 48)).length = k at *
  rw [hzeros] at hsplit
  rw [← hsplit, List.length_append, List.length_replicate] at hlength
  rw [← hsplit, digitsValue_append_zeros] at hvalue
  refine ⟨fun byte hbyte => hdigits byte (hsplit ▸ List.mem_append_left _ hbyte), by omega, ?_, ?_, ?_⟩
  · intro hend
    obtain ⟨hne, hend⟩ := List.mem_getLast?_eq_getLast hend
    exact hlast hne (by simp [← hend])
  · refine ⟨?_, fun h => absurd h hzero⟩
    rintro rfl
    exact absurd (by simpa [digitsValue] using hvalue.symm) hzero
  · have hpow : 10 ^ (9 - kept.length) = 10 ^ k * 1000 := by
      rw [show 9 - kept.length = k + 3 by omega, pow_add]
      rfl
    rw [hpow, ← Nat.mul_assoc, hvalue]

def writtenValue (p : TimestampParts) (shape : TextShape) : PgTemporal :=
  let clock : PgClock := ⟨p.hour, p.minute, p.second, trimmedFraction (p.fractionNs / 1000)⟩
  if !shape.hasDay then .time clock
  else if shape.hasClock then .timestamp ⟨p.year, p.month, p.day⟩ clock
  else .date ⟨p.year, p.month, p.day⟩

theorem shapeOf_stores (native : PgType) :
    (shapeOf native).hasDay = true ∨ (shapeOf native).hasClock = true := by
  unfold shapeOf
  split <;> simp

theorem textOfParts_eq {p : TimestampParts} (h : p.Valid) (hyear : 0 < p.year ∧ p.year < 10000)
    (native : PgType) : textOfParts p native = (writtenValue p (shapeOf native)).text := by
  have hmod : p.year % 2 ^ 64 = p.year := by omega
  have hmicros : p.fractionNs / 1000 < 10 ^ 6 := by
    have hlt := h.fractionNs
    omega
  obtain ⟨-, -, -, hnone, -⟩ := trimmedFraction_spec hmicros
  have hfraction : (if p.fractionNs / 1000 ≠ 0
      then 46 :: (padded (p.fractionNs / 1000) 6).rdropWhile (· == 48) else []) =
      if trimmedFraction (p.fractionNs / 1000) = [] then []
      else 46 :: trimmedFraction (p.fractionNs / 1000) := by
    by_cases hzero : p.fractionNs / 1000 = 0
    · rw [if_neg (not_not.mpr hzero), if_pos (hnone.mpr hzero)]
    · rw [if_pos hzero, if_neg (mt hnone.mp hzero), trimmedFraction, if_pos hzero]
  have hstores := shapeOf_stores native
  unfold textOfParts writtenValue
  simp only [hfraction, hmod]
  generalize shapeOf native = shape at *
  rcases shape with ⟨_ | _, _ | _⟩
  · simp at hstores
  · rfl
  · simp [PgTemporal.text, pgDate, pgEra, hyear.1]
  · simp [PgTemporal.text, PgClock.text, pgDate, pgEra, hyear.1]

/-- What this backend binds a timestamp as is read back as its parts, as far as the type of the
column stores them, and is the text the server itself has for them. -/
theorem timestamp_text_round_trip {tp : Int64} {p : TimestampParts}
    (h : breakTimestamp? tp = some p) (native : PgType) : ∃ text v,
    textOfTimestamp tp native = some text ∧
      partsOf text native = storedIn (shapeOf native) p ∧
      PgTemporal.WrittenAs v native text ∧ v.parts = some (storedIn (shapeOf native) p) := by
  have hbreak : p = breakTimestamp tp ∧ firstWholeDay ≤ tp.toInt := by
    rw [breakTimestamp?_eq] at h
    split_ifs at h with hwhole
    exact ⟨(Option.some.inj h).symm, hwhole⟩
  have hvalid : p.Valid := hbreak.1 ▸ valid_breakTimestamp tp
  have hyear : 0 < p.year ∧ p.year < 10000 := by
    have hera := year_breakTimestamp tp
    rw [hbreak.1]
    omega
  have hmicros : p.fractionNs / 1000 < 10 ^ 6 := by
    have hlt := hvalid.fractionNs
    omega
  obtain ⟨hdigits, hlength, hlast, -, hvalue⟩ := trimmedFraction_spec hmicros
  have hclock : PgClock.Valid ⟨p.hour, p.minute, p.second, trimmedFraction (p.fractionNs / 1000)⟩ :=
    ⟨hvalid.hour.le, hvalid.minute, hvalid.second, hdigits, hlength⟩
  have hwritten : (writtenValue p (shapeOf native)).Valid ∧
      shapeOf (writtenValue p (shapeOf native)).native = shapeOf native ∧
      (writtenValue p (shapeOf native)).parts = some (storedIn (shapeOf native) p) ∧
      (writtenValue p (shapeOf native)).fraction.getLast? ≠ some 48 := by
    have hstores := shapeOf_stores native
    unfold writtenValue storedIn
    generalize shapeOf native = shape at *
    rcases shape with ⟨_ | _, _ | _⟩
    · simp at hstores
    · refine ⟨hclock, rfl, ?_, hlast⟩
      simp [PgTemporal.parts, PgClock.nanoseconds, hvalue]
    · exact ⟨hvalid.date, rfl, rfl, by simp [PgTemporal.fraction]⟩
    · refine ⟨⟨hvalid.date, hclock⟩, rfl, ?_, hlast⟩
      simp [PgTemporal.parts, PgClock.nanoseconds, hvalue]
  obtain ⟨hv, hshape, hparts, htrimmed⟩ := hwritten
  have hfour : 0 < (storedIn (shapeOf native) p).year ∧
      (storedIn (shapeOf native) p).year < 10000 := by
    unfold storedIn
    simp only
    split_ifs
    · exact hyear
    · decide
  refine ⟨textOfParts p native, writtenValue p (shapeOf native), by rw [textOfTimestamp, h]; rfl, ?_,
    ⟨hv, (textOfParts_eq hvalid hyear native).symm, hshape, ?_, htrimmed⟩, hparts⟩
  · rw [textOfParts_eq hvalid hyear]
    exact partsOf_text hv hparts hfour hshape.symm
  · intro parts hsome
    obtain rfl := Option.some.inj (hparts.symm.trans hsome)
    exact hfour

/-- A fraction that begins and ends with zeros, and its part below a microsecond. -/
theorem fraction_round_trip : ∃ text v, textOfTimestamp 45000100 .timestamp = some text ∧
    partsOf text .timestamp = ⟨1970, 1, 1, 0, 0, 0, 45000000⟩ ∧
      PgTemporal.WrittenAs v .timestamp text ∧ v.parts = some ⟨1970, 1, 1, 0, 0, 0, 45000000⟩ :=
  @timestamp_text_round_trip _ ⟨1970, 1, 1, 0, 0, 0, 45000100⟩ (by decide) .timestamp

end Uniorm.Libpq
