import Mathlib.Data.Int.Basic
import Mathlib.Tactic.Common
import Mathlib.Tactic.IntervalCases

/-! # The civil calendar

The proleptic Gregorian calendar: a day counted from the first of January 1970, and the same day as
a year, a month and a day of the month. It repeats every 400 years. Within such an era years begin in
March, so that a leap day is the last day of its year.
-/
namespace Uniorm.Foundation

structure Civil where
  year : ℤ
  month : ℕ
  day : ℕ
  deriving DecidableEq, Repr

namespace Civil

/-- The days from the first of March of the year 0 to the first of January 1970. -/
def epoch : ℕ := 719468

def daysOfEra : ℕ := 146097

/-- The century of an era, the four years of a century and the year of four years that a day falls
into. The last of each has one day more than the others or one less, and takes what is left. -/
def century (dayOfEra : ℕ) : ℕ := min (dayOfEra / 36524) 3

def quad (dayOfCentury : ℕ) : ℕ := dayOfCentury / 1461

def yearOfQuad (dayOfQuad : ℕ) : ℕ := min (dayOfQuad / 365) 3

def yearOfEra (dayOfEra : ℕ) : ℕ :=
  let dayOfCentury := dayOfEra - 36524 * century dayOfEra
  let dayOfQuad := dayOfCentury - 1461 * quad dayOfCentury
  100 * century dayOfEra + 4 * quad dayOfCentury + yearOfQuad dayOfQuad

def startOfYear (yearOfEra : ℕ) : ℕ := 365 * yearOfEra + yearOfEra / 4 - yearOfEra / 100

/-- The first day in its year of a month counted from March. -/
def startOfMonth (month : ℕ) : ℕ := (153 * month + 2) / 5

def monthOfYear (dayOfYear : ℕ) : ℕ := (5 * dayOfYear + 2) / 153

def ofDays (days : ℤ) : Civil :=
  let shifted := days + epoch
  let era := shifted / daysOfEra
  let dayOfEra := (shifted % daysOfEra).toNat
  let year := yearOfEra dayOfEra
  let dayOfYear := dayOfEra - startOfYear year
  let month := monthOfYear dayOfYear
  { year := (year : ℤ) + era * 400 + if month < 10 then 0 else 1
    month := if month < 10 then month + 3 else month - 9
    day := dayOfYear - startOfMonth month + 1 }

def toDays (c : Civil) : ℤ :=
  let year := if c.month ≤ 2 then c.year - 1 else c.year
  let era := year / 400
  let year := (year % 400).toNat
  let month := if c.month > 2 then c.month - 3 else c.month + 9
  let dayOfYear := startOfMonth month + c.day - 1
  era * daysOfEra + (startOfYear year + dayOfYear : ℕ) - epoch

def IsLeap (year : ℤ) : Prop := year % 4 = 0 ∧ (year % 100 ≠ 0 ∨ year % 400 = 0)

instance (year : ℤ) : Decidable (IsLeap year) :=
  inferInstanceAs (Decidable (year % 4 = 0 ∧ (year % 100 ≠ 0 ∨ year % 400 = 0)))

def lastDay (year : ℤ) (month : ℕ) : ℕ :=
  if month = 2 then if IsLeap year then 29 else 28
  else if month = 4 ∨ month = 6 ∨ month = 9 ∨ month = 11 then 30
  else 31

structure Valid (c : Civil) : Prop where
  month : 1 ≤ c.month ∧ c.month ≤ 12
  day : 1 ≤ c.day ∧ c.day ≤ lastDay c.year c.month

def tomorrow (c : Civil) : Civil :=
  if c.day < lastDay c.year c.month then { c with day := c.day + 1 }
  else if c.month < 12 then { c with month := c.month + 1, day := 1 }
  else ⟨c.year + 1, 1, 1⟩

theorem lastDay_le (year : ℤ) (month : ℕ) : lastDay year month ≤ 31 := by
  unfold lastDay
  split_ifs <;> decide

def lengthOfYear (year : ℕ) : ℕ := if IsLeap (year + 1) then 366 else 365

def lengthOfMonth (year month : ℕ) : ℕ :=
  if month = 11 then lengthOfYear year - startOfMonth 11
  else startOfMonth (month + 1) - startOfMonth month

theorem isLeap_succ {year : ℕ} : IsLeap (year + 1) ↔
    (year + 1) % 4 = 0 ∧ ((year + 1) % 100 ≠ 0 ∨ (year + 1) % 400 = 0) := by
  unfold IsLeap
  omega

/-- A year lasts until the next one, and the last of an era until the era is over. -/
theorem startOfYear_add_length {year : ℕ} (h : year < 400) :
    startOfYear year + lengthOfYear year =
      if year = 399 then daysOfEra else startOfYear (year + 1) := by
  unfold lengthOfYear startOfYear daysOfEra
  by_cases hleap : IsLeap (year + 1)
  · rw [if_pos hleap]
    rw [isLeap_succ] at hleap
    split_ifs <;> omega
  · rw [if_neg hleap]
    rw [isLeap_succ] at hleap
    split_ifs <;> omega

theorem startOfYear_mono {year year' : ℕ} (h : year ≤ year') :
    startOfYear year ≤ startOfYear year' := by
  have hquads : year / 4 ≤ year' / 4 := Nat.div_le_div_right h
  have hcenturies : year' / 100 ≤ year / 100 + (year' - year) := by omega
  unfold startOfYear
  omega

theorem startOfMonth_add_length (year month : ℕ) :
    startOfMonth month + lengthOfMonth year month =
      if month = 11 then lengthOfYear year else startOfMonth (month + 1) := by
  unfold lengthOfMonth lengthOfYear startOfMonth
  split_ifs <;> omega

theorem startOfMonth_mono {month month' : ℕ} (h : month ≤ month') :
    startOfMonth month ≤ startOfMonth month' := by
  unfold startOfMonth
  omega

theorem lengthOfMonth_pos (year month : ℕ) : 0 < lengthOfMonth year month := by
  unfold lengthOfMonth lengthOfYear startOfMonth
  split_ifs <;> omega

theorem lengthOfYear_le (year : ℕ) : lengthOfYear year ≤ 366 := by
  unfold lengthOfYear
  split_ifs <;> decide

theorem yearOfEra_spec {dayOfEra : ℕ} (h : dayOfEra < daysOfEra) :
    yearOfEra dayOfEra < 400 ∧ startOfYear (yearOfEra dayOfEra) ≤ dayOfEra ∧
      dayOfEra < startOfYear (yearOfEra dayOfEra) + lengthOfYear (yearOfEra dayOfEra) := by
  unfold daysOfEra at h
  unfold yearOfEra
  have hcentury : century dayOfEra ≤ 3 ∧ 36524 * century dayOfEra ≤ dayOfEra ∧
      dayOfEra - 36524 * century dayOfEra ≤ 36524 ∧
      (century dayOfEra < 3 → dayOfEra - 36524 * century dayOfEra < 36524) := by
    unfold century
    omega
  generalize century dayOfEra = c at *
  obtain ⟨dayOfCentury, hday⟩ : ∃ d, dayOfEra - 36524 * c = d := ⟨_, rfl⟩
  simp only [hday] at hcentury ⊢
  have hquad : quad dayOfCentury ≤ 24 ∧ 1461 * quad dayOfCentury ≤ dayOfCentury ∧
      dayOfCentury - 1461 * quad dayOfCentury ≤ 1460 := by
    unfold quad
    omega
  generalize quad dayOfCentury = q at *
  obtain ⟨dayOfQuad, hday'⟩ : ∃ d, dayOfCentury - 1461 * q = d := ⟨_, rfl⟩
  simp only [hday'] at hquad ⊢
  have hyear : yearOfQuad dayOfQuad ≤ 3 ∧ 365 * yearOfQuad dayOfQuad ≤ dayOfQuad ∧
      dayOfQuad - 365 * yearOfQuad dayOfQuad ≤ 365 ∧
      (yearOfQuad dayOfQuad < 3 → dayOfQuad - 365 * yearOfQuad dayOfQuad < 365) := by
    unfold yearOfQuad
    omega
  generalize yearOfQuad dayOfQuad = y at *
  have hstart : startOfYear (100 * c + 4 * q + y) = 36524 * c + 1461 * q + 365 * y := by
    unfold startOfYear
    omega
  -- only the last year of four is long, unless it ends a century that does not end an era
  have hlength : dayOfQuad - 365 * y < lengthOfYear (100 * c + 4 * q + y) := by
    unfold lengthOfYear
    split_ifs with hleap
    · omega
    · rw [isLeap_succ] at hleap
      omega
  rw [hstart]
  omega

theorem yearOfEra_unique {year dayOfEra : ℕ} (hyear : year < 400)
    (hstart : startOfYear year ≤ dayOfEra)
    (hend : dayOfEra < startOfYear year + lengthOfYear year) : yearOfEra dayOfEra = year := by
  have hends : ∀ {y y' : ℕ}, y < y' → y' < 400 →
      startOfYear y + lengthOfYear y ≤ startOfYear y' := by
    intro y y' hlt hlast
    rw [startOfYear_add_length (by omega), if_neg (by omega)]
    exact startOfYear_mono hlt
  have hera : dayOfEra < daysOfEra := by
    have hlast := startOfYear_add_length (show 399 < 400 by decide)
    rcases Nat.lt_or_ge year 399 with hlt | hge
    · have hle := hends hlt (by decide)
      rw [if_pos rfl] at hlast
      omega
    · obtain rfl : year = 399 := by omega
      rwa [hlast] at hend
  obtain ⟨hfound, hfirst, hbefore⟩ := yearOfEra_spec hera
  by_contra hne
  rcases Nat.lt_or_gt_of_ne hne with hlt | hgt
  · have hle := hends hlt hyear
    omega
  · have hle := hends hgt hfound
    omega

theorem monthOfYear_spec {year dayOfYear : ℕ} (h : dayOfYear < lengthOfYear year) :
    monthOfYear dayOfYear < 12 ∧ startOfMonth (monthOfYear dayOfYear) ≤ dayOfYear ∧
      dayOfYear < startOfMonth (monthOfYear dayOfYear) +
        lengthOfMonth year (monthOfYear dayOfYear) := by
  have hlength := lengthOfYear_le year
  have hmonth : monthOfYear dayOfYear < 12 := by
    unfold monthOfYear
    omega
  refine ⟨hmonth, ?_, ?_⟩
  · unfold startOfMonth monthOfYear
    omega
  · rw [startOfMonth_add_length]
    split_ifs
    · exact h
    · unfold startOfMonth monthOfYear
      omega

theorem monthOfYear_unique {year month dayOfYear : ℕ} (hstart : startOfMonth month ≤ dayOfYear)
    (hend : dayOfYear < startOfMonth month + lengthOfMonth year month) :
    monthOfYear dayOfYear = month := by
  have hlength := lengthOfYear_le year
  rw [startOfMonth_add_length] at hend
  unfold monthOfYear
  unfold startOfMonth at hstart hend
  split_ifs at hend <;> omega

def ofParts (era : ℤ) (year month day : ℕ) : Civil where
  year := (year : ℤ) + era * 400 + if month < 10 then 0 else 1
  month := if month < 10 then month + 3 else month - 9
  day := day + 1

section OfParts
variable (era : ℤ) {year month day : ℕ}

theorem lastDay_ofParts (_ : month < 12) (day : ℕ) :
    lastDay (ofParts era year month day).year (ofParts era year month day).month =
      lengthOfMonth year month := by
  have hleap : IsLeap ((year : ℤ) + era * 400 + 1) ↔ IsLeap (year + 1) := by
    unfold IsLeap
    omega
  interval_cases month <;>
    simp [lengthOfMonth, lastDay, ofParts, startOfMonth, lengthOfYear, hleap]
  split_ifs <;> rfl

theorem valid_ofParts (hmonth : month < 12) (hday : day < lengthOfMonth year month) :
    (ofParts era year month day).Valid := by
  refine ⟨?_, Nat.succ_pos day, ?_⟩
  · unfold ofParts
    simp only
    split_ifs <;> omega
  · rw [lastDay_ofParts era hmonth]
    exact hday

theorem toDays_ofParts (hyear : year < 400) (hmonth : month < 12) (day : ℕ) :
    (ofParts era year month day).toDays =
      era * daysOfEra + (startOfYear year + startOfMonth month + day : ℕ) - epoch := by
  have hshift : (if (if month < 10 then month + 3 else month - 9) ≤ 2
      then ((year : ℤ) + era * 400 + if month < 10 then 0 else 1) - 1
      else (year : ℤ) + era * 400 + if month < 10 then 0 else 1) = year + era * 400 := by
    split_ifs <;> omega
  have hback : (if (if month < 10 then month + 3 else month - 9) > 2
      then (if month < 10 then month + 3 else month - 9) - 3
      else (if month < 10 then month + 3 else month - 9) + 9) = month := by
    split_ifs <;> omega
  have hdiv : ((year : ℤ) + era * 400) / 400 = era := by omega
  have hmod : (((year : ℤ) + era * 400) % 400).toNat = year := by omega
  unfold toDays ofParts
  simp only [hshift, hback, hdiv, hmod]
  omega

theorem tomorrow_ofParts (hyear : year < 400) (hmonth : month < 12) :
    (ofParts era year month day).tomorrow =
      if day + 1 < lengthOfMonth year month then ofParts era year month (day + 1)
      else if month < 11 then ofParts era year (month + 1) 0
      else if year < 399 then ofParts era (year + 1) 0 0
      else ofParts (era + 1) 0 0 0 := by
  rw [tomorrow, lastDay_ofParts era hmonth]
  unfold ofParts
  split_ifs <;> simp only [Civil.mk.injEq] <;> simp only at * <;> grind

theorem ofDays_of_parts (hyear : year < 400) (hmonth : month < 12)
    (hday : day < lengthOfMonth year month) {days : ℤ}
    (hdays : days + epoch = era * daysOfEra + (startOfYear year + startOfMonth month + day : ℕ)) :
    ofDays days = ofParts era year month day := by
  have hmonthEnd := startOfMonth_add_length year month
  have hyearEnd := startOfYear_add_length hyear
  have hdayOfYear : startOfMonth month + day < lengthOfYear year := by
    split_ifs at hmonthEnd with hlast
    · omega
    · have hmono := startOfMonth_mono (show month + 1 ≤ 11 by omega)
      have hshort : 365 ≤ lengthOfYear year := by
        unfold lengthOfYear
        split_ifs <;> decide
      have hend : startOfMonth 11 = 337 := rfl
      omega
  obtain ⟨dayOfEra, hdayOfEra⟩ : ∃ d, startOfYear year + startOfMonth month + day = d := ⟨_, rfl⟩
  have hlt : dayOfEra < daysOfEra := by
    split_ifs at hyearEnd with hlast
    · omega
    · have hmono := startOfYear_mono (show year + 1 ≤ 399 by omega)
      have hend : startOfYear 399 < daysOfEra := by decide
      omega
  have hera : (days + epoch) / daysOfEra = era := by
    rw [hdays, hdayOfEra]
    unfold daysOfEra at *
    omega
  have hrest : ((days + epoch) % daysOfEra).toNat = dayOfEra := by
    rw [hdays, hdayOfEra]
    unfold daysOfEra at *
    omega
  have hy : yearOfEra dayOfEra = year := yearOfEra_unique hyear (by omega) (by omega)
  have hm : monthOfYear (dayOfEra - startOfYear year) = month :=
    @monthOfYear_unique year _ _ (by omega) (by omega)
  unfold ofDays ofParts
  simp only [hera, hrest, hy, hm, Civil.mk.injEq, true_and]
  omega

end OfParts

theorem exists_parts (days : ℤ) : ∃ (era : ℤ) (year month day : ℕ), year < 400 ∧ month < 12 ∧
    day < lengthOfMonth year month ∧ ofDays days = ofParts era year month day ∧
    era = (days + epoch) / daysOfEra ∧
    days + epoch = era * daysOfEra + (startOfYear year + startOfMonth month + day : ℕ) := by
  obtain ⟨shifted, hshifted⟩ : ∃ n, days + epoch = n := ⟨_, rfl⟩
  have hera := Int.emod_nonneg shifted (b := daysOfEra) (by decide)
  have hlt := Int.emod_lt_of_pos shifted (b := daysOfEra) (by decide)
  have hsplit := Int.mul_ediv_add_emod shifted daysOfEra
  rw [Int.mul_comm] at hsplit
  obtain ⟨dayOfEra, hday⟩ := Int.eq_ofNat_of_zero_le hera
  obtain ⟨hyear, hstart, hend⟩ := @yearOfEra_spec dayOfEra (by omega)
  obtain ⟨hmonth, hfirst, hlast⟩ := @monthOfYear_spec (yearOfEra dayOfEra)
    (dayOfEra - startOfYear (yearOfEra dayOfEra)) (by omega)
  generalize yearOfEra dayOfEra = year at *
  generalize monthOfYear (dayOfEra - startOfYear year) = month at *
  have hsum : startOfYear year + startOfMonth month +
      (dayOfEra - startOfYear year - startOfMonth month) = dayOfEra := by omega
  have hdays : days + epoch = shifted / daysOfEra * daysOfEra + (startOfYear year +
      startOfMonth month + (dayOfEra - startOfYear year - startOfMonth month) : ℕ) := by
    rw [hsum, hshifted]
    omega
  have hday' : dayOfEra - startOfYear year - startOfMonth month < lengthOfMonth year month := by
    omega
  exact ⟨shifted / daysOfEra, year, month, _, hyear, hmonth, hday',
    ofDays_of_parts _ hyear hmonth hday' hdays, by rw [hshifted], hdays⟩

/-- A date that people write has such parts. -/
theorem Valid.exists_parts {c : Civil} (h : c.Valid) : ∃ (era : ℤ) (year month day : ℕ),
    year < 400 ∧ month < 12 ∧ day < lengthOfMonth year month ∧ c = ofParts era year month day := by
  obtain ⟨⟨hfirst, hlast⟩, hday, hdays⟩ := h
  have hparts : ∀ (y : ℤ) (month : ℕ), month < 12 →
      (c.year = y + if month < 10 then 0 else 1) →
      (c.month = if month < 10 then month + 3 else month - 9) →
      ∃ (era : ℤ) (year month day : ℕ), year < 400 ∧ month < 12 ∧ day < lengthOfMonth year month ∧
        c = ofParts era year month day := by
    intro y month hmonth hyear hc
    have hof : c = ofParts (y / 400) (y % 400).toNat month (c.day - 1) := by
      rcases c with ⟨cy, cm, cd⟩
      simp only at *
      unfold ofParts
      simp only [Civil.mk.injEq]
      omega
    refine ⟨y / 400, (y % 400).toNat, month, c.day - 1, by omega, hmonth, ?_, hof⟩
    have hlength := @lastDay_ofParts (y / 400) (y % 400).toNat _ hmonth (c.day - 1)
    rw [← hof] at hlength
    omega
  rcases Nat.lt_or_ge 2 c.month with hlate | hearly
  · exact hparts c.year (c.month - 3) (by omega) (by rw [if_pos (by omega)]; omega)
      (by rw [if_pos (by omega)]; omega)
  · exact hparts (c.year - 1) (c.month + 9) (by omega) (by rw [if_neg (by omega)]; omega)
      (by rw [if_neg (by omega)]; omega)

/-- A day is the day of its civil date. -/
theorem toDays_ofDays (days : ℤ) : (ofDays days).toDays = days := by
  obtain ⟨era, year, month, day, hyear, hmonth, -, hparts, -, hdays⟩ := exists_parts days
  rw [hparts, toDays_ofParts era hyear hmonth]
  omega

/-- A civil date is the date of its day. -/
theorem ofDays_toDays {c : Civil} (h : c.Valid) : ofDays c.toDays = c := by
  obtain ⟨era, year, month, day, hyear, hmonth, hday, rfl⟩ := h.exists_parts
  rw [toDays_ofParts era hyear hmonth]
  exact ofDays_of_parts era hyear hmonth hday (by omega)

theorem valid_ofDays (days : ℤ) : (ofDays days).Valid := by
  obtain ⟨era, year, month, day, hyear, hmonth, hday, hparts, -, -⟩ := exists_parts days
  rw [hparts]
  exact valid_ofParts era hmonth hday

theorem ofDays_zero : ofDays 0 = ⟨1970, 1, 1⟩ := by decide

/-- The next day has the next date. -/
theorem ofDays_succ (days : ℤ) : ofDays (days + 1) = (ofDays days).tomorrow := by
  obtain ⟨era, year, month, day, hyear, hmonth, hday, hparts, -, hdays⟩ := exists_parts days
  have hmonthEnd := startOfMonth_add_length year month
  have hyearEnd := startOfYear_add_length hyear
  have hstart : startOfMonth 0 = 0 := rfl
  rw [hparts, tomorrow_ofParts era hyear hmonth]
  split_ifs with hmore hmonths hyears
  · exact ofDays_of_parts era hyear hmonth hmore (by omega)
  · rw [if_neg (by omega)] at hmonthEnd
    exact ofDays_of_parts era hyear (by omega) (lengthOfMonth_pos _ _) (by omega)
  · rw [if_pos (by omega)] at hmonthEnd
    rw [if_neg (by omega)] at hyearEnd
    exact ofDays_of_parts era (by omega) (by decide) (lengthOfMonth_pos _ _) (by omega)
  · rw [if_pos (by omega)] at hmonthEnd
    rw [if_pos (by omega)] at hyearEnd
    have hfirst : startOfYear 0 = 0 := rfl
    have hnext : (era + 1) * daysOfEra = era * daysOfEra + daysOfEra := by
      rw [Int.add_mul, Int.one_mul]
    exact ofDays_of_parts (era + 1) (by decide) (by decide) (lengthOfMonth_pos _ _) (by omega)

theorem Valid.ofDays_succ_toDays {c : Civil} (h : c.Valid) : ofDays (c.toDays + 1) = c.tomorrow := by
  rw [ofDays_succ, ofDays_toDays h]

/-- The proleptic Gregorian calendar, said without counting: the epoch has its date, and every day
has the date after the one before. -/
structure IsCalendar (dateOf : ℤ → Civil) : Prop where
  epoch : dateOf 0 = ⟨1970, 1, 1⟩
  succ : ∀ days, dateOf (days + 1) = (dateOf days).tomorrow
  valid : ∀ days, (dateOf days).Valid

theorem isCalendar_ofDays : IsCalendar ofDays := ⟨ofDays_zero, ofDays_succ, valid_ofDays⟩

theorem IsCalendar.eq_ofDays {dateOf : ℤ → Civil} (h : IsCalendar dateOf) : dateOf = ofDays := by
  -- a date of the calendar is a day that goes up by one with every day
  have hsucc : ∀ days, (dateOf (days + 1)).toDays = (dateOf days).toDays + 1 := by
    intro days
    rw [h.succ, ← (h.valid days).ofDays_succ_toDays, toDays_ofDays]
  have hdays : ∀ days, (dateOf days).toDays = days := by
    intro days
    induction days using Int.induction_on with
    | zero =>
      rw [h.epoch]
      decide
    | succ days ih => rw [hsucc, ih]
    | pred days ih =>
      have hback := hsucc (-(days : ℤ) - 1)
      rw [Int.sub_add_cancel, ih] at hback
      omega
  funext days
  rw [← ofDays_toDays (h.valid days), hdays]

/-- The month of a civil date is one of twelve, and its day one of 31. -/
theorem ofDays_bounds (days : ℤ) :
    (1 ≤ (ofDays days).month ∧ (ofDays days).month ≤ 12) ∧
      1 ≤ (ofDays days).day ∧ (ofDays days).day ≤ 31 := by
  have hvalid := valid_ofDays days
  exact ⟨hvalid.month, hvalid.day.1, hvalid.day.2.trans (lastDay_le _ _)⟩

/-- The year of a day that lies between the beginnings of two eras. -/
theorem year_ofDays_bounds {days first last : ℤ} (hfirst : first * daysOfEra ≤ days + epoch)
    (hlast : days + epoch < last * daysOfEra) :
    first * 400 ≤ (ofDays days).year ∧ (ofDays days).year ≤ last * 400 := by
  obtain ⟨era, year, month, day, hyear, hmonth, hday, hparts, hera, -⟩ := exists_parts days
  have hlow : first ≤ era := by
    rw [hera]
    exact Int.le_ediv_of_mul_le (by decide) hfirst
  have hhigh : era < last := by
    rw [hera]
    exact Int.ediv_lt_of_lt_mul (by decide) hlast
  rw [hparts]
  unfold ofParts
  simp only
  split_ifs <;> omega

example : Civil.ofDays 19782 = ⟨2024, 2, 29⟩ := by decide

end Civil
end Uniorm.Foundation
