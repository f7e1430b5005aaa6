import Uniorm.Value.Timestamp

/-! # The arithmetic of the clock

A duration counts its unit in 64 bits, and what leaves the 64 bits has no meaning: a signed overflow
is undefined. `breakTimestamp?` and `makeTimestamp?` are the two conversions with every count that
their expressions pass through; they have a value where none of the counts overflows.
-/
namespace Uniorm.Value

open Foundation

def count64 (n : ℤ) : Option ℤ := if -2 ^ 63 ≤ n ∧ n < 2 ^ 63 then some n else none

theorem count64_eq_some {n m : ℤ} : count64 n = some m ↔ n = m ∧ -2 ^ 63 ≤ n ∧ n < 2 ^ 63 := by
  unfold count64
  split_ifs with h
  · rw [Option.some_inj]
    exact ⟨fun hn => ⟨hn, h⟩, fun hn => hn.1⟩
  · simp only [false_iff]
    exact fun hn => h hn.2

theorem count64_of_fits {n : ℤ} (h : -2 ^ 63 ≤ n ∧ n < 2 ^ 63) : count64 n = some n :=
  if_pos h

theorem count64_eq_none {n : ℤ} : count64 n = none ↔ n < -2 ^ 63 ∨ 2 ^ 63 ≤ n := by
  unfold count64
  split_ifs with h
  · simp only [false_iff]
    omega
  · simp only [true_iff]
    omega

/-- A duration in a unit that is `factor` times finer, and so many of that unit more. -/
def finer (factor count more : ℤ) : Option ℤ := do
  let converted ← count64 (count * factor)
  count64 (converted + more)

theorem finer_eq_some {factor count more n : ℤ} : finer factor count more = some n ↔
    (-2 ^ 63 ≤ count * factor ∧ count * factor < 2 ^ 63) ∧ -2 ^ 63 ≤ n ∧ n < 2 ^ 63 ∧
      n = count * factor + more := by
  unfold finer
  simp only [Option.bind_eq_bind, Option.bind_eq_some_iff, count64_eq_some]
  constructor
  · rintro ⟨_, ⟨rfl, hcount⟩, rfl, hsum⟩
    exact ⟨hcount, hsum.1, hsum.2, rfl⟩
  · rintro ⟨hcount, hlow, hhigh, rfl⟩
    exact ⟨_, ⟨rfl, hcount⟩, rfl, hlow, hhigh⟩

/-- `floor<days>`: a conversion that truncates, and a day less where it went up. -/
def floorDays (tp : ℤ) : Option ℤ := do
  let days := tp.tdiv nanosecondsPerDay
  let back ← count64 (days * nanosecondsPerDay)
  if tp < back then count64 (days - 1) else pure days

/-- The fields of a day, as `hh_mm_ss` takes them off one after the other. -/
def timeOfDay (ofDay : ℕ) : ℕ × ℕ × ℕ × ℕ :=
  let hours := ofDay / 3600000000000
  let ofHour := ofDay - hours * 3600000000000
  let minutes := ofHour / 60000000000
  let ofMinute := ofHour - minutes * 60000000000
  let seconds := ofMinute / 1000000000
  (hours, minutes, seconds, ofMinute - seconds * 1000000000)

def breakTimestamp? (tp : Int64) : Option TimestampParts := do
  let days ← floorDays tp.toInt
  let midnight ← count64 (days * nanosecondsPerDay)
  let ofDay ← count64 (tp.toInt - midnight)
  let ymd := Civil.ofDays days
  let clock := timeOfDay ofDay.natAbs
  pure ⟨ymd.year, ymd.month, ymd.day, clock.1, clock.2.1, clock.2.2.1, clock.2.2.2⟩

def firstWholeDay : ℤ := -106751 * nanosecondsPerDay

theorem floorDays_eq (tp : Int64) : floorDays tp.toInt = some (tp.toInt / nanosecondsPerDay) := by
  have hlow := tp.le_toInt
  have hhigh := tp.toInt_lt
  unfold floorDays nanosecondsPerDay
  generalize tp.toInt = t at *
  obtain ⟨days, hdays⟩ : ∃ days, t.tdiv (86400000000000 : ℕ) = days := ⟨_, rfl⟩
  -- towards zero is down, and up for what lies before the epoch
  have htrunc : (days = t / (86400000000000 : ℕ) ∧ (0 ≤ t ∨ t % (86400000000000 : ℕ) = 0)) ∨
      days = t / (86400000000000 : ℕ) + 1 ∧ t < 0 ∧ t % (86400000000000 : ℕ) ≠ 0 := by
    rw [← hdays, Int.tdiv_eq_ediv]
    split_ifs with hdown
    · omega
    · have hsign : Int.sign (86400000000000 : ℕ) = 1 := rfl
      omega
  have hback : -2 ^ 63 ≤ days * (86400000000000 : ℕ) ∧ days * (86400000000000 : ℕ) < 2 ^ 63 := by
    omega
  simp only [hdays, count64_of_fits hback, Option.bind_eq_bind, Option.bind_some]
  split_ifs with hlt
  · rw [count64_of_fits (by omega), Option.some_inj]
    omega
  · simp only [pure, Option.some_inj]
    omega

theorem timeOfDay_eq (ofDay : ℕ) : timeOfDay ofDay = (ofDay / 3600000000000, ofDay / 60000000000 % 60,
    ofDay / 1000000000 % 60, ofDay % 1000000000) := by
  unfold timeOfDay
  simp only [Prod.mk.injEq, true_and]
  omega

/-- Within the first day, which the clock has only in part, its midnight overflows. -/
theorem breakTimestamp?_eq (tp : Int64) : breakTimestamp? tp =
    if firstWholeDay ≤ tp.toInt then some (breakTimestamp tp) else none := by
  have hlow := tp.le_toInt
  have hhigh := tp.toInt_lt
  unfold breakTimestamp? breakTimestamp
  rw [floorDays_eq, Option.bind_eq_bind, Option.bind_some]
  split_ifs with hwhole
  · have hmidnight : -2 ^ 63 ≤ tp.toInt / nanosecondsPerDay * nanosecondsPerDay ∧
        tp.toInt / nanosecondsPerDay * nanosecondsPerDay < 2 ^ 63 := by
      unfold firstWholeDay at hwhole
      unfold nanosecondsPerDay at *
      omega
    have hofDay : tp.toInt - tp.toInt / nanosecondsPerDay * nanosecondsPerDay =
        tp.toInt % nanosecondsPerDay := by
      have hsplit := Int.mul_ediv_add_emod tp.toInt nanosecondsPerDay
      rw [Int.mul_comm] at hsplit
      omega
    have hfits : -2 ^ 63 ≤ tp.toInt % nanosecondsPerDay ∧ tp.toInt % nanosecondsPerDay < 2 ^ 63 := by
      unfold nanosecondsPerDay
      omega
    have habs : (tp.toInt % nanosecondsPerDay).natAbs = (tp.toInt % nanosecondsPerDay).toNat := by
      unfold nanosecondsPerDay
      omega
    simp only [count64_of_fits hmidnight, Option.bind_some, hofDay, count64_of_fits hfits, habs,
      timeOfDay_eq]
    rfl
  · have hmidnight : tp.toInt / nanosecondsPerDay * nanosecondsPerDay < -2 ^ 63 := by
      unfold firstWholeDay at hwhole
      unfold nanosecondsPerDay at *
      omega
    rw [count64_eq_none.mpr (.inl hmidnight)]
    rfl

/-- The sum of the fields, each added in its own unit, from the coarsest on. -/
def makeTimestamp? (p : TimestampParts) : Option Int64 := do
  let hours ← finer 24 (Civil.toDays ⟨p.year, p.month, p.day⟩) p.hour
  let minutes ← finer 60 hours p.minute
  let seconds ← finer 60 minutes p.second
  let nanoseconds ← finer 1000000000 seconds p.fractionNs
  pure (Int64.ofInt nanoseconds)

def TimestampParts.instant (p : TimestampParts) : ℤ :=
  Civil.toDays ⟨p.year, p.month, p.day⟩ * nanosecondsPerDay +
    (p.hour * 3600000000000 + p.minute * 60000000000 + p.second * 1000000000 + p.fractionNs : ℕ)

/-- The fields of a time of day within their ranges. -/
structure TimestampParts.Clock (p : TimestampParts) : Prop where
  hour : p.hour ≤ 24
  minute : p.minute < 60
  second : p.second < 60
  fractionNs : p.fractionNs < 1000000000

def firstWholeSecond : ℤ := -9223372036 * 1000000000

theorem makeTimestamp?_eq_some {p : TimestampParts} (h : p.Clock) {tp : Int64} :
    makeTimestamp? p = some tp ↔ tp.toInt = p.instant ∧ firstWholeSecond ≤ p.instant := by
  obtain ⟨hhour, hminute, hsecond, hfraction⟩ := h
  unfold makeTimestamp? TimestampParts.instant firstWholeSecond nanosecondsPerDay
  generalize Civil.toDays ⟨p.year, p.month, p.day⟩ = days
  have hlow := tp.le_toInt
  have hhigh := tp.toInt_lt
  simp only [Option.bind_eq_bind, Option.bind_eq_some_iff, finer_eq_some, pure, Option.some_inj]
  constructor
  · rintro ⟨_, ⟨-, -, -, rfl⟩, _, ⟨-, -, -, rfl⟩, _, ⟨-, -, -, rfl⟩, _, ⟨hs, hl, hh, rfl⟩, rfl⟩
    rw [Int64.toInt_ofInt_of_le hl hh]
    omega
  · rintro ⟨hinstant, hwhole⟩
    refine ⟨_, ⟨?_, ?_, ?_, rfl⟩, _, ⟨?_, ?_, ?_, rfl⟩, _, ⟨?_, ?_, ?_, rfl⟩, _, ⟨?_, ?_, ?_, rfl⟩, ?_⟩
    all_goals first | omega | skip
    rw [← Int64.ofInt_toInt tp, hinstant]
    congr 1
    omega

/-- A date of the calendar and a time of day. -/
structure TimestampParts.Valid (p : TimestampParts) : Prop where
  date : Civil.Valid ⟨p.year, p.month, p.day⟩
  hour : p.hour < 24
  minute : p.minute < 60
  second : p.second < 60
  fractionNs : p.fractionNs < 1000000000

theorem TimestampParts.Valid.clock {p : TimestampParts} (h : p.Valid) : p.Clock :=
  ⟨h.hour.le, h.minute, h.second, h.fractionNs⟩

theorem valid_breakTimestamp (tp : Int64) : (breakTimestamp tp).Valid := by
  have hofDay : (tp.toInt % nanosecondsPerDay).toNat < nanosecondsPerDay := by
    unfold nanosecondsPerDay
    omega
  refine ⟨Civil.valid_ofDays _, ?_, ?_, ?_, ?_⟩ <;>
    unfold breakTimestamp nanosecondsPerDay at * <;> simp only <;> omega

theorem clock_breakTimestamp (tp : Int64) : (((breakTimestamp tp).hour * 3600000000000 +
    (breakTimestamp tp).minute * 60000000000 + (breakTimestamp tp).second * 1000000000 +
    (breakTimestamp tp).fractionNs : ℕ) : ℤ) = tp.toInt % nanosecondsPerDay := by
  unfold breakTimestamp nanosecondsPerDay
  simp only
  omega

theorem instant_breakTimestamp (tp : Int64) : (breakTimestamp tp).instant = tp.toInt := by
  have hsplit := Int.mul_ediv_add_emod tp.toInt nanosecondsPerDay
  rw [Int.mul_comm] at hsplit
  unfold TimestampParts.instant
  rw [clock_breakTimestamp]
  change (Civil.ofDays (tp.toInt / nanosecondsPerDay)).toDays * nanosecondsPerDay + _ = _
  rw [Civil.toDays_ofDays, hsplit]

theorem breakTimestamp_of_instant {p : TimestampParts} (h : p.Valid) {tp : Int64}
    (htp : tp.toInt = p.instant) : breakTimestamp tp = p := by
  obtain ⟨hdate, hhour, hminute, hsecond, hfraction⟩ := h
  have hdays : tp.toInt / nanosecondsPerDay = Civil.toDays ⟨p.year, p.month, p.day⟩ := by
    rw [htp]
    unfold TimestampParts.instant nanosecondsPerDay
    omega
  have hofDay : (tp.toInt % nanosecondsPerDay).toNat = p.hour * 3600000000000 +
      p.minute * 60000000000 + p.second * 1000000000 + p.fractionNs := by
    rw [htp]
    unfold TimestampParts.instant nanosecondsPerDay
    omega
  unfold breakTimestamp
  rcases p with ⟨year, month, day, hour, minute, second, fractionNs⟩
  simp only [hdays, hofDay, Civil.ofDays_toDays hdate, TimestampParts.mk.injEq, true_and] at *
  omega

/-- The parts are the date and the time of day of a timestamp, within their ranges and the fields of
a buffer, and lead back to it. -/
structure ExactParts (dateOf : ℤ → Civil) (tp : Int64) (p : TimestampParts) : Prop where
  date : ⟨p.year, p.month, p.day⟩ = dateOf (tp.toInt / nanosecondsPerDay)
  time : ((p.hour * 3600000000000 + p.minute * 60000000000 + p.second * 1000000000 +
    p.fractionNs : ℕ) : ℤ) = tp.toInt % nanosecondsPerDay
  valid : p.Valid
  fits : p.Fits
  back : makeTimestamp? p = some tp

/-- Timestamps and their parts correspond from the first whole day of the clock on. In the part of a
day that the clock begins with, the midnight it is counted from is out of the clock's range. -/
theorem timestamp_parts_exact_iff {dateOf : ℤ → Civil} (h : Civil.IsCalendar dateOf) :
    (∀ tp : Int64, (∃ p, breakTimestamp? tp = some p ∧ ExactParts dateOf tp p) ↔
      firstWholeDay ≤ tp.toInt) ∧
    ∀ p : TimestampParts, p.Valid → (-2 ^ 63 ≤ p.instant ∧ p.instant < 2 ^ 63) →
      ((makeTimestamp? p).bind breakTimestamp? = some p ↔ firstWholeDay ≤ p.instant) := by
  obtain rfl := h.eq_ofDays
  have hfirst : firstWholeSecond ≤ firstWholeDay := by decide
  refine ⟨fun tp => ⟨?_, fun hwhole => ?_⟩, fun p hvalid hrange => ⟨fun hback => ?_, fun hwhole => ?_⟩⟩
  · rintro ⟨p, hbreak, -⟩
    rw [breakTimestamp?_eq] at hbreak
    by_contra hnot
    rw [if_neg hnot] at hbreak
    cases hbreak
  · refine ⟨breakTimestamp tp, by rw [breakTimestamp?_eq, if_pos hwhole], rfl,
      clock_breakTimestamp tp, valid_breakTimestamp tp, fits_breakTimestamp tp, ?_⟩
    rw [makeTimestamp?_eq_some (valid_breakTimestamp tp).clock, instant_breakTimestamp]
    exact ⟨rfl, hfirst.trans hwhole⟩
  · obtain ⟨tp, hmake, hbreak⟩ := Option.bind_eq_some_iff.mp hback
    rw [makeTimestamp?_eq_some hvalid.clock] at hmake
    rw [breakTimestamp?_eq] at hbreak
    by_contra hnot
    rw [hmake.1, if_neg hnot] at hbreak
    cases hbreak
  · have htp : (Int64.ofInt p.instant).toInt = p.instant :=
      Int64.toInt_ofInt_of_le hrange.1 hrange.2
    have hmake : makeTimestamp? p = some (Int64.ofInt p.instant) := by
      rw [makeTimestamp?_eq_some hvalid.clock]
      exact ⟨htp, hfirst.trans hwhole⟩
    rw [hmake, Option.bind_some, breakTimestamp?_eq, htp, if_pos hwhole,
      breakTimestamp_of_instant hvalid htp]

/-- The last nanosecond of a leap day. -/
theorem leap_day_exact :
    (∃ p, breakTimestamp? 1709251199999999999 = some p ∧
      ExactParts Civil.ofDays 1709251199999999999 p) ∧
    (makeTimestamp? ⟨2024, 2, 29, 23, 59, 59, 999999999⟩).bind breakTimestamp? =
      some ⟨2024, 2, 29, 23, 59, 59, 999999999⟩ := by
  have hexact := timestamp_parts_exact_iff Civil.isCalendar_ofDays
  have hvalid : TimestampParts.Valid ⟨2024, 2, 29, 23, 59, 59, 999999999⟩ :=
    ⟨⟨by decide, by decide⟩, by decide, by decide, by decide, by decide⟩
  exact ⟨(hexact.1 _).mpr (by decide), (hexact.2 _ hvalid (by decide)).mpr (by decide)⟩

/-- The first timestamp of the clock has no parts. -/
theorem first_timestamp_overflows : breakTimestamp? Int64.minValue = none ∧
    ¬∃ p, breakTimestamp? Int64.minValue = some p ∧ ExactParts Civil.ofDays Int64.minValue p := by
  have hnone : breakTimestamp? Int64.minValue = none := by decide
  refine ⟨hnone, ?_⟩
  rintro ⟨p, hp, -⟩
  rw [hnone] at hp
  cases hp

end Uniorm.Value
