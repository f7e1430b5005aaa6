import Uniorm.Foundation.Calendar
import Uniorm.Foundation.Memory

/-! # Timestamps

A point in time is a count of nanoseconds in 64 bits, as the system clock keeps it. Parameters and
results carry it in parts, the year of a date among them in 16 bits.
-/
namespace Uniorm.Value

open Foundation

/-- `detail::timestamp_parts`. -/
structure TimestampParts where
  year : ℤ
  month : ℕ
  day : ℕ
  hour : ℕ
  minute : ℕ
  second : ℕ
  fractionNs : ℕ
  deriving DecidableEq, Repr

def nanosecondsPerDay : ℕ := 86400000000000

def breakTimestamp (tp : Int64) : TimestampParts :=
  let days := tp.toInt / nanosecondsPerDay
  let ofDay := (tp.toInt % nanosecondsPerDay).toNat
  let ymd := Civil.ofDays days
  { year := ymd.year
    month := ymd.month
    day := ymd.day
    hour := ofDay / 3600000000000
    minute := ofDay / 60000000000 % 60
    second := ofDay / 1000000000 % 60
    fractionNs := ofDay % 1000000000 }

def makeTimestamp (p : TimestampParts) : Int64 :=
  Int64.ofInt (Civil.toDays ⟨p.year, p.month, p.day⟩ * nanosecondsPerDay +
    (p.hour * 3600000000000 + p.minute * 60000000000 + p.second * 1000000000 + p.fractionNs : ℕ))

/-- Put together again, the parts of a timestamp are the timestamp. -/
theorem makeTimestamp_breakTimestamp (tp : Int64) : makeTimestamp (breakTimestamp tp) = tp := by
  have hday := Int.emod_nonneg tp.toInt (b := nanosecondsPerDay) (by decide)
  obtain ⟨ofDay, hofDay⟩ := Int.eq_ofNat_of_zero_le hday
  have hsplit := Int.mul_ediv_add_emod tp.toInt nanosecondsPerDay
  rw [hofDay, Int.mul_comm] at hsplit
  have hclock : ofDay / 3600000000000 * 3600000000000 + ofDay / 60000000000 % 60 * 60000000000 +
      ofDay / 1000000000 % 60 * 1000000000 + ofDay % 1000000000 = ofDay := by omega
  unfold makeTimestamp breakTimestamp
  simp only [hofDay, Int.toNat_natCast, hclock]
  change Int64.ofInt ((Civil.ofDays (tp.toInt / nanosecondsPerDay)).toDays * nanosecondsPerDay +
    ofDay) = tp
  rw [Civil.toDays_ofDays, hsplit, Int64.ofInt_toInt]

/-- The parts of a timestamp, as far as their fields in a buffer are concerned. -/
structure TimestampParts.Fits (p : TimestampParts) : Prop where
  year : -2 ^ 15 ≤ p.year ∧ p.year < 2 ^ 15
  month : p.month < 2 ^ 16
  day : p.day < 2 ^ 16
  hour : p.hour < 2 ^ 16
  minute : p.minute < 2 ^ 16
  second : p.second < 2 ^ 16
  fractionNs : p.fractionNs < 2 ^ 32

/-- 64 bits of nanoseconds stay within two eras. -/
theorem year_breakTimestamp (tp : Int64) :
    4 * 400 ≤ (breakTimestamp tp).year ∧ (breakTimestamp tp).year ≤ 6 * 400 := by
  have hlow := tp.le_toInt
  have hhigh := tp.toInt_lt
  apply Civil.year_ofDays_bounds
  · unfold nanosecondsPerDay Civil.daysOfEra Civil.epoch
    omega
  · unfold nanosecondsPerDay Civil.daysOfEra Civil.epoch
    omega

/-- 64 bits of nanoseconds do not leave the years that 16 bits hold. -/
theorem fits_breakTimestamp (tp : Int64) : (breakTimestamp tp).Fits := by
  have hyear := year_breakTimestamp tp
  obtain ⟨⟨-, hmonth⟩, -, hday⟩ := Civil.ofDays_bounds (tp.toInt / nanosecondsPerDay)
  have hofDay : (tp.toInt % nanosecondsPerDay).toNat < nanosecondsPerDay := by
    unfold nanosecondsPerDay
    omega
  refine ⟨⟨by omega, by omega⟩, lt_of_le_of_lt hmonth (by decide), lt_of_le_of_lt hday (by decide),
    ?_, ?_, ?_, ?_⟩ <;> unfold breakTimestamp nanosecondsPerDay at * <;> simp only <;> omega

/-- The fields of a `backend::timestamp_parts` and their widths. -/
def TimestampParts.fields (p : TimestampParts) : List (ℕ × ℕ) :=
  [(2, (BitVec.ofInt 16 p.year).toNat), (2, p.month), (2, p.day), (2, p.hour), (2, p.minute),
    (2, p.second), (4, p.fractionNs)]

def TimestampParts.toBytes (p : TimestampParts) : List UInt8 := packFields p.fields

def TimestampParts.ofFields : List ℕ → TimestampParts
  | [year, month, day, hour, minute, second, fractionNs] =>
    ⟨(BitVec.ofNat 16 year).toInt, month, day, hour, minute, second, fractionNs⟩
  | _ => ⟨0, 0, 0, 0, 0, 0, 0⟩

def TimestampParts.ofBytes (bytes : List UInt8) : TimestampParts :=
  ofFields (unpackFields [2, 2, 2, 2, 2, 2, 4] bytes)

@[simp] theorem TimestampParts.length_toBytes (p : TimestampParts) : p.toBytes.length = 16 := by
  simp [toBytes, fields, packFields]

theorem TimestampParts.ofBytes_toBytes {p : TimestampParts} (h : p.Fits) : ofBytes p.toBytes = p := by
  have hyear : (BitVec.ofInt 16 p.year).toInt = p.year := by
    rw [BitVec.toInt_ofInt]
    exact Int.bmod_eq_of_le h.year.1 h.year.2
  have hfields : ∀ f ∈ p.fields, f.2 < 256 ^ f.1 := by
    have hword := (BitVec.ofInt 16 p.year).isLt
    simp only [fields, List.forall_mem_cons, List.not_mem_nil, false_imp_iff, implies_true, and_true]
    exact ⟨hword, h.month, h.day, h.hour, h.minute, h.second, h.fractionNs⟩
  have hunpack := unpackFields_packFields hfields
  have hwidths : p.fields.map Prod.fst = [2, 2, 2, 2, 2, 2, 4] := rfl
  rw [ofBytes, toBytes, ← hwidths, hunpack]
  simp only [fields, List.map_cons, List.map_nil, ofFields, BitVec.ofNat_toNat, BitVec.setWidth_eq,
    hyear]

end Uniorm.Value
