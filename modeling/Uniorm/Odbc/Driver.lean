import Mathlib.Data.List.TakeWhile
import Mathlib.Logic.Function.Basic
import Mathlib.Tactic.Common
import Uniorm.Foundation.Lists
import Uniorm.Foundation.Memory

/-! # An ODBC statement as its driver keeps it

`SQLFetch` moves the next rowset under the bound buffers; `SQLGetData` reads the
first row of the rowset piece by piece and has nothing left once a cell was read
to its end. `get_data_char` and `get_data_binary` collect a whole cell in pieces
of 4096 bytes.
-/
namespace Uniorm.Odbc

open Foundation

abbrev Bytes := List UInt8

/-- A value as the server holds it, NULL if there is none. -/
abbrev Cell := Option Bytes

abbrev Row := List Cell

/-- A buffer and its size. The fixed-width types are copied whole. -/
inductive Buffer where
  | chars (size : ℕ)
  | bytes (size : ℕ)
  | fixed
  deriving DecidableEq, Repr

inductive Indicator where
  | null
  | noTotal
  | length (n : ℕ)
  deriving DecidableEq, Repr

/-- How much of a cell of the current row `SQLGetData` has handed out. -/
inductive Progress where
  | upTo (offset : ℕ)
  | complete
  deriving DecidableEq, Repr

/-- What the driver knows of the length of a value it cannot return whole. -/
structure Driver where
  knowsTotal : ℕ → Bytes → Bool

/-- The rows of the last fetch. Columns count from 0 here. -/
structure Rowset where
  rows : List Row
  progress : ℕ → Progress

def Buffer.room : Buffer → Bytes → ℕ
  | .chars size, _ => size - 1
  | .bytes size, _ => size
  | .fixed, v => v.length

namespace Rowset

def ofRows (rows : List Row) : Rowset := ⟨rows, fun _ => .upTo 0⟩

def cell (rs : Rowset) (row column : ℕ) : Cell := (rs.rows.getD row []).getD column none

def rowsFetched (rs : Rowset) : ℕ := rs.rows.length

def setProgress (rs : Rowset) (column : ℕ) (p : Progress) : Rowset :=
  { rs with progress := Function.update rs.progress column p }

end Rowset

/-- `SQLFetch`: the next rowset, and the rows behind it. -/
def fetch (rowArraySize : ℕ) (rest : List Row) : Rowset × List Row :=
  (.ofRows (rest.take rowArraySize), rest.drop rowArraySize)

namespace Driver

def total (d : Driver) (column : ℕ) (left : Bytes) : Indicator :=
  if d.knowsTotal column left then .length left.length else .noTotal

def bound (d : Driver) (buffer : Buffer) (column : ℕ) : Cell → Indicator × Bytes
  | none => (.null, [])
  | some v =>
    if v.length ≤ buffer.room v then (.length v.length, v)
    else (d.total column v, v.take (buffer.room v))

end Driver

inductive ReturnCode where
  | success
  | successWithInfo
  | noData
  deriving DecidableEq, Repr

structure Answer where
  rc : ReturnCode
  indicator : Indicator
  chunk : Bytes

def Driver.getData (d : Driver) (buffer : Buffer) (column : ℕ) (rs : Rowset) :
    Answer × Rowset :=
  match rs.cell 0 column, rs.progress column with
  | none, _ => (⟨.success, .null, []⟩, rs)
  | some _, .complete => (⟨.noData, .length 0, []⟩, rs)
  | some v, .upTo offset =>
    let left := v.drop offset
    if left.length ≤ buffer.room left then
      (⟨.success, .length left.length, left⟩, rs.setProgress column .complete)
    else
      (⟨.successWithInfo, d.total column left, left.take (buffer.room left)⟩,
        rs.setProgress column (.upTo (offset + buffer.room left)))

/-- The bytes of the current row's cell that are still to come. -/
def Rowset.remaining (rs : Rowset) (column : ℕ) : ℕ :=
  match rs.cell 0 column, rs.progress column with
  | some v, .upTo offset => v.length - offset
  | _, _ => 0

@[simp] theorem Rowset.cell_setProgress (rs : Rowset) (column row c : ℕ) (p : Progress) :
    (rs.setProgress column p).cell row c = rs.cell row c := rfl

@[simp] theorem Rowset.progress_setProgress (rs : Rowset) (column : ℕ) (p : Progress) :
    (rs.setProgress column p).progress column = p := Function.update_self _ _ _

/-- A piece that is not the last leaves less to come. -/
theorem Driver.remaining_getData_lt (d : Driver) {buffer : Buffer} {column : ℕ}
    {rs : Rowset} (hroom : ∀ v, 0 < v.length → 0 < buffer.room v)
    (h : (d.getData buffer column rs).1.rc = .successWithInfo) :
    (d.getData buffer column rs).2.remaining column < rs.remaining column := by
  unfold Driver.getData at h ⊢
  cases hcell : rs.cell 0 column with
  | none => simp [hcell] at h
  | some v =>
    cases hprogress : rs.progress column with
    | complete => simp [hcell, hprogress] at h
    | upTo offset =>
      simp only [hcell, hprogress] at h ⊢
      split at h
      · cases h
      · rename_i hlong
        have hpos : 0 < buffer.room (v.drop offset) := hroom _ (by omega)
        rw [List.length_drop] at hlong
        rw [if_neg (by rwa [List.length_drop])]
        simp only [Rowset.remaining, Rowset.cell_setProgress, Rowset.progress_setProgress, hcell,
          hprogress]
        omega

def chunkSize : ℕ := 4096

/-- The loop of `get_data_char`. -/
def Driver.getDataChar (d : Driver) (column : ℕ) (rs : Rowset) (out : Bytes) : Bytes × Rowset :=
  let read := d.getData (.chars chunkSize) column rs
  if read.1.rc = .noData ∨ read.1.indicator = .null then (out, read.2)
  else if _h : read.1.rc = .successWithInfo then
    d.getDataChar column read.2 (out ++ cString read.1.chunk)
  else (out ++ cString read.1.chunk, read.2)
termination_by rs.remaining column
decreasing_by exact d.remaining_getData_lt (fun _ _ => Nat.succ_pos 4094) _h

/-- The number of bytes of a binary piece that are taken over. -/
def Answer.take (a : Answer) : ℕ :=
  match a.rc, a.indicator with
  | .successWithInfo, _ => chunkSize
  | _, .noTotal => chunkSize
  | _, .null => 0
  | _, .length n => min n chunkSize

/-- The loop of `get_data_binary`. -/
def Driver.getDataBinary (d : Driver) (column : ℕ) (rs : Rowset) (out : Bytes) :
    Bytes × Rowset :=
  let read := d.getData (.bytes chunkSize) column rs
  if read.1.rc = .noData ∨ read.1.indicator = .null then (out, read.2)
  else if _h : read.1.rc = .successWithInfo then
    d.getDataBinary column read.2 (out ++ read.1.chunk.take read.1.take)
  else (out ++ read.1.chunk.take read.1.take, read.2)
termination_by rs.remaining column
decreasing_by exact d.remaining_getData_lt (fun _ _ => Nat.succ_pos 4095) _h

/-- `backend_statement::read_long_text`. The row the caller names is not used. -/
def Driver.readLongText (d : Driver) (rs : Rowset) (column _row : ℕ) : Bytes × Rowset :=
  d.getDataChar column rs []

def Driver.readLongBytes (d : Driver) (rs : Rowset) (column _row : ℕ) : Bytes × Rowset :=
  d.getDataBinary column rs []

section
variable {d : Driver} {buffer : Buffer} {column offset : ℕ} {rs : Rowset} {v : Bytes}

theorem getData_null (h : rs.cell 0 column = none) :
    d.getData buffer column rs = (⟨.success, .null, []⟩, rs) := by
  simp [Driver.getData, h]

theorem getData_complete (h : rs.cell 0 column = some v) (hp : rs.progress column = .complete) :
    d.getData buffer column rs = (⟨.noData, .length 0, []⟩, rs) := by
  simp [Driver.getData, h, hp]

theorem getData_last (h : rs.cell 0 column = some v) (hp : rs.progress column = .upTo offset)
    (hfits : (v.drop offset).length ≤ buffer.room (v.drop offset)) :
    d.getData buffer column rs =
      (⟨.success, .length (v.drop offset).length, v.drop offset⟩,
        rs.setProgress column .complete) := by
  simp only [Driver.getData, h, hp, if_pos hfits]

theorem getData_more (h : rs.cell 0 column = some v) (hp : rs.progress column = .upTo offset)
    (hlong : ¬ (v.drop offset).length ≤ buffer.room (v.drop offset)) :
    d.getData buffer column rs =
      (⟨.successWithInfo, d.total column (v.drop offset),
        (v.drop offset).take (buffer.room (v.drop offset))⟩,
        rs.setProgress column (.upTo (offset + buffer.room (v.drop offset)))) := by
  simp only [Driver.getData, h, hp, if_neg hlong]

theorem total_ne_null (left : Bytes) : d.total column left ≠ .null := by
  unfold Driver.total
  split <;> simp

theorem setProgress_setProgress (p p' : Progress) :
    (rs.setProgress column p).setProgress column p' = rs.setProgress column p' := by
  simp [Rowset.setProgress]

/-- A text comes back whole exactly when it has no NUL; it never gets longer. -/
theorem getDataChar_spec (h : rs.cell 0 column = some v) (hp : rs.progress column = .upTo offset)
    (out : Bytes) : ∃ w, d.getDataChar column rs out = (out ++ w, rs.setProgress column .complete) ∧
      w.length ≤ (v.drop offset).length ∧ (w = v.drop offset ↔ (0 : UInt8) ∉ v.drop offset) := by
  -- On the number of bytes that are still to come.
  induction hn : (v.drop offset).length using Nat.strongRecOn generalizing rs offset out with
  | ind n ih =>
    subst hn
    rw [Driver.getDataChar]
    by_cases hfits : (v.drop offset).length ≤ (Buffer.chars chunkSize).room (v.drop offset)
    · rw [getData_last h hp hfits]
      exact ⟨cString (v.drop offset), by simp, cString_length_le _, cString_eq_self_iff⟩
    · have hroom : (Buffer.chars chunkSize).room (v.drop offset) = 4095 := rfl
      rw [getData_more h hp hfits, hroom]
      simp only [reduceCtorEq, total_ne_null, or_self, if_false, dite_true]
      rw [hroom] at hfits
      have hrest : v.drop (offset + 4095) = (v.drop offset).drop 4095 := by rw [List.drop_drop]
      have hlt : (v.drop (offset + 4095)).length < (v.drop offset).length := by
        rw [hrest, List.length_drop]
        omega
      obtain ⟨w, hread, hle, hiff⟩ := ih _ hlt
        (show (rs.setProgress column (.upTo (offset + 4095))).cell 0 column = some v from h)
        (by simp) (out ++ cString ((v.drop offset).take 4095)) rfl
      rw [setProgress_setProgress] at hread
      refine ⟨cString ((v.drop offset).take 4095) ++ w, ?_, ?_, ?_⟩
      · rw [hread, List.append_assoc]
      · have hchunk := cString_length_le ((v.drop offset).take 4095)
        rw [List.length_take] at hchunk
        rw [List.length_append]
        rw [hrest, List.length_drop] at hle
        omega
      · have hsplit := List.take_append_drop 4095 (v.drop offset)
        rw [hrest] at hle hiff
        have hwhole := append_eq_append_iff_of_length_le
          (cString_length_le ((v.drop offset).take 4095)) hle
        rw [hsplit, cString_eq_self_iff, hiff] at hwhole
        rw [hwhole, ← not_or, ← List.mem_append, hsplit]

theorem getDataBinary_spec (h : rs.cell 0 column = some v)
    (hp : rs.progress column = .upTo offset) (out : Bytes) :
    d.getDataBinary column rs out = (out ++ v.drop offset, rs.setProgress column .complete) := by
  induction hn : (v.drop offset).length using Nat.strongRecOn generalizing rs offset out with
  | ind n ih =>
    subst hn
    rw [Driver.getDataBinary]
    by_cases hfits : (v.drop offset).length ≤ (Buffer.bytes chunkSize).room (v.drop offset)
    · rw [getData_last h hp hfits]
      have htake : (v.drop offset).take (min (v.drop offset).length chunkSize) = v.drop offset :=
        List.take_of_length_le (Nat.min_eq_left hfits).ge
      simp only [reduceCtorEq, or_self, if_false, dite_false, Answer.take, htake]
    · have hroom : (Buffer.bytes chunkSize).room (v.drop offset) = 4096 := rfl
      rw [getData_more h hp hfits, hroom]
      simp only [reduceCtorEq, total_ne_null, or_self, if_false, dite_true]
      rw [hroom] at hfits
      have hrest : v.drop (offset + 4096) = (v.drop offset).drop 4096 := by rw [List.drop_drop]
      have hlt : (v.drop (offset + 4096)).length < (v.drop offset).length := by
        rw [hrest, List.length_drop]
        omega
      rw [ih _ hlt (show (rs.setProgress column (.upTo (offset + 4096))).cell 0 column = some v
        from h) (by simp) _ rfl,
        setProgress_setProgress, hrest, List.append_assoc]
      simp only [Answer.take, chunkSize, List.take_take, min_self, List.take_append_drop]

/-- Nothing is left of a cell that was read to its end, and a NULL has no bytes. -/
theorem getDataChar_exhausted (h : rs.cell 0 column = none ∨ rs.progress column = .complete)
    (out : Bytes) : d.getDataChar column rs out = (out, rs) := by
  rw [Driver.getDataChar]
  cases hcell : rs.cell 0 column with
  | none => simp [getData_null hcell]
  | some v =>
    have hp : rs.progress column = .complete := by simpa [hcell] using h
    simp [getData_complete hcell hp]

theorem getDataBinary_exhausted (h : rs.cell 0 column = none ∨ rs.progress column = .complete)
    (out : Bytes) : d.getDataBinary column rs out = (out, rs) := by
  rw [Driver.getDataBinary]
  cases hcell : rs.cell 0 column with
  | none => simp [getData_null hcell]
  | some v =>
    have hp : rs.progress column = .complete := by simpa [hcell] using h
    simp [getData_complete hcell hp]

end

end Uniorm.Odbc
