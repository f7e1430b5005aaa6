import Mathlib.Data.PNat.Defs
import Mathlib.Data.List.Enum
import Mathlib.Data.List.GetD
import Uniorm.Odbc.Driver
import Uniorm.Schema.Column

/-! # Block reads over an ODBC statement

`fetch_rows` fills the fields of a projection from bound blocks, and
`result_set` walks the same blocks row by row. A value that outgrows its slot is
read again from the driver, which answers for the first row of the block
whatever row was asked for. Both reads give the server's rows exactly when no
such value stands behind the first row of a block and none that is read as text
carries a NUL byte.
-/
namespace Uniorm.Odbc

open Schema

/-- What the server holds for a query: every row has a cell for each column. -/
structure ResultSet where
  columns : List ColumnInfo
  rows : List Row
  aligned : ∀ row ∈ rows, row.length = columns.length

/-- The test for a value that did not fit: no length, or one above the room of the slot. -/
def truncated (room : ℕ) : Indicator → Bool
  | .null => false
  | .noTotal => true
  | .length n => room < n

def Indicator.len : Indicator → ℕ
  | .length n => n
  | _ => 0

namespace Driver

def writeText (d : Driver) (slot column row : ℕ) (rs : Rowset) : Bytes × Rowset :=
  let b := d.bound (.chars slot) column (rs.cell row column)
  if truncated (slot - 1) b.1 then d.readLongText rs column row else (b.2.take b.1.len, rs)

def writeBytes (d : Driver) (slot column row : ℕ) (rs : Rowset) : Bytes × Rowset :=
  let b := d.bound (.bytes slot) column (rs.cell row column)
  if truncated slot b.1 then d.readLongBytes rs column row else (b.2.take b.1.len, rs)

def writeFixed (d : Driver) (column row : ℕ) (rs : Rowset) : Bytes × Rowset :=
  ((d.bound .fixed column (rs.cell row column)).2, rs)

/-- `field_binding::write` of the bindings, and the branches of `value_of`. -/
def write (d : Driver) : Buffer → ℕ → ℕ → Rowset → Bytes × Rowset
  | .chars slot => d.writeText slot
  | .bytes slot => d.writeBytes slot
  | .fixed => d.writeFixed

end Driver

inductive FieldType where
  | string
  | bytes
  | fixed
  deriving DecidableEq, Repr

structure Field where
  type : FieldType
  optional : Bool
  deriving DecidableEq, Repr

inductive ReadError where
  | typeMismatch
  deriving DecidableEq, Repr

def ReadError.what : ReadError → String
  | .typeMismatch => "NULL value for non-optional projection field"

def Field.bind (f : Field) (info : Option ColumnInfo) : Buffer :=
  match f.type with
  | .string => .chars (stringSlot info)
  | .bytes => .bytes (binarySlot info)
  | .fixed => .fixed

/-- `finalize`: an optional takes NULL, another field rejects it. -/
def Field.finalize (f : Field) (d : Driver) (buffer : Buffer) (column row : ℕ) (rs : Rowset) :
    Except ReadError (Cell × Rowset) :=
  if (d.bound buffer column (rs.cell row column)).1 = .null then
    if f.optional then .ok (none, rs) else .error .typeMismatch
  else .ok (some (d.write buffer column row rs).1, (d.write buffer column row rs).2)

/-- `projection::fill_into` over the bindings from a column on. -/
def fillInto (d : Driver) (row : ℕ) : List (Field × Buffer) → ℕ → Rowset →
    Except ReadError (Row × Rowset)
  | [], _, rs => .ok ([], rs)
  | (f, buffer) :: rest, column, rs => do
    let (value, rs) ← f.finalize d buffer column row rs
    let (values, rs) ← fillInto d row rest (column + 1) rs
    pure (value :: values, rs)

def fillBlock (d : Driver) (bindings : List (Field × Buffer)) : ℕ → ℕ → Rowset →
    Except ReadError (List Row × Rowset)
  | 0, _, rs => .ok ([], rs)
  | count + 1, index, rs => do
    let (row, rs) ← fillInto d index bindings 0 rs
    let (rows, rs) ← fillBlock d bindings count (index + 1) rs
    pure (row :: rows, rs)

theorem fetch_rest_lt {n : ℕ+} {rest : List Row} (h : (fetch n rest).1.rowsFetched ≠ 0) :
    (fetch n rest).2.length < rest.length := by
  have hn := n.pos
  simp only [fetch, Rowset.rowsFetched, Rowset.ofRows, List.length_take, List.length_drop] at h ⊢
  omega

/-- The loop of `fetch_rows`. -/
def fetchBlocks (d : Driver) (n : ℕ+) (bindings : List (Field × Buffer)) (rest : List Row) :
    Except ReadError (List Row) :=
  if _h : (fetch n rest).1.rowsFetched = 0 then .ok []
  else do
    let (rows, _) ← fillBlock d bindings (fetch n rest).1.rowsFetched 0 (fetch n rest).1
    let more ← fetchBlocks d n bindings (fetch n rest).2
    pure (rows ++ more)
termination_by rest.length
decreasing_by exact fetch_rest_lt _h

/-- `projection::bind` places the fields on the columns by ordinal. -/
def bindFields (fields : List Field) (columns : List ColumnInfo) : List (Field × Buffer) :=
  fields.zipIdx.map fun p => (p.1, p.1.bind columns[p.2]?)

def fetchRows (d : Driver) (n : ℕ+) (fields : List Field) (t : ResultSet) :
    Except ReadError (List Row) :=
  fetchBlocks d n (bindFields fields t.columns) t.rows

/-- The slot `describe_and_bind` makes for a column. -/
def ColumnInfo.slot (info : ColumnInfo) : Buffer :=
  match info.type with
  | .boolean | .smallint | .integer | .bigint | .real | .doublePrecision
  | .timestamp | .date | .time => .fixed
  | .decimal => .chars (max (info.displaySize + 3) 32)
  | .binary | .varbinary => .bytes (max info.displaySize 32)
  | _ => .chars (max info.displaySize 31 + 1)

def valueOf (d : Driver) (slot : Buffer) (column row : ℕ) (rs : Rowset) : Cell × Rowset :=
  if (d.bound slot column (rs.cell row column)).1 = .null then (none, rs)
  else (some (d.write slot column row rs).1, (d.write slot column row rs).2)

def valuesFrom (d : Driver) (row : ℕ) : List Buffer → ℕ → Rowset → Row × Rowset
  | [], _, rs => ([], rs)
  | slot :: rest, column, rs =>
    let v := valueOf d slot column row rs
    let vs := valuesFrom d row rest (column + 1) v.2
    (v.1 :: vs.1, vs.2)

/-- The state of a `result_set` that its reads change. -/
structure Reading where
  rowset : Rowset
  rest : List Row
  rowsFetched : ℕ
  currentRow : ℕ

def Reading.fresh (t : ResultSet) : Reading := ⟨.ofRows [], t.rows, 0, 0⟩

/-- `next`, with no state where it returns false. -/
def Reading.next (n : ℕ+) (s : Reading) : Option Reading :=
  if s.currentRow < s.rowsFetched then some { s with currentRow := s.currentRow + 1 }
  else if (fetch n s.rest).1.rowsFetched = 0 then none
  else some ⟨(fetch n s.rest).1, (fetch n s.rest).2, (fetch n s.rest).1.rowsFetched, 1⟩

def Reading.current (d : Driver) (slots : List Buffer) (s : Reading) : Row × Reading :=
  let vs := valuesFrom d (s.currentRow - 1) slots 0 s.rowset
  (vs.1, { s with rowset := vs.2 })

/-- The rows that `next` has yet to reach. -/
def Reading.ahead (s : Reading) : ℕ := s.rest.length + (s.rowsFetched - s.currentRow)

theorem Reading.ahead_next_lt {n : ℕ+} {s s' : Reading} (h : s.next n = some s') :
    s'.ahead < s.ahead := by
  unfold Reading.next at h
  split at h
  · obtain rfl := Option.some.inj h
    simp only [Reading.ahead]
    omega
  · split at h
    · cases h
    · rename_i hfetched
      obtain rfl := Option.some.inj h
      have hn := n.pos
      simp only [Reading.ahead, fetch, Rowset.rowsFetched, Rowset.ofRows, List.length_take,
        List.length_drop] at hfetched ⊢
      omega

theorem Reading.ahead_current_lt (d : Driver) {n : ℕ+} (slots : List Buffer) {s s' : Reading}
    (h : s.next n = some s') : (s'.current d slots).2.ahead < s.ahead :=
  (Reading.ahead_next_lt h : s'.ahead < s.ahead)

/-- Every row read once: `while (rs.next()) rows.push_back(rs.current())`. -/
def readRows (d : Driver) (n : ℕ+) (slots : List Buffer) (s : Reading) : List Row :=
  match _h : s.next n with
  | none => []
  | some s' => (s'.current d slots).1 :: readRows d n slots (s'.current d slots).2
termination_by s.ahead
decreasing_by exact Reading.ahead_current_lt d slots _h

def readAll (d : Driver) (n : ℕ+) (t : ResultSet) : List Row :=
  readRows d n (t.columns.map ColumnInfo.slot) (.fresh t)

def Buffer.isText : Buffer → Bool
  | .chars _ => true
  | _ => false

/-- A value that does not fit its slot. -/
def Overlong (b : Buffer) (cell : Cell) : Prop := ∃ v, cell = some v ∧ b.room v < v.length

/-- A value that fits, or that a second read of its text gives back. -/
def Rereadable (b : Buffer) (cell : Cell) : Prop :=
  ∀ v, cell = some v → b.room v < v.length → b.isText = true → (0 : UInt8) ∉ v

section
variable {d : Driver} {slot : Buffer} {column row : ℕ} {rs : Rowset} {v : Bytes}

theorem bound_null_iff {cell : Cell} : (d.bound slot column cell).1 = .null ↔ cell = none := by
  cases cell with
  | none => simp [Driver.bound]
  | some v =>
    rw [Driver.bound]
    split
    · simp
    · simp [total_ne_null]

theorem write_of_fits (h : rs.cell row column = some v) (hfits : v.length ≤ slot.room v) :
    d.write slot column row rs = (v, rs) := by
  cases slot with
  | chars size =>
    have hroom : ¬ size - 1 < v.length := Nat.not_lt.mpr hfits
    simp [Driver.write, Driver.writeText, h, Driver.bound, hfits, truncated, hroom, Indicator.len]
  | bytes size =>
    have hroom : ¬ size < v.length := Nat.not_lt.mpr hfits
    simp [Driver.write, Driver.writeBytes, h, Driver.bound, hfits, truncated, hroom,
      Indicator.len]
  | fixed => simp [Driver.write, Driver.writeFixed, h, Driver.bound, Buffer.room]

theorem valueOf_of_not_overlong (h : ¬ Overlong slot (rs.cell row column)) :
    valueOf d slot column row rs = (rs.cell row column, rs) := by
  cases hcell : rs.cell row column with
  | none => simp [valueOf, hcell, Driver.bound]
  | some v =>
    have hfits : v.length ≤ slot.room v := by
      by_contra hlong
      exact h ⟨v, hcell, by omega⟩
    rw [valueOf, if_neg (by simp [bound_null_iff, hcell]), write_of_fits hcell hfits]

def Driver.readLong (d : Driver) (slot : Buffer) (rs : Rowset) (column row : ℕ) : Bytes × Rowset :=
  if slot.isText then d.readLongText rs column row else d.readLongBytes rs column row

theorem truncated_total (column : ℕ) (hlong : slot.room v < v.length) (left : ℕ)
    (hroom : left ≤ slot.room v) : truncated left (d.total column v) = true := by
  unfold Driver.total
  split
  · simp only [truncated, decide_eq_true_eq]
    omega
  · rfl

theorem valueOf_of_overlong (h : rs.cell row column = some v) (hlong : slot.room v < v.length) :
    valueOf d slot column row rs = (some (d.readLong slot rs column row).1,
      (d.readLong slot rs column row).2) := by
  have hbound : d.bound slot column (some v) = (d.total column v, v.take (slot.room v)) := by
    rw [Driver.bound, if_neg (by omega)]
  have hwrite : d.write slot column row rs = d.readLong slot rs column row := by
    cases slot with
    | chars size =>
      have htrunc := truncated_total (d := d) column hlong (size - 1) le_rfl
      simp [Driver.write, Driver.writeText, h, hbound, htrunc, Driver.readLong, Buffer.isText]
    | bytes size =>
      have htrunc := truncated_total (d := d) column hlong size le_rfl
      simp [Driver.write, Driver.writeBytes, h, hbound, htrunc, Driver.readLong, Buffer.isText]
    | fixed => exact absurd hlong (lt_irrefl _)
  rw [valueOf, if_neg (by simp [bound_null_iff, h]), hwrite]

theorem readLong_spec (slot : Buffer) (row : ℕ) (h : rs.cell 0 column = some v)
    (hp : rs.progress column = .upTo 0) :
    ∃ w, d.readLong slot rs column row = (w, rs.setProgress column .complete) ∧
      w.length ≤ v.length ∧ (w = v ↔ (slot.isText = true → (0 : UInt8) ∉ v)) := by
  unfold Driver.readLong
  cases htext : slot.isText with
  | true =>
    obtain ⟨w, hread, hle, hiff⟩ := getDataChar_spec (d := d) h hp []
    rw [List.drop_zero] at hle hiff
    exact ⟨w, hread, hle, by simpa using hiff⟩
  | false =>
    have hread := getDataBinary_spec (d := d) h hp []
    exact ⟨v, by simpa [Driver.readLongBytes] using hread, le_rfl, by simp⟩

theorem readLong_exhausted (h : rs.cell 0 column = none ∨ rs.progress column = .complete) :
    d.readLong slot rs column row = ([], rs) := by
  unfold Driver.readLong Driver.readLongText Driver.readLongBytes
  split
  · exact getDataChar_exhausted h []
  · exact getDataBinary_exhausted h []

/-- What the rows behind the first find of a column: it was read to its end, or it was never
read because the first row's value fits. -/
def Settled (rs : Rowset) (slot : Buffer) (column : ℕ) : Prop :=
  rs.progress column = .complete ∨
    rs.progress column = .upTo 0 ∧ ¬ Overlong slot (rs.cell 0 column)

/-- In the first row the driver is on the row that is asked for. -/
theorem valueOf_first (hp : rs.progress column = .upTo 0) :
    ∃ value rs', valueOf d slot column 0 rs = (value, rs') ∧
      (rs' = rs ∨ rs' = rs.setProgress column .complete) ∧ Settled rs' slot column ∧
      (value = rs.cell 0 column ↔ Rereadable slot (rs.cell 0 column)) := by
  by_cases hlong : Overlong slot (rs.cell 0 column)
  · obtain ⟨v, hv, hlen⟩ := hlong
    obtain ⟨w, hread, -, hiff⟩ := readLong_spec (d := d) slot 0 hv hp
    refine ⟨some w, rs.setProgress column .complete, ?_, .inr rfl, .inl (by simp), ?_⟩
    · rw [valueOf_of_overlong hv hlen, hread]
    · rw [hv, Option.some.injEq, hiff]
      constructor
      · intro htext u hu _
        obtain rfl := Option.some.inj hu
        exact htext
      · exact fun hre => hre v rfl hlen
  · refine ⟨_, _, valueOf_of_not_overlong hlong, .inl rfl, .inr ⟨hp, hlong⟩, ?_⟩
    simp only [true_iff]
    exact fun v hv hlen => absurd ⟨v, hv, hlen⟩ hlong

theorem Buffer.room_eq_of_lt {b : Buffer} {u v : Bytes} (h : b.room v < v.length) :
    b.room u = b.room v := by
  cases b with
  | chars size => rfl
  | bytes size => rfl
  | fixed => exact absurd h (lt_irrefl _)

/-- In a later row a value that does not fit is lost: the second read is about another row. -/
theorem valueOf_later (hs : Settled rs slot column) :
    ∃ value rs', valueOf d slot column row rs = (value, rs') ∧
      (rs' = rs ∨ rs' = rs.setProgress column .complete) ∧ Settled rs' slot column ∧
      (value = rs.cell row column ↔ ¬ Overlong slot (rs.cell row column)) := by
  by_cases hlong : Overlong slot (rs.cell row column)
  · obtain ⟨v, hv, hlen⟩ := hlong
    have hnot : ∀ w : Bytes, w.length < v.length →
        (some w = rs.cell row column ↔ ¬ Overlong slot (rs.cell row column)) := by
      intro w hw
      refine iff_of_false ?_ (not_not_intro ⟨v, hv, hlen⟩)
      rw [hv, Option.some.injEq]
      rintro rfl
      exact lt_irrefl _ hw
    have hempty : ([] : Bytes).length < v.length := by
      rw [List.length_nil]
      omega
    rcases hs with hdone | ⟨hp, hfirst⟩
    · refine ⟨some [], rs, ?_, .inl rfl, .inl hdone, hnot [] hempty⟩
      rw [valueOf_of_overlong hv hlen, readLong_exhausted (.inr hdone)]
    · cases hu : rs.cell 0 column with
      | none =>
        refine ⟨some [], rs, ?_, .inl rfl, .inr ⟨hp, hfirst⟩, hnot [] hempty⟩
        rw [valueOf_of_overlong hv hlen, readLong_exhausted (.inl hu)]
      | some u =>
        obtain ⟨w, hread, hle, -⟩ := readLong_spec (d := d) slot row hu hp
        refine ⟨some w, rs.setProgress column .complete, ?_, .inr rfl, .inl (by simp),
          hnot w ?_⟩
        · rw [valueOf_of_overlong hv hlen, hread]
        · have hfits : ¬ slot.room u < u.length := fun h => hfirst ⟨u, hu, h⟩
          have hroom := Buffer.room_eq_of_lt (u := u) hlen
          omega
  · refine ⟨_, _, valueOf_of_not_overlong hlong, .inl rfl, hs, ?_⟩
    simp [hlong]

end

def cellsFrom (rs : Rowset) (row : ℕ) : List Buffer → ℕ → Row
  | [], _ => []
  | _ :: rest, column => rs.cell row column :: cellsFrom rs row rest (column + 1)

theorem Rowset.cell_congr {rs rs' : Rowset} (h : rs'.rows = rs.rows) (row column : ℕ) :
    rs'.cell row column = rs.cell row column := by
  rw [Rowset.cell, Rowset.cell, h]

theorem cellsFrom_congr {rs rs' : Rowset} (h : rs'.rows = rs.rows) (row : ℕ)
    (slots : List Buffer) (column : ℕ) :
    cellsFrom rs' row slots column = cellsFrom rs row slots column := by
  induction slots generalizing column with
  | nil => rfl
  | cons b slots ih => rw [cellsFrom, cellsFrom, ih, Rowset.cell_congr h]

theorem Settled.congr {rs rs' : Rowset} {slot : Buffer} {column : ℕ} (h : Settled rs slot column)
    (hrows : rs'.rows = rs.rows) (hp : rs'.progress column = rs.progress column) :
    Settled rs' slot column := by
  rwa [Settled, hp, Rowset.cell_congr hrows]

/-- What a read of one cell says, for cells that meet `Pre` before it. -/
structure CellRead (d : Driver) (row : ℕ) (Pre : Rowset → Buffer → ℕ → Prop)
    (Good : Buffer → Cell → Prop) : Prop where
  read : ∀ rs b c, Pre rs b c → ∃ value rs', valueOf d b c row rs = (value, rs') ∧
    (rs' = rs ∨ rs' = rs.setProgress c .complete) ∧ Settled rs' b c ∧
    (value = rs.cell row c ↔ Good b (rs.cell row c))
  frame : ∀ rs b c c', c' ≠ c → Pre rs b c → Pre (rs.setProgress c' .complete) b c

structure RowRead (rs : Rowset) (row : ℕ) (slots : List Buffer) (column : ℕ)
    (Good : Buffer → Cell → Prop) (out : Row × Rowset) : Prop where
  rows : out.2.rows = rs.rows
  before : ∀ c < column, out.2.progress c = rs.progress c
  settled : ∀ p ∈ slots.zipIdx column, Settled out.2 p.1 p.2
  exact_iff : out.1 = cellsFrom rs row slots column ↔
    ∀ p ∈ slots.zipIdx column, Good p.1 (rs.cell row p.2)

theorem Rowset.progress_setProgress_of_ne (rs : Rowset) {column c : ℕ} (p : Progress)
    (h : c ≠ column) : (rs.setProgress column p).progress c = rs.progress c :=
  Function.update_of_ne h _ _

theorem CellRead.valuesFrom {d : Driver} {row : ℕ} {Pre : Rowset → Buffer → ℕ → Prop}
    {Good : Buffer → Cell → Prop} (hcell : CellRead d row Pre Good) (slots : List Buffer)
    (column : ℕ) (rs : Rowset) (hpre : ∀ p ∈ slots.zipIdx column, Pre rs p.1 p.2) :
    RowRead rs row slots column Good (valuesFrom d row slots column rs) := by
  induction slots generalizing column rs with
  | nil => exact ⟨rfl, fun _ _ => rfl, by simp, by simp [Odbc.valuesFrom, cellsFrom]⟩
  | cons b slots ih =>
    rw [List.zipIdx_cons, List.forall_mem_cons] at hpre
    obtain ⟨value, rs', hread, hrs', hsettled, hiff⟩ := hcell.read rs b column hpre.1
    have hrows : rs'.rows = rs.rows := by
      rcases hrs' with rfl | rfl
      · rfl
      · rfl
    have hother (c : ℕ) (hc : c ≠ column) : rs'.progress c = rs.progress c := by
      rcases hrs' with rfl | rfl
      · rfl
      · exact rs.progress_setProgress_of_ne _ hc
    have hrest : ∀ p ∈ slots.zipIdx (column + 1), Pre rs' p.1 p.2 := by
      intro p hp
      have hlt := List.le_snd_of_mem_zipIdx hp
      rcases hrs' with rfl | rfl
      · exact hpre.2 p hp
      · exact hcell.frame rs p.1 p.2 column (by omega) (hpre.2 p hp)
    have hout := ih (column + 1) rs' hrest
    simp only [Odbc.valuesFrom, hread]
    refine ⟨hout.rows.trans hrows, ?_, ?_, ?_⟩
    · intro c hc
      rw [hout.before c (by omega), hother c (by omega)]
    · rw [List.zipIdx_cons, List.forall_mem_cons]
      exact ⟨hsettled.congr hout.rows (hout.before column (by omega)), hout.settled⟩
    · rw [cellsFrom, List.cons.injEq, hiff, ← cellsFrom_congr hrows, hout.exact_iff,
        List.zipIdx_cons, List.forall_mem_cons]
      simp only [Rowset.cell_congr hrows]

theorem cellRead_first (d : Driver) :
    CellRead d 0 (fun rs _ c => rs.progress c = .upTo 0) Rereadable where
  read _ _ _ hp := valueOf_first hp
  frame rs _ _ _ hne hp := (rs.progress_setProgress_of_ne _ hne.symm).trans hp

theorem cellRead_later (d : Driver) (row : ℕ) :
    CellRead d row Settled fun b cell => ¬ Overlong b cell where
  read _ _ _ hs := valueOf_later hs
  frame rs _ _ _ hne hs := hs.congr rfl (rs.progress_setProgress_of_ne _ hne.symm)

def walkBlock (d : Driver) (slots : List Buffer) : ℕ → ℕ → Rowset → List Row × Rowset
  | 0, _, rs => ([], rs)
  | count + 1, index, rs =>
    let r := valuesFrom d index slots 0 rs
    let rest := walkBlock d slots count (index + 1) r.2
    (r.1 :: rest.1, rest.2)

def rowsFrom (rs : Rowset) (slots : List Buffer) : ℕ → ℕ → List Row
  | 0, _ => []
  | count + 1, index => cellsFrom rs index slots 0 :: rowsFrom rs slots count (index + 1)

theorem rowsFrom_congr {rs rs' : Rowset} (h : rs'.rows = rs.rows) (slots : List Buffer)
    (count index : ℕ) : rowsFrom rs' slots count index = rowsFrom rs slots count index := by
  induction count generalizing index with
  | zero => rfl
  | succ count ih => rw [rowsFrom, rowsFrom, ih, cellsFrom_congr h]

theorem walkBlock_length (d : Driver) (slots : List Buffer) (count index : ℕ) (rs : Rowset) :
    (walkBlock d slots count index rs).1.length = count := by
  induction count generalizing index rs with
  | zero => rfl
  | succ count ih => simp [walkBlock, ih]

/-- Behind the first row of a block a row is right exactly when all its values fit. -/
theorem walkBlock_later (d : Driver) (slots : List Buffer) (count index : ℕ) (rs : Rowset)
    (hs : ∀ p ∈ slots.zipIdx, Settled rs p.1 p.2) :
    (walkBlock d slots count index rs).1 = rowsFrom rs slots count index ↔
      ∀ i, index ≤ i → i < index + count → ∀ p ∈ slots.zipIdx, ¬ Overlong p.1 (rs.cell i p.2) := by
  induction count generalizing index rs with
  | zero =>
    simp only [walkBlock, rowsFrom, true_iff]
    intro i hle hlt
    omega
  | succ count ih =>
    have hrow := (cellRead_later d index).valuesFrom slots 0 rs hs
    rw [walkBlock, rowsFrom, List.cons.injEq, hrow.exact_iff, ← rowsFrom_congr hrow.rows,
      ih _ _ hrow.settled]
    simp only [Rowset.cell_congr hrow.rows]
    constructor
    · rintro ⟨hfirst, hrest⟩ i hle hlt
      rcases Nat.eq_or_lt_of_le hle with rfl | hgt
      · exact hfirst
      · exact hrest i hgt (by omega)
    · intro h
      exact ⟨h index le_rfl (by omega), fun i hle hlt => h i (by omega) (by omega)⟩

theorem walkBlock_fresh (d : Driver) (slots : List Buffer) (rows : List Row) :
    (walkBlock d slots rows.length 0 (.ofRows rows)).1 =
        rowsFrom (.ofRows rows) slots rows.length 0 ↔
      ∀ r < rows.length, ∀ p ∈ slots.zipIdx, Overlong p.1 ((Rowset.ofRows rows).cell r p.2) →
        r = 0 ∧ Rereadable p.1 ((Rowset.ofRows rows).cell r p.2) := by
  cases hlen : rows.length with
  | zero => simp [walkBlock, rowsFrom]
  | succ count =>
    have hrow := (cellRead_first d).valuesFrom slots 0 (.ofRows rows) fun _ _ => rfl
    rw [walkBlock, rowsFrom, List.cons.injEq, hrow.exact_iff, ← rowsFrom_congr hrow.rows,
      walkBlock_later _ _ _ _ _ hrow.settled]
    simp only [Rowset.cell_congr hrow.rows]
    constructor
    · rintro ⟨hfirst, hrest⟩ r hr p hp hlong
      cases r with
      | zero => exact ⟨rfl, hfirst p hp⟩
      | succ r => exact absurd hlong (hrest (r + 1) (by omega) (by omega) p hp)
    · intro h
      refine ⟨fun p hp v hv hlen => ?_, fun i hle hlt p hp hlong => ?_⟩
      · exact (h 0 (by omega) p hp ⟨v, hv, hlen⟩).2 v hv hlen
      · have := (h i (by omega) p hp hlong).1
        omega

theorem cellsFrom_eq_drop {rs : Rowset} {row : ℕ} {slots : List Buffer} {column : ℕ}
    (h : column + slots.length = (rs.rows.getD row []).length) :
    cellsFrom rs row slots column = (rs.rows.getD row []).drop column := by
  induction slots generalizing column with
  | nil =>
    rw [cellsFrom, List.drop_of_length_le]
    simp only [List.length_nil] at h
    omega
  | cons b slots ih =>
    rw [List.length_cons] at h
    have hlt : column < (rs.rows.getD row []).length := by omega
    rw [cellsFrom, ih (by omega), List.drop_eq_getElem_cons hlt, Rowset.cell,
      List.getD_eq_getElem _ _ hlt]

theorem rowsFrom_eq_drop {rows : List Row} {slots : List Buffer}
    (haligned : ∀ row ∈ rows, row.length = slots.length) {count index : ℕ}
    (h : index + count = rows.length) :
    rowsFrom (.ofRows rows) slots count index = rows.drop index := by
  induction count generalizing index with
  | zero => rw [rowsFrom, List.drop_of_length_le (by omega)]
  | succ count ih =>
    have hlt : index < rows.length := by omega
    have hrow : (Rowset.ofRows rows).rows.getD index [] = rows[index] :=
      List.getD_eq_getElem rows [] hlt
    have hlen : 0 + slots.length = ((Rowset.ofRows rows).rows.getD index []).length := by
      rw [hrow, haligned _ (List.getElem_mem _), Nat.zero_add]
    rw [rowsFrom, ih (by omega), cellsFrom_eq_drop hlen, hrow, List.drop_zero,
      ← List.drop_eq_getElem_cons (by omega)]

def readBlocks (d : Driver) (n : ℕ+) (slots : List Buffer) (rest : List Row) : List Row :=
  if _h : (fetch n rest).1.rowsFetched = 0 then []
  else (walkBlock d slots (fetch n rest).1.rowsFetched 0 (fetch n rest).1).1 ++
    readBlocks d n slots (fetch n rest).2
termination_by rest.length
decreasing_by exact fetch_rest_lt _h

/-- Every value that does not fit its slot stands in the first row of its block and, if it is read
as text, has no NUL byte. -/
def ReadInPlace (n : ℕ) (slots : List Buffer) (rows : List Row) : Prop :=
  ∀ r < rows.length, ∀ p ∈ slots.zipIdx, Overlong p.1 ((rows.getD r []).getD p.2 none) →
    r % n = 0 ∧ Rereadable p.1 ((rows.getD r []).getD p.2 none)

theorem rowsFetched_eq_zero_iff {n : ℕ+} {rest : List Row} :
    (fetch n rest).1.rowsFetched = 0 ↔ rest = [] := by
  have hn := n.pos
  simp only [fetch, Rowset.rowsFetched, Rowset.ofRows, List.length_take,
    ← List.length_eq_zero_iff]
  omega

theorem readBlocks_length (d : Driver) (n : ℕ+) (slots : List Buffer) (rest : List Row) :
    (readBlocks d n slots rest).length = rest.length := by
  induction hk : rest.length using Nat.strongRecOn generalizing rest with
  | ind k ih =>
    subst hk
    rw [readBlocks]
    split
    · rename_i h
      rw [rowsFetched_eq_zero_iff.mp h]
    · rename_i h
      rw [List.length_append, walkBlock_length, ih _ (fetch_rest_lt h) _ rfl]
      simp only [fetch, Rowset.rowsFetched, Rowset.ofRows, List.length_take, List.length_drop]
      omega

/-- The condition on all rows is one on the first block and one on what is behind it. -/
theorem readInPlace_split {n : ℕ+} {slots : List Buffer} {rows : List Row} :
    ReadInPlace n slots rows ↔
      (∀ r < (rows.take n).length, ∀ p ∈ slots.zipIdx,
        Overlong p.1 (((rows.take n).getD r []).getD p.2 none) →
          r = 0 ∧ Rereadable p.1 (((rows.take n).getD r []).getD p.2 none)) ∧
      ReadInPlace n slots (rows.drop n) := by
  have hn := n.pos
  have htake (r : ℕ) (hr : r < n) : (rows.take n).getD r [] = rows.getD r [] := by
    simp [List.getD_eq_getElem?_getD, hr]
  have hdrop (r : ℕ) : (rows.drop n).getD r [] = rows.getD (n + r) [] := by
    simp [List.getD_eq_getElem?_getD, List.getElem?_drop]
  constructor
  · intro h
    refine ⟨fun r hr p hp hlong => ?_, fun r hr p hp hlong => ?_⟩
    · rw [List.length_take] at hr
      rw [htake r (by omega)] at hlong ⊢
      have hplace := h r (by omega) p hp hlong
      exact ⟨by rw [← hplace.1, Nat.mod_eq_of_lt (by omega)], hplace.2⟩
    · rw [List.length_drop] at hr
      rw [hdrop] at hlong ⊢
      have hplace := h (n + r) (by omega) p hp hlong
      rwa [Nat.add_mod_left] at hplace
  · rintro ⟨hfirst, hrest⟩ r hr p hp hlong
    by_cases hrn : r < n
    · have hplace := hfirst r (by rw [List.length_take]; omega) p hp
      rw [htake r hrn] at hplace
      obtain ⟨rfl, hre⟩ := hplace hlong
      exact ⟨Nat.zero_mod _, hre⟩
    · have hplace := hrest (r - n) (by rw [List.length_drop]; omega) p hp
      rw [hdrop, Nat.add_sub_cancel' (by omega)] at hplace
      obtain ⟨hmod, hre⟩ := hplace hlong
      refine ⟨?_, hre⟩
      rwa [← Nat.add_mod_left, Nat.add_sub_cancel' (by omega)] at hmod

theorem readBlocks_eq_iff (d : Driver) (n : ℕ+) (slots : List Buffer) (rows : List Row)
    (haligned : ∀ row ∈ rows, row.length = slots.length) :
    readBlocks d n slots rows = rows ↔ ReadInPlace n slots rows := by
  induction hk : rows.length using Nat.strongRecOn generalizing rows with
  | ind k ih =>
    subst hk
    rw [readBlocks]
    split
    · rename_i h
      simp [rowsFetched_eq_zero_iff.mp h, ReadInPlace]
    · rename_i h
      have hblock : ∀ row ∈ rows.take n, row.length = slots.length :=
        fun row hrow => haligned row (List.mem_of_mem_take hrow)
      have hfirst := walkBlock_fresh d slots (rows.take n)
      rw [rowsFrom_eq_drop hblock (Nat.zero_add _), List.drop_zero] at hfirst
      have hrest := ih _ (fetch_rest_lt h) (rows.drop n)
        (fun row hrow => haligned row (List.mem_of_mem_drop hrow)) rfl
      have hparts := Foundation.append_eq_append_iff_of_length_le
        (walkBlock_length d slots (rows.take n).length 0 (.ofRows (rows.take n))).le
        (readBlocks_length d n slots (rows.drop n)).le
      rw [List.take_append_drop] at hparts
      rw [readInPlace_split, ← hrest]
      exact hparts.trans (and_congr_left' hfirst)

theorem readLong_rows (d : Driver) (slot : Buffer) (rs : Rowset) (column row : ℕ) :
    (d.readLong slot rs column row).2.rows = rs.rows := by
  cases hcell : rs.cell 0 column with
  | none => rw [readLong_exhausted (.inl hcell)]
  | some v =>
    cases hp : rs.progress column with
    | complete => rw [readLong_exhausted (.inr hp)]
    | upTo offset =>
      unfold Driver.readLong Driver.readLongText Driver.readLongBytes
      split
      · obtain ⟨w, hread, -⟩ := getDataChar_spec (d := d) hcell hp []
        rw [hread]
        rfl
      · rw [getDataBinary_spec hcell hp []]
        rfl

theorem valueOf_rows (d : Driver) (slot : Buffer) (column row : ℕ) (rs : Rowset) :
    (valueOf d slot column row rs).2.rows = rs.rows := by
  by_cases hlong : Overlong slot (rs.cell row column)
  · obtain ⟨v, hv, hlen⟩ := hlong
    rw [valueOf_of_overlong hv hlen]
    exact readLong_rows d slot rs column row
  · rw [valueOf_of_not_overlong hlong]

theorem valuesFrom_rows (d : Driver) (row : ℕ) (slots : List Buffer) (column : ℕ) (rs : Rowset) :
    (valuesFrom d row slots column rs).2.rows = rs.rows := by
  induction slots generalizing column rs with
  | nil => rfl
  | cons b slots ih => rw [valuesFrom, ih, valueOf_rows]

theorem finalize_eq (f : Field) (d : Driver) (b : Buffer) (column row : ℕ) (rs : Rowset) :
    f.finalize d b column row rs =
      if !f.optional && (rs.cell row column).isNone then .error .typeMismatch
      else .ok (valueOf d b column row rs) := by
  unfold Field.finalize valueOf
  cases hcell : rs.cell row column with
  | none => cases f.optional <;> simp [Driver.bound]
  | some v =>
    have hnull : ¬ (d.bound b column (some v)).1 = .null := by simp [bound_null_iff]
    simp [hnull]

def rejectsNull {α : Type*} (bindings : List (Field × α)) (row : Row) : Bool :=
  bindings.zipIdx.any fun p => !p.1.1.optional && (row.getD p.2 none).isNone

theorem fillInto_eq (d : Driver) (row : ℕ) (bindings : List (Field × Buffer)) (column : ℕ)
    (rs : Rowset) : fillInto d row bindings column rs =
      if (bindings.zipIdx column).any fun p => !p.1.1.optional && (rs.cell row p.2).isNone then
        .error .typeMismatch
      else .ok (valuesFrom d row (bindings.map (·.2)) column rs) := by
  induction bindings generalizing column rs with
  | nil => rfl
  | cons fb bindings ih =>
    obtain ⟨f, b⟩ := fb
    rw [fillInto, finalize_eq, List.zipIdx_cons, List.any_cons]
    cases hnull : !f.optional && (rs.cell row column).isNone with
    | true => rfl
    | false =>
      have hcells := Rowset.cell_congr (valueOf_rows d b column row rs)
      have hrest := ih (column + 1) (valueOf d b column row rs).2
      simp only [hcells] at hrest
      simp only [Bool.false_eq_true, if_false, Bool.false_or, List.map_cons, valuesFrom]
      change (fillInto d row bindings (column + 1) (valueOf d b column row rs).2 >>= fun out =>
        pure ((valueOf d b column row rs).1 :: out.1, out.2)) = _
      rw [hrest]
      split <;> rfl

theorem fillBlock_eq (d : Driver) (bindings : List (Field × Buffer)) (count index : ℕ)
    (rs : Rowset) (h : index + count = rs.rows.length) : fillBlock d bindings count index rs =
      if (rs.rows.drop index).any (rejectsNull bindings) then .error .typeMismatch
      else .ok (walkBlock d (bindings.map (·.2)) count index rs) := by
  induction count generalizing index rs with
  | zero =>
    rw [fillBlock, List.drop_of_length_le (by omega)]
    rfl
  | succ count ih =>
    have hlt : index < rs.rows.length := by omega
    have hrow : ((bindings.zipIdx 0).any fun p => !p.1.1.optional && (rs.cell index p.2).isNone) =
        rejectsNull bindings rs.rows[index] := by
      simp only [rejectsNull, Rowset.cell, List.getD_eq_getElem _ _ hlt]
    rw [fillBlock, fillInto_eq, hrow, List.drop_eq_getElem_cons hlt, List.any_cons]
    cases rejectsNull bindings rs.rows[index] with
    | true => rfl
    | false =>
      have hrows := valuesFrom_rows d index (bindings.map (·.2)) 0 rs
      have hrest := ih (index + 1) (valuesFrom d index (bindings.map (·.2)) 0 rs).2
        (by rw [hrows]; omega)
      rw [hrows] at hrest
      simp only [Bool.false_eq_true, if_false, Bool.false_or, walkBlock]
      change (fillBlock d bindings count (index + 1)
        (valuesFrom d index (bindings.map (·.2)) 0 rs).2 >>= fun out =>
          pure ((valuesFrom d index (bindings.map (·.2)) 0 rs).1 :: out.1, out.2)) = _
      rw [hrest]
      split <;> rfl

theorem fetchBlocks_eq (d : Driver) (n : ℕ+) (bindings : List (Field × Buffer))
    (rest : List Row) : fetchBlocks d n bindings rest =
      if rest.any (rejectsNull bindings) then .error .typeMismatch
      else .ok (readBlocks d n (bindings.map (·.2)) rest) := by
  induction hk : rest.length using Nat.strongRecOn generalizing rest with
  | ind k ih =>
    subst hk
    rw [fetchBlocks, readBlocks]
    split
    · rename_i h
      rw [rowsFetched_eq_zero_iff.mp h]
      rfl
    · rename_i h
      have hany : rest.any (rejectsNull bindings) = ((rest.take n).any (rejectsNull bindings) ||
          (rest.drop n).any (rejectsNull bindings)) := by
        rw [← List.any_append, List.take_append_drop]
      have hrest : fetchBlocks d n bindings (rest.drop n) = _ := ih _ (fetch_rest_lt h) _ rfl
      have hblock := fillBlock_eq d bindings (rest.take n).length 0 (.ofRows (rest.take n))
        (Nat.zero_add _)
      rw [List.drop_zero] at hblock
      change (fillBlock d bindings (rest.take n).length 0 (.ofRows (rest.take n)) >>= fun out =>
        fetchBlocks d n bindings (rest.drop n) >>= fun more => pure (out.1 ++ more)) = _
      rw [hblock, hrest, hany]
      change (if (rest.take n).any (rejectsNull bindings) = true then _ else _) >>= _ = _
      cases (rest.take n).any (rejectsNull bindings) with
      | true => rfl
      | false =>
        cases (rest.drop n).any (rejectsNull bindings) with
        | true => rfl
        | false => rfl

/-- `next` and `current` in turn read what is left of the block, then the blocks behind it. -/
theorem readRows_eq (d : Driver) (n : ℕ+) (slots : List Buffer) (s : Reading)
    (hs : s.currentRow ≤ s.rowsFetched) : readRows d n slots s =
      (walkBlock d slots (s.rowsFetched - s.currentRow) s.currentRow s.rowset).1 ++
        readBlocks d n slots s.rest := by
  induction hk : s.ahead using Nat.strongRecOn generalizing s with
  | ind k ih =>
    subst hk
    rw [readRows]
    split
    · rename_i hnext
      unfold Reading.next at hnext
      split at hnext
      · cases hnext
      · rename_i hlast
        split at hnext
        · rename_i hempty
          rw [readBlocks, dif_pos hempty, Nat.sub_eq_zero_of_le (by omega)]
          rfl
        · cases hnext
    · rename_i s' hnext
      have hlt := Reading.ahead_current_lt d slots hnext
      unfold Reading.next at hnext
      split at hnext
      · rename_i hmore
        obtain rfl := Option.some.inj hnext
        have hcount : s.rowsFetched - s.currentRow = s.rowsFetched - (s.currentRow + 1) + 1 := by
          omega
        rw [ih _ hlt _ (Nat.succ_le_of_lt hmore) rfl, hcount, walkBlock]
        rfl
      · rename_i hlast
        split at hnext
        · cases hnext
        · rename_i hfetched
          obtain rfl := Option.some.inj hnext
          have hcount : (fetch n s.rest).1.rowsFetched =
              (fetch n s.rest).1.rowsFetched - 1 + 1 := by omega
          have hblocks : readBlocks d n slots s.rest =
              (walkBlock d slots ((fetch n s.rest).1.rowsFetched - 1 + 1) 0 (fetch n s.rest).1).1 ++
                readBlocks d n slots (fetch n s.rest).2 := by
            rw [readBlocks, dif_neg hfetched, ← hcount]
          have hnone : s.rowsFetched - s.currentRow = 0 := by omega
          rw [ih _ hlt _ (Nat.one_le_iff_ne_zero.mpr hfetched) rfl, hblocks, hnone]
          rfl

/-- What a typed read owes its caller: the server's rows, unless a field cannot hold one. -/
def serverRows (fields : List Field) (t : ResultSet) : Except ReadError (List Row) :=
  if t.rows.any (rejectsNull (bindFields fields t.columns)) then .error .typeMismatch
  else .ok t.rows

theorem bindFields_length (fields : List Field) (columns : List ColumnInfo) :
    (bindFields fields columns).length = fields.length := by
  simp [bindFields]

theorem readAll_eq (d : Driver) (n : ℕ+) (t : ResultSet) :
    readAll d n t = readBlocks d n (t.columns.map ColumnInfo.slot) t.rows :=
  readRows_eq d n _ (.fresh t) le_rfl

/-- Both reads give the server's rows exactly when every value that outgrows its slot stands in
the first row of a block and has no NUL if it is text; a typed read that must reject a NULL does
so in any case. -/
theorem block_reads_exact_iff (d : Driver) (n : ℕ+) (t : ResultSet) (fields : List Field)
    (hfields : fields.length = t.columns.length) :
    (fetchRows d n fields t = serverRows fields t ↔
      t.rows.any (rejectsNull (bindFields fields t.columns)) = true ∨
        ReadInPlace n ((bindFields fields t.columns).map (·.2)) t.rows) ∧
    (readAll d n t = t.rows ↔ ReadInPlace n (t.columns.map ColumnInfo.slot) t.rows) := by
  constructor
  · rw [fetchRows, fetchBlocks_eq, serverRows]
    split
    · rename_i hnull
      simp [hnull]
    · rename_i hnull
      have haligned : ∀ row ∈ t.rows,
          row.length = ((bindFields fields t.columns).map (·.2)).length := by
        intro row hrow
        rw [List.length_map, bindFields_length, hfields, t.aligned row hrow]
      rw [Except.ok.injEq, readBlocks_eq_iff d n _ t.rows haligned]
      simp [hnull]
  · rw [readAll_eq, readBlocks_eq_iff]
    intro row hrow
    rw [List.length_map, t.aligned row hrow]

def twoTexts (first second : Bytes) : ResultSet where
  columns := [⟨.longvarchar, 0⟩]
  rows := [[some first], [some second]]
  aligned := by simp

theorem readInPlace_twoTexts (n slot : ℕ) (first second : Bytes) :
    ReadInPlace n [.chars slot] [[some first], [some second]] ↔
      (slot - 1 < first.length → (0 : UInt8) ∉ first) ∧
      (slot - 1 < second.length → 1 % n = 0 ∧ (0 : UInt8) ∉ second) := by
  have hlong (v : Bytes) : Overlong (.chars slot) (some v) ↔ slot - 1 < v.length := by
    simp [Overlong, Buffer.room]
  have hre (v : Bytes) (h : slot - 1 < v.length) :
      Rereadable (.chars slot) (some v) ↔ (0 : UInt8) ∉ v := by
    simp [Rereadable, Buffer.room, Buffer.isText, h]
  constructor
  · intro h
    refine ⟨fun hlen => ?_, fun hlen => ?_⟩
    · have hplace := h 0 (by simp) (.chars slot, 0) (by simp) ((hlong first).mpr hlen)
      exact (hre first hlen).mp hplace.2
    · have hplace := h 1 (by simp) (.chars slot, 0) (by simp) ((hlong second).mpr hlen)
      exact ⟨hplace.1, (hre second hlen).mp hplace.2⟩
  · rintro ⟨hfirst, hsecond⟩ r hr p hp hover
    obtain rfl : p = (.chars slot, 0) := by simpa using hp
    match r, hr with
    | 0, _ =>
      have hlen := (hlong first).mp hover
      exact ⟨Nat.zero_mod n, (hre first hlen).mpr (hfirst hlen)⟩
    | 1, _ =>
      have hlen := (hlong second).mp hover
      exact ⟨(hsecond hlen).1, (hre second hlen).mpr (hsecond hlen).2⟩

/-- A long value in the first row of the block and a short one behind it. -/
theorem long_value_in_first_row_is_read :
    let d : Driver := ⟨fun _ _ => true⟩
    let t := twoTexts (List.replicate 5000 98) [97]
    fetchRows d 100 [⟨.string, false⟩] t = .ok t.rows ∧ readAll d 100 t = t.rows := by
  intro d t
  have hplace (slot : ℕ) (h : 1 < slot) :
      ReadInPlace 100 [.chars slot] [[some (List.replicate 5000 98)], [some [97]]] := by
    rw [readInPlace_twoTexts]
    refine ⟨fun _ hmem => absurd (List.eq_of_mem_replicate hmem) (by decide), fun hlen => ?_⟩
    simp only [List.length_cons, List.length_nil] at hlen
    omega
  have hexact := block_reads_exact_iff d 100 t [⟨.string, false⟩] rfl
  exact ⟨hexact.1.mpr (.inr (hplace 4096 (by omega))), hexact.2.mpr (hplace 32 (by omega))⟩

/-- The same two values in the other order: neither read gives the long one. -/
theorem long_value_behind_first_row_is_lost :
    let d : Driver := ⟨fun _ _ => true⟩
    let t := twoTexts [97] (List.replicate 5000 98)
    fetchRows d 100 [⟨.string, false⟩] t ≠ .ok t.rows ∧ readAll d 100 t ≠ t.rows := by
  intro d t
  have hplace (slot : ℕ) (h : slot ≤ 4096) :
      ¬ ReadInPlace 100 [.chars slot] [[some [97]], [some (List.replicate 5000 98)]] := by
    rw [readInPlace_twoTexts]
    rintro ⟨-, hsecond⟩
    have hmod := (hsecond (by rw [List.length_replicate]; omega)).1
    omega
  refine ⟨fun h => ?_, fun h => ?_⟩
  · rw [fetchRows, fetchBlocks_eq, if_neg (by decide), Except.ok.injEq,
      readBlocks_eq_iff d 100 _ _ (by decide)] at h
    exact hplace 4096 le_rfl h
  · rw [readAll_eq, readBlocks_eq_iff d 100 _ _ t.aligned] at h
    exact hplace 32 (by omega) h

end Uniorm.Odbc
