import Uniorm.Libpq.Fetch

/-! # Reading rows from the buffers

A field of an entity or a projection binds a buffer that suits its type; a `result_set` binds one that
suits the type of the column. Both take a value from its place when it is all there and ask the
statement for it otherwise.
-/
namespace Uniorm.Libpq

open Foundation Schema Value

section
variable (s : Statement)

def fieldKind : PlainType → BufferKind
  | .bool => .bit
  | .int16 => .int16
  | .int32 => .int32
  | .int64 => .int64
  | .double => .float64
  | .string => .chars
  | .bytes => .bytes
  | .timestamp => .timestampParts

def fieldBuffer (t : PlainType) (info : Option ColumnInfo) (rows : ℕ) : ColumnBuffer where
  kind := fieldKind t
  capacity := match t with
    | .string => stringSlot info
    | .bytes => binarySlot info
    | t => (fieldKind t).width
  rows := rows
  data := fun _ => 0
  indicators := fun _ => 0

namespace Statement

def indicatorAt (column row : ℕ) : Except ReadError ℤ := do
  let b ← s.bufferAt column
  b.indicatorAt row

def takeAt (column row length : ℕ) : Except ReadError (List UInt8) := do
  let b ← s.bufferAt column
  b.take row length

/-- `string_binding::write`. -/
def writeString (column row : ℕ) : Reading (List UInt8) := do
  let b ← Action.lift (s.bufferAt column)
  let ind ← Action.lift (b.indicatorAt row)
  if ind = noTotal ∨ (b.capacity : ℤ) - 1 < ind then s.readLongText column row
  else Action.lift (b.take row ind.toNat)

/-- `binary_binding::write`. -/
def writeBinary (column row : ℕ) : Reading (List UInt8) := do
  let b ← Action.lift (s.bufferAt column)
  let ind ← Action.lift (b.indicatorAt row)
  if ind = noTotal ∨ (b.capacity : ℤ) < ind then s.readLongBytes column row
  else Action.lift (b.take row ind.toNat)

def writeFixed (width column row : ℕ) : Reading ℕ := do
  let bytes ← Action.lift (s.takeAt column row width)
  pure (fromLittleEndian bytes)

/-- `field_binding::write`. -/
def write : (t : PlainType) → ℕ → ℕ → Reading t.Carrier
  | .bool, column, row => do
    let n ← s.writeFixed 1 column row
    pure (decide (n ≠ 0))
  | .int16, column, row => do
    let n ← s.writeFixed 2 column row
    pure (Int16.ofBitVec (BitVec.ofNat 16 n))
  | .int32, column, row => do
    let n ← s.writeFixed 4 column row
    pure (Int32.ofBitVec (BitVec.ofNat 32 n))
  | .int64, column, row => do
    let n ← s.writeFixed 8 column row
    pure (Int64.ofBitVec (BitVec.ofNat 64 n))
  | .double, column, row => do
    let n ← s.writeFixed 8 column row
    pure (BitVec.ofNat 64 n)
  | .string, column, row => s.writeString column row
  | .bytes, column, row => s.writeBinary column row
  | .timestamp, column, row => do
    let bytes ← Action.lift (s.takeAt column row 16)
    pure (makeTimestamp (TimestampParts.ofBytes bytes))

/-- `finalize` of a field that is no optional: NULL is rejected. -/
def finalizeRequired (u : Representable) (column row : ℕ) : Reading u.Carrier := do
  let ind ← Action.lift (s.indicatorAt column row)
  if ind = nullIndicator then Action.throw .nullValue
  else do
    let slot ← s.write u.dbType column row
    match u.decoded slot with
    | some value => pure value
    | none => Action.throw .converter

/-- `field_binding::finalize`. -/
def finalize (m : MemberType) (column row : ℕ) : Reading m.Carrier :=
  match m with
  | .required u => s.finalizeRequired u column row
  | .optional u => do
    let ind ← Action.lift (s.indicatorAt column row)
    if ind = nullIndicator then pure none
    else do
      let value ← s.finalizeRequired u column row
      pure (some value)

end Statement

/-- A field and the result column it is placed at, counted from 1. -/
structure Binding : Type 1 where
  type : MemberType
  column : ℕ

def Fields : List Binding → Type
  | [] => Unit
  | b :: bindings => b.type.Carrier × Fields bindings

namespace Statement

/-- `fill_into`. -/
def fillInto (row : ℕ) : (bindings : List Binding) → Reading (Fields bindings)
  | [] => pure ()
  | b :: bindings => do
    let value ← s.finalize b.type b.column row
    let values ← fillInto row bindings
    pure (value, values)

def fillBlock (bindings : List Binding) : ℕ → ℕ → Reading (List (Fields bindings))
  | _, 0 => pure []
  | row, rows + 1 => do
    let entity ← s.fillInto row bindings
    let entities ← fillBlock bindings (row + 1) rows
    pure (entity :: entities)

/-- `field_binding::bind`, for each field. A binding makes as many places as it is told to. -/
def bindFields (infos : List ColumnInfo) (rows : ℕ) : List Binding → Statement →
    Except ReadError Statement
  | [], s => .ok s
  | b :: bindings, s => do
    let s ← s.bindColumn b.column (fieldBuffer b.type.representable.dbType infos[b.column - 1]? rows)
    bindFields infos rows bindings s

end Statement

end

section
variable (strtod : List UInt8 → Option (BitVec 64))

/-- A fetch that succeeds takes at least one row, and none beyond the last. -/
theorem Statement.fetch_advance {s s' : Statement} (h : s.fetch strtod = .ok (some s')) :
    s'.answer = s.answer ∧ s'.cursor = s.cursor + s'.rowsFetched ∧ 0 < s'.rowsFetched ∧
      s'.cursor ≤ s.answer.tuples.length := by
  unfold fetch at h
  split at h
  · cases Except.ok.inj h
  · obtain ⟨slots, -, hs⟩ := bind_eq_ok.mp h
    obtain rfl := Option.some.inj (Except.ok.inj hs)
    have hpos := s.rowArraySize.pos
    refine ⟨rfl, rfl, ?_, ?_⟩
    · simp only [advance]
      omega
    · simp only [advance]
      omega

theorem Statement.fetch_lt {s s' : Statement} (h : s.fetch strtod = .ok (some s')) :
    s'.answer.tuples.length - s'.cursor < s.answer.tuples.length - s.cursor := by
  obtain ⟨hanswer, hcursor, hrows, hlast⟩ := fetch_advance strtod h
  rw [hanswer]
  omega

/-- The loop of `fetch_rows`. -/
def fetchLoop (bindings : List Binding) (s : Statement) : Reading (List (Fields bindings)) :=
  match _h : s.fetch strtod with
  | .error e => Action.throw e
  | .ok none => pure []
  | .ok (some s') => do
    let rows ← s'.fillBlock bindings 0 s'.rowsFetched
    let more ← fetchLoop bindings s'
    pure (rows ++ more)
termination_by s.answer.tuples.length - s.cursor
decreasing_by exact Statement.fetch_lt strtod _h

/-- `fetch_rows`, from the execution of the statement on. -/
def fetchRows (rowArraySize : ℕ) (bindings : List Binding) (answer : PGresult) :
    Reading (List (Fields bindings)) := do
  let s := (Statement.executed answer).setRowArraySize rowArraySize
  let s ← Action.lift (Statement.bindFields answer.columnMeta rowArraySize bindings s)
  fetchLoop strtod bindings s

inductive SlotKind where
  | boolean | integer | floating | text | bytes | ts | dt | tm
  deriving DecidableEq, Repr

def kindFor : SqlType → SlotKind
  | .boolean => .boolean
  | .smallint | .integer | .bigint => .integer
  | .real | .doublePrecision => .floating
  | .decimal => .text
  | .binary | .varbinary => .bytes
  | .timestamp => .ts
  | .date => .dt
  | .time => .tm
  | _ => .text

def SlotKind.bufferKind : SlotKind → BufferKind
  | boolean => .bit
  | integer => .int64
  | floating => .float64
  | text => .chars
  | bytes => .bytes
  | ts => .timestampParts
  | dt => .dateParts
  | tm => .timeParts

/-- The buffer `describe_and_bind` makes for a column. -/
def columnBuffer (info : ColumnInfo) (rows : ℕ) : ColumnBuffer where
  kind := (kindFor info.type).bufferKind
  capacity := match kindFor info.type with
    | .text => if info.type = .decimal then max (info.displaySize + 3) 32
        else max info.displaySize 31 + 1
    | .bytes => max info.displaySize 32
    | kind => kind.bufferKind.width
  rows := rows
  data := fun _ => 0
  indicators := fun _ => 0

def dateOf (bytes : List UInt8) : Int64 :=
  match unpackFields [2, 2, 2] bytes with
  | [year, month, day] => makeTimestamp ⟨(BitVec.ofNat 16 year).toInt, month, day, 0, 0, 0, 0⟩
  | _ => 0

def clockOf (bytes : List UInt8) : Int64 :=
  match unpackFields [2, 2, 2] bytes with
  | [hour, minute, second] => makeTimestamp ⟨1970, 1, 1, hour, minute, second, 0⟩
  | _ => 0

namespace Statement
variable (s : Statement)

/-- The text of a `result_set`, whose test for a value to be read again is another than that of a
`string_binding`. -/
def textOf (column row : ℕ) : Reading (List UInt8) := do
  let b ← Action.lift (s.bufferAt column)
  let ind ← Action.lift (b.indicatorAt row)
  if ind < 0 ∨ (b.capacity : ℤ) - 1 < ind then s.readLongText column row
  else Action.lift (b.take row ind.toNat)

def binaryOf (column row : ℕ) : Reading (List UInt8) := do
  let b ← Action.lift (s.bufferAt column)
  let ind ← Action.lift (b.indicatorAt row)
  if ind < 0 ∨ (b.capacity : ℤ) < ind then s.readLongBytes column row
  else Action.lift (b.take row ind.toNat)

def valueOf (kind : SlotKind) (column row : ℕ) : Reading SqlValue := do
  let ind ← Action.lift (s.indicatorAt column row)
  if ind = nullIndicator then pure .null
  else match kind with
    | .boolean => do
      let n ← s.writeFixed 1 column row
      pure (.bool (n ≠ 0))
    | .integer => do
      let n ← s.writeFixed 8 column row
      pure (.int64 (Int64.ofBitVec (BitVec.ofNat 64 n)))
    | .floating => do
      let n ← s.writeFixed 8 column row
      pure (.double (BitVec.ofNat 64 n))
    | .text => do
      let text ← s.textOf column row
      pure (.string text)
    | .bytes => do
      let bytes ← s.binaryOf column row
      pure (.bytes bytes)
    | .ts => do
      let bytes ← Action.lift (s.takeAt column row 16)
      pure (.timestamp (makeTimestamp (TimestampParts.ofBytes bytes)))
    | .dt => do
      let bytes ← Action.lift (s.takeAt column row 6)
      pure (.timestamp (dateOf bytes))
    | .tm => do
      let bytes ← Action.lift (s.takeAt column row 6)
      pure (.timestamp (clockOf bytes))

def valuesFrom (row : ℕ) : ℕ → List SlotKind → Reading (List SqlValue)
  | _, [] => pure []
  | column, kind :: kinds => do
    let value ← s.valueOf kind column row
    let values ← valuesFrom row (column + 1) kinds
    pure (value :: values)

end Statement

/-- A `result_set`. -/
structure ResultSet where
  stmt : Statement
  kinds : List SlotKind
  rowsFetched : ℕ
  currentRow : ℕ

namespace ResultSet

def bindColumns (column : ℕ) : List ColumnInfo → Statement → Except ReadError Statement
  | [], s => .ok s
  | info :: infos, s => do
    let s ← s.bindColumn column (columnBuffer info s.rowArraySize)
    bindColumns (column + 1) infos s

/-- `from_statement`, with `describe_and_bind`. -/
def fromStatement (rowArraySize : ℕ) (answer : PGresult) : Except ReadError ResultSet := do
  let s := (Statement.executed answer).setRowArraySize rowArraySize
  let s ← bindColumns 1 answer.columnMeta s
  pure ⟨s, answer.columnMeta.map fun info => kindFor info.type, 0, 0⟩

variable (r : ResultSet)

/-- `next`, with no result set where it returns false. -/
def next : Except ReadError (Option ResultSet) :=
  if r.currentRow < r.rowsFetched then .ok (some { r with currentRow := r.currentRow + 1 })
  else do
    match ← r.stmt.fetch strtod with
    | none => pure none
    | some s =>
      if 0 < s.rowsFetched then
        pure (some { r with stmt := s, rowsFetched := s.rowsFetched, currentRow := 1 })
      else pure none

def current : Reading (List SqlValue) := r.stmt.valuesFrom (r.currentRow - 1) 1 r.kinds

/-- The rows that `next` has yet to reach. -/
def ahead : ℕ := (r.stmt.answer.tuples.length - r.stmt.cursor) + (r.rowsFetched - r.currentRow)

variable {strtod r}

theorem ahead_lt {r' : ResultSet} (h : r.next strtod = .ok (some r')) : r'.ahead < r.ahead := by
  unfold next at h
  split at h
  · obtain rfl := Option.some.inj (Except.ok.inj h)
    simp only [ahead]
    omega
  · obtain ⟨fetched, hfetch, h⟩ := bind_eq_ok.mp h
    cases fetched with
    | none => cases Except.ok.inj h
    | some s =>
      obtain ⟨hanswer, hcursor, hrows, hlast⟩ := Statement.fetch_advance strtod hfetch
      simp only [hrows, if_true] at h
      obtain rfl := Option.some.inj (Except.ok.inj h)
      simp only [ahead, hanswer]
      omega

variable (strtod) in
/-- Every row is read once, and something is made of each:
`while (rs.next()) out.push_back(use(rs.current()))`. -/
def readRows {α : Type} (use : List SqlValue → Except ReadError α) (r : ResultSet) :
    Reading (List α) :=
  match _h : r.next strtod with
  | .error e => Action.throw e
  | .ok none => pure []
  | .ok (some r') => do
    let values ← r'.current
    let a ← Action.lift (use values)
    let rows ← readRows use r'
    pure (a :: rows)
termination_by r.ahead
decreasing_by exact ahead_lt _h

variable (strtod) in
/-- All rows of a result. -/
def readAll {α : Type} (use : List SqlValue → Except ReadError α) (rowArraySize : ℕ)
    (answer : PGresult) : Reading (List α) := do
  let r ← Action.lift (fromStatement rowArraySize answer)
  readRows strtod use r

end ResultSet

end

end Uniorm.Libpq
