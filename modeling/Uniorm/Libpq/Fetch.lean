import Uniorm.Foundation.Action
import Uniorm.Libpq.Native
import Uniorm.Schema.Column

/-! # Fetching from a result that is held whole

`pq_statement` answers a query with the whole result in memory. A fetch moves a window of rows over
it and writes the window into the buffers its caller has bound to the columns, as much of a text or a
byte string as the place of a row takes; the rest is there to be read again.
-/
namespace Uniorm.Libpq

open Foundation Schema Value

structure ResultField where
  native : PgType
  modifier : ℤ

/-- A result with a cell for each column in each of its rows, `none` for NULL. -/
structure PGresult where
  fields : List ResultField
  tuples : List (List (Option (List UInt8)))
  aligned : ∀ tuple ∈ tuples, tuple.length = fields.length

namespace PGresult
variable (answer : PGresult)

def native (field : ℕ) : PgType := (answer.fields[field]?.map (·.native)).getD (.other 0)

def cell (tuple field : ℕ) : Option (List UInt8) :=
  ((answer.tuples[tuple]?).bind (·[field]?)).join

end PGresult

def PGresult.columnMeta (answer : PGresult) : List ColumnInfo :=
  answer.fields.map fun f => ⟨f.native.sqlType, displayWidth f.native.sqlType f.native f.modifier⟩

/-- The kinds of `backend::buffer_type` that a member or a column of a `result_set` is bound as. -/
inductive BufferKind where
  | bit | int16 | int32 | int64 | float64 | chars | bytes | timestampParts | dateParts | timeParts
  deriving DecidableEq, Repr

def nullIndicator : ℤ := -1

def noTotal : ℤ := -4

/-- A buffer bound to a column: places of `capacity` bytes for `rows` rows, with an indicator for
each. An access that leaves the place of its row is an `overrun`. -/
structure ColumnBuffer where
  kind : BufferKind
  capacity : ℕ
  rows : ℕ
  data : Memory
  indicators : ℕ → ℤ

namespace ColumnBuffer
variable (b : ColumnBuffer)

/-- What decides which bytes a value leaves in a place. -/
def shape : BufferKind × ℕ := (b.kind, b.capacity)

def put (row : ℕ) (bytes : List UInt8) (indicator : ℤ) : Except ReadError ColumnBuffer :=
  if row < b.rows ∧ bytes.length ≤ b.capacity then
    .ok { b with
      data := b.data.store (row * b.capacity) bytes
      indicators := Function.update b.indicators row indicator }
  else .error .overrun

def indicatorAt (row : ℕ) : Except ReadError ℤ :=
  if row < b.rows then .ok (b.indicators row) else .error .overrun

/-- The first bytes of a place. -/
def take (row length : ℕ) : Except ReadError (List UInt8) :=
  if row < b.rows ∧ length ≤ b.capacity then .ok (b.data.load (row * b.capacity) length)
  else .error .overrun

end ColumnBuffer

section
variable (strtod : List UInt8 → Option (BitVec 64))

/-- `put_text`: one byte of the place is kept for a terminator. -/
def putText (capacity : ℕ) (text : List UInt8) : List UInt8 × ℤ :=
  let limit := capacity - 1
  let taken := min text.length limit
  (text.take taken, if taken < text.length then (limit : ℤ) + 1 else text.length)

def putBytes (capacity : ℕ) (held : List UInt8) : List UInt8 × ℤ :=
  let taken := min held.length capacity
  (held.take taken, if taken < held.length then (capacity : ℤ) + 1 else held.length)

/-- `put_integer` into a destination narrower than 64 bits. -/
def putInteger (width : ℕ) (column : ℕ) (text : List UInt8) : Except ReadError (List UInt8 × ℤ) := do
  let value ← wholeInteger text
  let value ← asWidth (8 * width) value column text
  pure (toLittleEndian width value.toBitVec.toNat, 0)

/-- What `fill_cell` does with a value: the bytes for the place of the row, and the indicator. -/
def cellBytes (b : ColumnBuffer) (column : ℕ) (native : PgType) (text : List UInt8) :
    Except ReadError (List UInt8 × ℤ) :=
  match b.kind with
  | .chars => .ok (putText b.capacity text)
  | .bytes => do
    let held ← bytesOf text (native = .bytea)
    pure (putBytes b.capacity held)
  | .bit => putInteger 1 column text
  | .int16 => putInteger 2 column text
  | .int32 => putInteger 4 column text
  | .int64 => do
    let value ← wholeInteger text
    pure (toLittleEndian 8 value.toBitVec.toNat, 0)
  | .float64 =>
    match strtod text with
    | some value => .ok (toLittleEndian 8 value.toNat, 0)
    | none => .error (.floating (cString text))
  | .timestampParts => .ok ((partsOf text native).toBytes, 0)
  | .dateParts =>
    let parts := partsOf text native
    .ok (packFields [(2, (BitVec.ofInt 16 parts.year).toNat), (2, parts.month), (2, parts.day)], 0)
  | .timeParts =>
    let parts := partsOf text native
    .ok (packFields [(2, parts.hour), (2, parts.minute), (2, parts.second)], 0)

/-- What `fill_cell` does: NULL leaves the bytes of the place as they are. -/
def cellContent (b : ColumnBuffer) (column : ℕ) (native : PgType) :
    Option (List UInt8) → Except ReadError (List UInt8 × ℤ)
  | none => .ok ([], nullIndicator)
  | some text => cellBytes strtod b column native text

structure Statement where
  answer : PGresult
  rowArraySize : ℕ+
  cursor : ℕ
  blockStart : ℕ
  rowsFetched : ℕ
  /-- The buffer bound to each column of the result, if one is. -/
  slots : List (Option ColumnBuffer)

/-- A value read again: the row of the result, and the column. -/
structure LongRead where
  tuple : ℕ
  column : ℕ
  deriving DecidableEq

abbrev Reading (α : Type) : Type := Action (List LongRead) ReadError α

namespace Statement
variable (s : Statement)

def executed (answer : PGresult) : Statement :=
  ⟨answer, Nat.succPNat 0, 0, 0, 0, List.replicate answer.fields.length none⟩

def setRowArraySize (size : ℕ) : Statement :=
  { s with rowArraySize := if h : 0 < size then size.toPNat h else Nat.succPNat 0 }

def bindColumn (index : ℕ) (buffer : ColumnBuffer) : Except ReadError Statement :=
  if index = 0 ∨ s.slots.length < index then .error (.pastSelectList index)
  else if ((s.slots[index - 1]?).join).isSome then .error (.boundTwice index)
  else .ok { s with slots := s.slots.set (index - 1) (some buffer) }

def content (field : ℕ) (b : ColumnBuffer) (row : ℕ) : Except ReadError (List UInt8 × ℤ) :=
  cellContent strtod b (field + 1) (s.answer.native field) (s.answer.cell (s.blockStart + row) field)

def fillCell (field : ℕ) (b : ColumnBuffer) (row : ℕ) : Except ReadError ColumnBuffer := do
  let (bytes, indicator) ← s.content strtod field b row
  b.put row bytes indicator

def fillRows (field : ℕ) : ℕ → ℕ → ColumnBuffer → Except ReadError ColumnBuffer
  | _, 0, b => .ok b
  | row, rows + 1, b => do
    let b ← s.fillCell strtod field b row
    fillRows field (row + 1) rows b

def materialize (rows : ℕ) : ℕ → List (Option ColumnBuffer) →
    Except ReadError (List (Option ColumnBuffer))
  | _, [] => .ok []
  | field, none :: slots => do
    let slots ← materialize rows (field + 1) slots
    pure (none :: slots)
  | field, some b :: slots => do
    let b ← s.fillRows strtod field 0 rows b
    let slots ← materialize rows (field + 1) slots
    pure (some b :: slots)

/-- The window moves over the next rows. -/
def advance : Statement :=
  let block := min (s.rowArraySize : ℕ) (s.answer.tuples.length - s.cursor)
  { s with blockStart := s.cursor, cursor := s.cursor + block, rowsFetched := block }

/-- `fetch`, with no statement where it returns false. -/
def fetch : Except ReadError (Option Statement) :=
  if s.answer.tuples.length ≤ s.cursor then .ok none
  else do
    let slots ← s.advance.materialize strtod s.advance.rowsFetched 0 s.slots
    pure (some { s.advance with slots := slots })

/-- `slot_for`. -/
def slotFor (column : ℕ) : Except ReadError ColumnBuffer :=
  match (s.slots[column - 1]?).join with
  | some b => if column = 0 then .error (.readColumn column) else .ok b
  | none => .error (.readColumn column)

/-- `cell`: the text of a value of the block. -/
def cellText (column row : ℕ) : Except ReadError (List UInt8) :=
  if column = 0 ∨ s.answer.fields.length < column then .error (.readColumn column)
  else .ok ((s.answer.cell (s.blockStart + row) (column - 1)).getD [])

def readAgain (column row : ℕ) : Reading PUnit :=
  Action.update (fun log => log ++ [⟨s.blockStart + row, column⟩]) ⟨⟩

def bufferAt (column : ℕ) : Except ReadError ColumnBuffer :=
  match (s.slots[column - 1]?).join with
  | some b => .ok b
  | none => .error .overrun

def readLongText (column row : ℕ) : Reading (List UInt8) := do
  let _ ← Action.lift (s.slotFor column)
  s.readAgain column row
  Action.lift (s.cellText column row)

def readLongBytes (column row : ℕ) : Reading (List UInt8) := do
  let _ ← Action.lift (s.slotFor column)
  s.readAgain column row
  let text ← Action.lift (s.cellText column row)
  Action.lift (bytesOf text (s.answer.native (column - 1) = .bytea))

end Statement

def BufferKind.width : BufferKind → ℕ
  | bit => 1
  | int16 => 2
  | int32 => 4
  | int64 | float64 => 8
  | chars => 1
  | bytes => 0
  | timestampParts => 16
  | dateParts | timeParts => 6

def ColumnBuffer.Roomy (b : ColumnBuffer) : Prop := b.kind.width ≤ b.capacity

theorem cellBytes_length {b : ColumnBuffer} {column : ℕ} {native : PgType} {text bytes : List UInt8}
    {indicator : ℤ} (hb : b.Roomy)
    (h : cellBytes strtod b column native text = .ok (bytes, indicator)) :
    bytes.length ≤ b.capacity := by
  have hint : ∀ width, putInteger width column text = .ok (bytes, indicator) →
      bytes.length = width := by
    intro width h
    obtain ⟨value, -, h⟩ := bind_eq_ok.mp h
    obtain ⟨value', -, h⟩ := bind_eq_ok.mp h
    obtain rfl := congrArg Prod.fst (Except.ok.inj h)
    exact length_toLittleEndian _ _
  unfold ColumnBuffer.Roomy at hb
  unfold cellBytes at h
  cases hkind : b.kind with
  | chars =>
    rw [hkind] at h
    obtain rfl := congrArg Prod.fst (Except.ok.inj h)
    simp only [putText, List.length_take]
    omega
  | bytes =>
    rw [hkind] at h
    obtain ⟨held, -, h⟩ := bind_eq_ok.mp h
    obtain rfl := congrArg Prod.fst (Except.ok.inj h)
    simp only [putBytes, List.length_take]
    omega
  | bit =>
    rw [hkind] at h hb
    exact (hint 1 h).trans_le hb
  | int16 =>
    rw [hkind] at h hb
    exact (hint 2 h).trans_le hb
  | int32 =>
    rw [hkind] at h hb
    exact (hint 4 h).trans_le hb
  | int64 =>
    rw [hkind] at h hb
    obtain ⟨value, -, h⟩ := bind_eq_ok.mp h
    obtain rfl := congrArg Prod.fst (Except.ok.inj h)
    exact (length_toLittleEndian _ _).trans_le hb
  | float64 =>
    rw [hkind] at h hb
    simp only at h
    cases hvalue : strtod text with
    | none =>
      rw [hvalue] at h
      cases h
    | some value =>
      rw [hvalue] at h
      obtain rfl := congrArg Prod.fst (Except.ok.inj h)
      exact (length_toLittleEndian _ _).trans_le hb
  | timestampParts =>
    rw [hkind] at h hb
    obtain rfl := congrArg Prod.fst (Except.ok.inj h)
    exact (TimestampParts.length_toBytes _).trans_le hb
  | dateParts =>
    rw [hkind] at h hb
    obtain rfl := congrArg Prod.fst (Except.ok.inj h)
    simpa [packFields, BufferKind.width] using hb
  | timeParts =>
    rw [hkind] at h hb
    obtain rfl := congrArg Prod.fst (Except.ok.inj h)
    simpa [packFields, BufferKind.width] using hb

/-- What the text of a value throws is not an access outside its place. -/
theorem wholeInteger_ne_overrun {text : List UInt8} : wholeInteger text ≠ .error .overrun := by
  unfold wholeInteger
  split
  · nofun
  · nofun
  · split
    · split <;> nofun
    · nofun

theorem bytesOf_ne_overrun {text : List UInt8} {hexForm : Bool} :
    bytesOf text hexForm ≠ .error .overrun := by
  have hdigits : ∀ digits, bytesOfDigits digits ≠ .error .overrun := by
    intro digits
    fun_induction bytesOfDigits digits with
    | case1 high low rest h l hh hl ih =>
      intro hbad
      cases hrest : bytesOfDigits rest with
      | error e =>
        rw [hrest] at hbad
        obtain rfl := Except.error.inj hbad
        exact ih hrest
      | ok bytes =>
        rw [hrest] at hbad
        cases hbad
    | case2 high low rest hdigit => nofun
    | case3 digits hdigits => nofun
  unfold bytesOf
  split
  · split
    · split
      · exact hdigits _
      · nofun
    · nofun
  · nofun

theorem putInteger_ne_overrun {width column : ℕ} {text : List UInt8} :
    putInteger width column text ≠ .error .overrun := by
  intro h
  unfold putInteger at h
  cases hvalue : wholeInteger text with
  | error e =>
    rw [hvalue] at h
    obtain rfl := Except.error.inj h
    exact wholeInteger_ne_overrun hvalue
  | ok value =>
    rw [hvalue] at h
    change (asWidth (8 * width) value column text >>= _) = _ at h
    unfold asWidth at h
    split at h <;> cases h

theorem content_ne_overrun {s : Statement} {field row : ℕ} {b : ColumnBuffer} :
    s.content strtod field b row ≠ .error .overrun := by
  intro h
  unfold Statement.content cellContent at h
  cases hcell : s.answer.cell (s.blockStart + row) field with
  | none =>
    rw [hcell] at h
    cases h
  | some text =>
    rw [hcell] at h
    simp only at h
    unfold cellBytes at h
    cases hkind : b.kind with
    | bytes =>
      rw [hkind] at h
      simp only at h
      cases hheld : bytesOf text (s.answer.native field = .bytea) with
      | error e =>
        rw [hheld] at h
        obtain rfl := Except.error.inj h
        exact bytesOf_ne_overrun hheld
      | ok held =>
        rw [hheld] at h
        cases h
    | bit =>
      rw [hkind] at h
      exact putInteger_ne_overrun h
    | int16 =>
      rw [hkind] at h
      exact putInteger_ne_overrun h
    | int32 =>
      rw [hkind] at h
      exact putInteger_ne_overrun h
    | int64 =>
      rw [hkind] at h
      simp only at h
      cases hvalue : wholeInteger text with
      | error e =>
        rw [hvalue] at h
        obtain rfl := Except.error.inj h
        exact wholeInteger_ne_overrun hvalue
      | ok value =>
        rw [hvalue] at h
        cases h
    | float64 =>
      rw [hkind] at h
      simp only at h
      cases hvalue : strtod text with
      | none =>
        rw [hvalue] at h
        cases h
      | some value =>
        rw [hvalue] at h
        cases h
    | _ =>
      rw [hkind] at h
      cases h

/-- The place of a row holds what `fill_cell` made of its value. -/
structure ColumnBuffer.Holds (b : ColumnBuffer) (row : ℕ) (content : List UInt8 × ℤ) : Prop where
  indicator : b.indicators row = content.2
  length : content.1.length ≤ b.capacity
  bytes : b.data.load (row * b.capacity) content.1.length = content.1

/-- A buffer whose first places have been filled; `b₀` is the buffer before. -/
structure Statement.Filled (s : Statement) (field : ℕ) (b₀ : ColumnBuffer) (upto : ℕ)
    (b : ColumnBuffer) : Prop where
  kind : b.kind = b₀.kind
  capacity : b.capacity = b₀.capacity
  rows : b.rows = b₀.rows
  places : ∀ row < upto, ∃ content, s.content strtod field b₀ row = .ok content ∧ b.Holds row content

variable {strtod} {s : Statement} {field row : ℕ} {b b₀ : ColumnBuffer}

theorem ColumnBuffer.holds_put {content : List UInt8 × ℤ} (hrow : row < b.rows)
    (hlength : content.1.length ≤ b.capacity) :
    ∃ b', b.put row content.1 content.2 = .ok b' ∧ b'.kind = b.kind ∧ b'.capacity = b.capacity ∧
      b'.rows = b.rows ∧ b'.Holds row content ∧
      ∀ r < row, ∀ c, b.Holds r c → b'.Holds r c := by
  refine ⟨_, if_pos ⟨hrow, hlength⟩, rfl, rfl, rfl, ⟨?_, hlength, ?_⟩, ?_⟩
  · exact Function.update_self _ _ _
  · exact Memory.load_store_self _ _ _
  · intro r hr c hc
    refine ⟨(Function.update_of_ne hr.ne _ _).trans hc.indicator, hc.length, ?_⟩
    have hmul := Nat.mul_le_mul_right b.capacity (Nat.succ_le_of_lt hr)
    have hlen := hc.length
    rw [Nat.succ_mul] at hmul
    rw [← hc.bytes]
    simp only [Memory.length_load]
    apply Memory.load_store_of_disjoint
    left
    omega

theorem Statement.content_congr (hkind : b.kind = b₀.kind) (hcapacity : b.capacity = b₀.capacity) :
    s.content strtod field b row = s.content strtod field b₀ row := by
  unfold Statement.content cellContent cellBytes
  rw [hkind, hcapacity]

/-- One more place, unless its value throws. -/
theorem Statement.Filled.step (h : s.Filled strtod field b₀ row b) (hb : b₀.Roomy)
    (hrow : row < b₀.rows) :
    (∃ b', s.fillCell strtod field b row = .ok b' ∧ s.Filled strtod field b₀ (row + 1) b') ∨
      ∃ e, s.fillCell strtod field b row = .error e ∧ s.content strtod field b₀ row = .error e := by
  have hcontent : s.content strtod field b row = s.content strtod field b₀ row :=
    content_congr h.kind h.capacity
  unfold Statement.fillCell
  rw [hcontent]
  cases hc : s.content strtod field b₀ row with
  | error e => exact .inr ⟨e, rfl, rfl⟩
  | ok content =>
    left
    have hlength : content.1.length ≤ b.capacity := by
      rw [h.capacity]
      unfold Statement.content cellContent at hc
      cases hcell : s.answer.cell (s.blockStart + row) field with
      | none =>
        rw [hcell] at hc
        obtain rfl := Except.ok.inj hc
        exact Nat.zero_le _
      | some text =>
        rw [hcell] at hc
        exact cellBytes_length strtod hb hc
    obtain ⟨b', hput, hkind, hcapacity, hrows, hholds, hothers⟩ :=
      ColumnBuffer.holds_put (b := b) (by rwa [h.rows]) hlength
    refine ⟨b', hput, hkind.trans h.kind, hcapacity.trans h.capacity, hrows.trans h.rows, ?_⟩
    intro r hr
    rcases Nat.lt_succ_iff_lt_or_eq.mp hr with hlt | rfl
    · obtain ⟨c, hc', hold⟩ := h.places r hlt
      exact ⟨c, hc', hothers r hlt c hold⟩
    · exact ⟨content, hc, hholds⟩

theorem Statement.fillRows_spec (rows : ℕ) (h : s.Filled strtod field b₀ row b) (hb : b₀.Roomy)
    (hrows : row + rows ≤ b₀.rows) :
    (∃ b', s.fillRows strtod field row rows b = .ok b' ∧ s.Filled strtod field b₀ (row + rows) b') ∨
      ∃ e, ∃ r < row + rows, s.fillRows strtod field row rows b = .error e ∧
        s.content strtod field b₀ r = .error e := by
  induction rows generalizing row b with
  | zero => exact .inl ⟨b, rfl, h⟩
  | succ rows ih =>
    rw [fillRows]
    rcases h.step hb (by omega) with ⟨b', hcell, hfilled⟩ | ⟨e, hcell, hcontent⟩
    · rw [hcell]
      have hrest := ih hfilled (by omega)
      rw [Nat.add_right_comm] at hrest
      exact hrest
    · rw [hcell]
      exact .inr ⟨e, row, by omega, rfl, hcontent⟩

/-- Every bound buffer has a place for each row of a block, and wide enough ones. -/
def Statement.Ready (s : Statement) : Prop :=
  ∀ (field : ℕ) (b : ColumnBuffer), s.slots[field]? = some (some b) → b.Roomy ∧
    (s.rowArraySize : ℕ) ≤ b.rows

variable (strtod) in
/-- The buffers of the columns from `first` on, before and after a block is written into them. -/
structure Statement.Written (s : Statement) (first rows : ℕ) (before after : List (Option ColumnBuffer)) :
    Prop where
  length : after.length = before.length
  unbound : ∀ i : ℕ, before[i]? = some none → after[i]? = some none
  bound : ∀ (i : ℕ) b₀, before[i]? = some (some b₀) →
    ∃ b, after[i]? = some (some b) ∧ s.Filled strtod (first + i) b₀ rows b

theorem Statement.Written.nil {first rows : ℕ} : s.Written strtod first rows [] [] :=
  ⟨rfl, fun _ h => h, fun _ _ h => by simp at h⟩

theorem Statement.Written.none {first rows : ℕ} {before after : List (Option ColumnBuffer)}
    (h : s.Written strtod (first + 1) rows before after) :
    s.Written strtod first rows (none :: before) (none :: after) := by
  refine ⟨congrArg (· + 1) h.length, fun i hi => ?_, fun i b₀ hi => ?_⟩
  · cases i with
    | zero => rfl
    | succ i => exact h.unbound i hi
  · cases i with
    | zero => cases Option.some.inj hi
    | succ i =>
      obtain ⟨b, hb, hfilled⟩ := h.bound i b₀ hi
      rw [Nat.add_right_comm] at hfilled
      exact ⟨b, hb, hfilled⟩

theorem Statement.Written.some {first rows : ℕ} {before after : List (Option ColumnBuffer)}
    (h : s.Written strtod (first + 1) rows before after) (hb : s.Filled strtod first b₀ rows b) :
    s.Written strtod first rows (some b₀ :: before) (some b :: after) := by
  refine ⟨congrArg (· + 1) h.length, fun i hi => ?_, fun i c hi => ?_⟩
  · cases i with
    | zero => cases Option.some.inj hi
    | succ i => exact h.unbound i hi
  · cases i with
    | zero =>
      obtain rfl := Option.some.inj (Option.some.inj hi)
      exact ⟨b, rfl, hb⟩
    | succ i =>
      obtain ⟨b, hb, hfilled⟩ := h.bound i c hi
      rw [Nat.add_right_comm] at hfilled
      exact ⟨b, hb, hfilled⟩

variable (strtod) in
/-- A block is written into every bound buffer, unless one of its values throws. -/
theorem Statement.materialize_spec {rows : ℕ} (first : ℕ) {slots : List (Option ColumnBuffer)}
    (hready : ∀ b, some b ∈ slots → b.Roomy ∧ rows ≤ b.rows) :
    (∃ slots', s.materialize strtod rows first slots = .ok slots' ∧
        s.Written strtod first rows slots slots') ∨
      ∃ e i b₀, ∃ row < rows, s.materialize strtod rows first slots = .error e ∧
        slots[i]? = some (some b₀) ∧ s.content strtod (first + i) b₀ row = .error e := by
  induction slots generalizing first with
  | nil => exact .inl ⟨[], rfl, .nil⟩
  | cons slot slots ih =>
    have hrest := ih (first + 1) fun b hb => hready b (List.mem_cons_of_mem _ hb)
    cases slot with
    | none =>
      rw [materialize]
      rcases hrest with ⟨slots', hslots, hwritten⟩ | ⟨e, i, c, row, hrow, hslots, hc, hcontent⟩
      · rw [hslots]
        exact .inl ⟨_, rfl, hwritten.none⟩
      · rw [hslots]
        rw [Nat.add_right_comm] at hcontent
        exact .inr ⟨e, i + 1, c, row, hrow, rfl, hc, hcontent⟩
    | some b₀ =>
      obtain ⟨hroomy, hrows⟩ := hready b₀ List.mem_cons_self
      have hstart : s.Filled strtod first b₀ 0 b₀ :=
        ⟨rfl, rfl, rfl, fun row hrow => absurd hrow (Nat.not_lt_zero row)⟩
      rw [materialize]
      rcases fillRows_spec rows hstart hroomy (by omega) with
        ⟨b, hb, hfilled⟩ | ⟨e, row, hrow, hb, hcontent⟩
      · rw [Nat.zero_add] at hfilled
        rw [hb]
        rcases hrest with ⟨slots', hslots, hwritten⟩ | ⟨e, i, c, row, hrow, hslots, hc, hcontent⟩
        · left
          refine ⟨some b :: slots', ?_, hwritten.some hfilled⟩
          change (s.materialize strtod rows (first + 1) slots >>= fun slots => pure (some b :: slots)) = _
          rw [hslots]
          rfl
        · right
          rw [Nat.add_right_comm] at hcontent
          refine ⟨e, i + 1, c, row, hrow, ?_, hc, hcontent⟩
          change (s.materialize strtod rows (first + 1) slots >>= fun slots => pure (some b :: slots)) = _
          rw [hslots]
          rfl
      · rw [hb]
        exact .inr ⟨e, 0, b₀, row, by omega, rfl, rfl, hcontent⟩

variable (strtod) in
/-- A statement that has fetched a block of `rows` rows of the result. -/
structure Statement.Fetched (s s' : Statement) (rows : ℕ) : Prop where
  answer : s'.answer = s.answer
  rowArraySize : s'.rowArraySize = s.rowArraySize
  cursor : s'.cursor = s.cursor + rows
  blockStart : s'.blockStart = s.cursor
  rowsFetched : s'.rowsFetched = rows
  written : s.advance.Written strtod 0 rows s.slots s'.slots

variable (strtod) in
theorem Statement.fetch_spec (hready : s.Ready) (hmore : s.cursor < s.answer.tuples.length) :
    (∃ s', s.fetch strtod = .ok (some s') ∧ s.Fetched strtod s' s.advance.rowsFetched) ∨
      ∃ e field b₀, ∃ row < s.advance.rowsFetched, s.fetch strtod = .error e ∧
        s.slots[field]? = some (some b₀) ∧ s.advance.content strtod field b₀ row = .error e := by
  have hslots : ∀ b, some b ∈ s.slots → b.Roomy ∧ s.advance.rowsFetched ≤ b.rows := by
    intro b hb
    obtain ⟨i, hi, hget⟩ := List.getElem_of_mem hb
    obtain ⟨hroomy, hrows⟩ := hready i b (List.getElem?_eq_some_iff.mpr ⟨hi, hget⟩)
    exact ⟨hroomy, (Nat.min_le_left _ _).trans hrows⟩
  unfold fetch
  rw [if_neg (Nat.not_le.mpr hmore)]
  rcases s.advance.materialize_spec strtod 0 hslots with
    ⟨slots', hmat, hwritten⟩ | ⟨e, i, b₀, row, hrow, hmat, hb, hcontent⟩
  · rw [hmat]
    exact .inl ⟨_, rfl, rfl, rfl, rfl, rfl, rfl, hwritten⟩
  · rw [hmat]
    rw [Nat.zero_add] at hcontent
    exact .inr ⟨e, i, b₀, row, hrow, rfl, hb, hcontent⟩

theorem Statement.Fetched.ready {s' : Statement} {rows : ℕ} (h : s.Fetched strtod s' rows)
    (hready : s.Ready) : s'.Ready := by
  intro field b hb
  cases hslot : s.slots[field]? with
  | none =>
    have hlen := List.getElem?_eq_none_iff.mp hslot
    rw [← h.written.length] at hlen
    rw [List.getElem?_eq_none_iff.mpr hlen] at hb
    cases hb
  | some slot =>
    cases slot with
    | none =>
      rw [h.written.unbound field hslot] at hb
      cases Option.some.inj hb
    | some b₀ =>
      obtain ⟨c, hc, hfilled⟩ := h.written.bound field b₀ hslot
      obtain rfl := Option.some.inj (Option.some.inj (hc.symm.trans hb))
      obtain ⟨hroomy, hrows⟩ := hready field b₀ hslot
      unfold ColumnBuffer.Roomy at *
      rw [hfilled.kind, hfilled.capacity, hfilled.rows, h.rowArraySize]
      exact ⟨hroomy, hrows⟩

end

end Uniorm.Libpq
