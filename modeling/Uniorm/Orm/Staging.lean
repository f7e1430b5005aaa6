import Uniorm.Orm.Sweep
import Uniorm.Value.SqlValue

/-! # Parameters in column buffers

What a column of a mapping does with the members of its rows: it reads them as values, and it puts
them into the places of a column buffer, byte by byte, with an indicator for each place. A backend
reads a place by the type of the buffer and the indicator.
-/
namespace Uniorm.Orm

open Foundation Value

universe u v

def nullIndicator : ℤ := -1

/-- `member_buffer_type`. -/
def memberBufferType : PlainType → BufferType
  | .bool => .bit
  | .int16 => .int16
  | .int32 => .int32
  | .int64 => .int64
  | .double => .float64
  | .string => .chars
  | .bytes => .bytes
  | .timestamp => .timestampParts

/-- Bytes a representation occupies in a `chars` or `bytes` buffer. -/
def paramSize : (t : PlainType) → t.Carrier → ℕ
  | .string, value => value.length
  | .bytes, value => value.length
  | _, _ => 0

/-- What is written into a buffer for one row: bytes from an offset on, and the indicator. -/
structure Staged where
  offset : ℕ
  bytes : List UInt8
  indicator : ℤ

/-- Text and bytes and timestamps go where the stride says, the others to the element of their own
type. -/
def stageParam : (t : PlainType) → t.Carrier → ℕ → ℕ → Staged
  | .bool, value, row, _ => ⟨row * 1, toLittleEndian 1 (Bool.toNat value), 1⟩
  | .int16, value, row, _ => ⟨row * 2, toLittleEndian 2 (Int16.toBitVec value).toNat, 2⟩
  | .int32, value, row, _ => ⟨row * 4, toLittleEndian 4 (Int32.toBitVec value).toNat, 4⟩
  | .int64, value, row, _ => ⟨row * 8, toLittleEndian 8 (Int64.toBitVec value).toNat, 8⟩
  | .double, value, row, _ => ⟨row * 8, toLittleEndian 8 (BitVec.toNat value), 8⟩
  | .string, value, row, stride => ⟨row * stride, value, (value.length : ℕ)⟩
  | .bytes, value, row, stride => ⟨row * stride, value, (value.length : ℕ)⟩
  | .timestamp, value, row, stride => ⟨row * stride, (breakTimestamp value).toBytes, 16⟩

structure ByteColumn where
  type : BufferType
  count : ℕ
  elementSize : ℕ
  data : Memory
  indicators : ℕ → ℤ

def BufferType.valueLength (type : BufferType) (indicator : ℤ) : ℕ :=
  if type.isVar then indicator.toNat else type.width

def BufferType.sqlValueOf (type : BufferType) (bytes : List UInt8) : SqlValue :=
  match type with
  | .bit => .bool (fromLittleEndian bytes ≠ 0)
  | .int8 => .null
  | .int16 => .int16 (Int16.ofBitVec (BitVec.ofNat 16 (fromLittleEndian bytes)))
  | .int32 => .int32 (Int32.ofBitVec (BitVec.ofNat 32 (fromLittleEndian bytes)))
  | .int64 => .int64 (Int64.ofBitVec (BitVec.ofNat 64 (fromLittleEndian bytes)))
  | .float64 => .double (BitVec.ofNat 64 (fromLittleEndian bytes))
  | .chars => .string bytes
  | .bytes => .bytes bytes
  | .timestampParts => .timestamp (makeTimestamp (TimestampParts.ofBytes bytes))

namespace ByteColumn
variable (c : ByteColumn)

def lengthAt (row : ℕ) : ℕ := c.type.valueLength (c.indicators row)

def readBack (row : ℕ) : SqlValue :=
  if c.indicators row = nullIndicator then .null
  else c.type.sqlValueOf (c.data.load (row * c.elementSize) (c.lengthAt row))

def setNull (row : ℕ) : ByteColumn :=
  { c with indicators := Function.update c.indicators row nullIndicator }

def put (row : ℕ) (s : Staged) : ByteColumn :=
  { c with
    data := c.data.store s.offset s.bytes
    indicators := Function.update c.indicators row s.indicator }

end ByteColumn

/-- A mapped member of the rows. -/
structure Field (R : Type u) where
  type : MemberType
  member : R → type.Carrier

namespace Field
variable {R : Type u} (f : Field R)

def dbType : PlainType := f.type.representable.dbType

def bufferType : BufferType := memberBufferType f.dbType

/-- The representation of a row's member, `none` for an empty optional. -/
def encoded (entity : R) : Option f.dbType.Carrier :=
  (f.type.value? (f.member entity)).map f.type.representable.encoded

/-- `column_meta::read`. -/
def read (entity : R) : SqlValue :=
  match f.type.value? (f.member entity) with
  | some value => f.type.representable.makeSqlValue value
  | none => .null

def getStringSize (entity : R) : ℕ :=
  match f.encoded entity with
  | some value => paramSize f.dbType value
  | none => 0

def writeToParamBuffer (entity : R) (row : ℕ) (c : ByteColumn) : ByteColumn :=
  match f.encoded entity with
  | none => c.setNull row
  | some value => c.put row (stageParam f.dbType value row c.elementSize)

/-- The widest representation among the rows, at least 1. Members of fixed width are not scanned. -/
def maxSize (rows : List R) : ℕ :=
  if f.bufferType.isVar then rows.foldl (fun n row => max n (f.getStringSize row)) 1 else 1

def elementSize (rows : List R) : ℕ := elementSizeFor f.bufferType (f.maxSize rows)

theorem read_eq (entity : R) :
    f.read entity = ((f.encoded entity).map f.dbType.sqlValue).getD .null := by
  unfold read encoded dbType
  cases f.type.value? (f.member entity) with
  | none => rfl
  | some value => rfl

end Field

def Field.toColumn {R : Type u} (f : Field R) (column : Sql.Text) (isPrimaryKey : Bool) :
    Column R SqlValue where
  column := column
  isPrimaryKey := isPrimaryKey
  bufferType := f.bufferType
  member entity := (f.encoded entity).map f.dbType.sqlValue
  size value := if f.bufferType.isVar then value.length else 0
  fixed hfixed value := by simp [hfixed]

/-- A value is as long as the representation it was made from. -/
theorem length_sqlValue (t : PlainType) (value : t.Carrier) :
    (if (memberBufferType t).isVar then (t.sqlValue value).length else 0) = paramSize t value := by
  cases t <;> rfl

theorem Field.getStringSize_toColumn {R : Type u} (f : Field R) (column : Sql.Text)
    (isPrimaryKey : Bool) (entity : R) :
    (f.toColumn column isPrimaryKey).getStringSize entity = f.getStringSize entity := by
  have hmember : (f.toColumn column isPrimaryKey).member entity =
      (f.encoded entity).map f.dbType.sqlValue := rfl
  rw [Column.getStringSize, hmember, getStringSize]
  cases f.encoded entity with
  | none => rfl
  | some value => exact length_sqlValue f.dbType value

section
variable (t : PlainType) (value : t.Carrier) (row stride : ℕ)

def Strided : Prop := (memberBufferType t).isVar = false → stride = (memberBufferType t).width

theorem stageParam_offset (h : Strided t stride) :
    (stageParam t value row stride).offset = row * stride := by
  cases t with
  | string => rfl
  | bytes => rfl
  | timestamp => rfl
  | _ =>
    rw [h rfl]
    rfl

theorem valueLength_stageParam :
    (memberBufferType t).valueLength (stageParam t value row stride).indicator =
      (stageParam t value row stride).bytes.length := by
  cases t with
  | string => exact Int.toNat_natCast _
  | bytes => exact Int.toNat_natCast _
  | timestamp => exact (TimestampParts.length_toBytes _).symm
  | _ => exact (length_toLittleEndian _ _).symm

theorem stageParam_indicator : (stageParam t value row stride).indicator ≠ nullIndicator := by
  have hnonneg : 0 ≤ (stageParam t value row stride).indicator := by
    cases t with
    | string => exact Int.natCast_nonneg _
    | bytes => exact Int.natCast_nonneg _
    | _ => simp [stageParam]
  unfold nullIndicator
  omega

theorem sqlValueOf_stageParam :
    (memberBufferType t).sqlValueOf (stageParam t value row stride).bytes = t.sqlValue value := by
  cases t with
  | bool =>
    cases value with
    | false => rfl
    | true => rfl
  | int16 =>
    apply congrArg SqlValue.int16
    exact congrArg Int16.ofBitVec (ofNat_fromLittleEndian (by decide) (Int16.toBitVec value))
  | int32 =>
    apply congrArg SqlValue.int32
    exact congrArg Int32.ofBitVec (ofNat_fromLittleEndian (by decide) (Int32.toBitVec value))
  | int64 =>
    apply congrArg SqlValue.int64
    exact congrArg Int64.ofBitVec (ofNat_fromLittleEndian (by decide) (Int64.toBitVec value))
  | double =>
    apply congrArg SqlValue.double
    exact ofNat_fromLittleEndian (by decide) value
  | string => rfl
  | bytes => rfl
  | timestamp =>
    apply congrArg SqlValue.timestamp
    have hparts := TimestampParts.ofBytes_toBytes (fits_breakTimestamp value)
    exact (congrArg makeTimestamp hparts).trans (makeTimestamp_breakTimestamp value)

theorem paramSize_of_fixed (h : (memberBufferType t).isVar = false) : paramSize t value = 0 := by
  cases t with
  | string => simp [memberBufferType, BufferType.isVar] at h
  | bytes => simp [memberBufferType, BufferType.isVar] at h
  | _ => rfl

theorem length_stageParam :
    (stageParam t value row stride).bytes.length =
      if (memberBufferType t).isVar then paramSize t value else (memberBufferType t).width := by
  rw [← valueLength_stageParam]
  cases t <;> rfl

end

/-- What one call of `write_to_param_buffer` did: the row it was called for, the buffer it was given,
the size of the representation and the bytes it wrote, `length` of them from `offset` on. -/
structure Placement where
  row : ℕ
  count : ℕ
  elementSize : ℕ
  encoded : ℕ
  offset : ℕ
  length : ℕ

structure Placement.Inside (p : Placement) : Prop where
  row : p.row < p.count
  encoded : p.encoded < p.elementSize
  first : p.row * p.elementSize ≤ p.offset
  last : p.offset + p.length ≤ (p.row + 1) * p.elementSize

namespace Field
variable {R : Type u} (f : Field R)

def placement (entity : R) (row : ℕ) (c : ByteColumn) : Placement :=
  match f.encoded entity with
  | none => ⟨row, c.count, c.elementSize, 0, row * c.elementSize, 0⟩
  | some value =>
    let staged := stageParam f.dbType value row c.elementSize
    ⟨row, c.count, c.elementSize, paramSize f.dbType value, staged.offset, staged.bytes.length⟩

/-- A buffer with a place for each of `count` rows, wide enough for a member of any of `rows`. -/
structure Laid (rows : List R) (count : ℕ) (c : ByteColumn) : Prop where
  type : c.type = f.bufferType
  count : c.count = count
  elementSize : c.elementSize = f.elementSize rows

structure Holds (entity : R) (c : ByteColumn) (row : ℕ) : Prop where
  value : c.readBack row = f.read entity
  length : c.lengthAt row ≤ c.elementSize

variable {f} {rows : List R} {count row r : ℕ} {c : ByteColumn} {entity other : R}

theorem elementSize_of_fixed (h : f.bufferType.isVar = false) :
    f.elementSize rows = f.bufferType.width := by
  unfold elementSize
  cases htype : f.bufferType with
  | chars => simp [htype, BufferType.isVar] at h
  | bytes => simp [htype, BufferType.isVar] at h
  | _ => rfl

theorem elementSize_pos : 0 < f.elementSize rows := by
  unfold elementSize elementSizeFor
  cases f.bufferType <;> simp

/-- Every representation of the rows is shorter than a place. -/
theorem getStringSize_lt (hentity : entity ∈ rows) : f.getStringSize entity < f.elementSize rows := by
  cases hvar : f.bufferType.isVar with
  | false =>
    have hzero : f.getStringSize entity = 0 := by
      unfold getStringSize
      cases f.encoded entity with
      | none => rfl
      | some value => exact paramSize_of_fixed f.dbType value hvar
    rw [hzero]
    exact elementSize_pos
  | true =>
    have hscan := (le_foldl_max f.getStringSize rows 1).2 entity hentity
    have hmax : f.maxSize rows = rows.foldl (fun n row => max n (f.getStringSize row)) 1 := if_pos hvar
    rw [← hmax] at hscan
    have hwide : f.maxSize rows < f.elementSize rows := by
      unfold elementSize elementSizeFor
      cases htype : f.bufferType <;> simp [htype, BufferType.isVar] at hvar ⊢
    omega

/-- The bytes of a representation fit into a place. -/
theorem length_staged_le {value : f.dbType.Carrier} (hentity : entity ∈ rows)
    (hvalue : f.encoded entity = some value) (row stride : ℕ) :
    (stageParam f.dbType value row stride).bytes.length ≤ f.elementSize rows := by
  rw [length_stageParam]
  by_cases hvar : (memberBufferType f.dbType).isVar = true
  · have hsize := getStringSize_lt (f := f) hentity
    rw [getStringSize, hvalue] at hsize
    rw [if_pos hvar]
    exact hsize.le
  · rw [if_neg hvar]
    exact (elementSize_of_fixed (Bool.eq_false_iff.mpr hvar)).ge

namespace Laid
variable (h : f.Laid rows count c)
include h

theorem strided : Strided f.dbType c.elementSize := by
  intro hfixed
  rw [h.elementSize]
  exact elementSize_of_fixed hfixed

theorem write (entity : R) (row : ℕ) : f.Laid rows count (f.writeToParamBuffer entity row c) := by
  unfold writeToParamBuffer
  cases f.encoded entity with
  | none => exact ⟨h.type, h.count, h.elementSize⟩
  | some value => exact ⟨h.type, h.count, h.elementSize⟩

theorem inside (hentity : entity ∈ rows) (hrow : row < count) : (f.placement entity row c).Inside := by
  have hsize := getStringSize_lt (f := f) hentity
  rw [← h.elementSize] at hsize
  rw [← h.count] at hrow
  unfold placement
  cases hvalue : f.encoded entity with
  | none => exact ⟨hrow, by simp only; omega, le_rfl, by simp only; rw [Nat.succ_mul]; omega⟩
  | some value =>
    have hlength := length_staged_le hentity hvalue row c.elementSize
    rw [← h.elementSize] at hlength
    rw [getStringSize, hvalue] at hsize
    have hoffset := stageParam_offset f.dbType value row c.elementSize h.strided
    refine ⟨hrow, hsize, hoffset.ge, ?_⟩
    simp only
    rw [hoffset, Nat.succ_mul]
    omega

theorem holds_write (hentity : entity ∈ rows) (row : ℕ) :
    f.Holds entity (f.writeToParamBuffer entity row c) row := by
  rw [writeToParamBuffer]
  cases hvalue : f.encoded entity with
  | none =>
    have hind : (c.setNull row).indicators row = nullIndicator := Function.update_self _ _ _
    change f.Holds entity (c.setNull row) row
    refine ⟨?_, ?_⟩
    · rw [ByteColumn.readBack, if_pos hind, read_eq, hvalue]
      rfl
    · rw [ByteColumn.lengthAt, hind]
      unfold BufferType.valueLength
      split
      · exact Nat.zero_le _
      · rename_i hfixed
        change c.type.width ≤ c.elementSize
        have htype : (c.setNull row).type = f.bufferType := h.type
        rw [htype] at hfixed
        rw [h.type, h.elementSize, elementSize_of_fixed (Bool.eq_false_iff.mpr hfixed)]
  | some value =>
    obtain ⟨staged, hstaged⟩ : ∃ s, stageParam f.dbType value row c.elementSize = s := ⟨_, rfl⟩
    have hind : (c.put row staged).indicators row = staged.indicator := Function.update_self _ _ _
    have hlength : (c.put row staged).lengthAt row = staged.bytes.length := by
      rw [ByteColumn.lengthAt, hind, ← hstaged, ← valueLength_stageParam]
      exact congrArg (fun t => BufferType.valueLength t _) h.type
    have hoffset := stageParam_offset f.dbType value row c.elementSize h.strided
    simp only [hstaged]
    refine ⟨?_, ?_⟩
    · have hnull : staged.indicator ≠ nullIndicator := by
        rw [← hstaged]
        exact stageParam_indicator _ _ _ _
      have hload : (c.put row staged).data.load (row * c.elementSize) staged.bytes.length =
          staged.bytes := by
        rw [← hoffset, hstaged]
        exact Memory.load_store_self _ _ _
      have hdecode := sqlValueOf_stageParam f.dbType value row c.elementSize
      rw [hstaged] at hdecode
      rw [ByteColumn.readBack, hind, if_neg hnull, hlength, read_eq, hvalue]
      change c.type.sqlValueOf ((c.put row staged).data.load (row * c.elementSize) _) = _
      rw [hload, h.type]
      exact hdecode
    · rw [hlength, ← hstaged]
      change _ ≤ c.elementSize
      rw [h.elementSize]
      exact length_staged_le hentity hvalue _ _

theorem holds_other (hentity : entity ∈ rows) (hne : r ≠ row) (hr : f.Holds other c r) :
    f.Holds other (f.writeToParamBuffer entity row c) r := by
  rw [writeToParamBuffer]
  cases hvalue : f.encoded entity with
  | none =>
    have hind : (c.setNull row).indicators r = c.indicators r := Function.update_of_ne hne _ _
    have hlength : (c.setNull row).lengthAt r = c.lengthAt r := by
      rw [ByteColumn.lengthAt, hind]
      rfl
    refine ⟨?_, hlength.le.trans hr.length⟩
    rw [← hr.value, ByteColumn.readBack, hind, hlength]
    rfl
  | some value =>
    obtain ⟨staged, hstaged⟩ : ∃ s, stageParam f.dbType value row c.elementSize = s := ⟨_, rfl⟩
    have hind : (c.put row staged).indicators r = c.indicators r := Function.update_of_ne hne _ _
    have hlength : (c.put row staged).lengthAt r = c.lengthAt r := by
      rw [ByteColumn.lengthAt, hind]
      rfl
    have hapart : (c.put row staged).data.load (r * c.elementSize) (c.lengthAt r) =
        c.data.load (r * c.elementSize) (c.lengthAt r) := by
      have hoffset := stageParam_offset f.dbType value row c.elementSize h.strided
      have hsize := length_staged_le hentity hvalue row c.elementSize
      rw [← h.elementSize] at hsize
      rw [hstaged] at hoffset hsize
      have hread := hr.length
      apply Memory.load_store_of_disjoint
      rw [hoffset]
      rcases Nat.lt_or_gt_of_ne hne with hlt | hgt
      · left
        have hmul := Nat.mul_le_mul_right c.elementSize (Nat.succ_le_of_lt hlt)
        rw [Nat.succ_mul] at hmul
        omega
      · right
        have hmul := Nat.mul_le_mul_right c.elementSize (Nat.succ_le_of_lt hgt)
        rw [Nat.succ_mul] at hmul
        omega
    simp only [hstaged]
    refine ⟨?_, hlength.le.trans hr.length⟩
    rw [← hr.value, ByteColumn.readBack, hind, hlength]
    change (if c.indicators r = nullIndicator then SqlValue.null
      else c.type.sqlValueOf ((c.put row staged).data.load (r * c.elementSize) (c.lengthAt r))) = _
    rw [hapart]
    rfl

end Laid

end Field

end Uniorm.Orm
