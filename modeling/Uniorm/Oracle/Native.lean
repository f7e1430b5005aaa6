import Mathlib.Algebra.Order.Field.Rat
import Uniorm.Value.Timestamp

/-! # Oracle's columns and what is staged of them

The type codes the OCI backend tells apart, the shape in which OCI writes a row
of a column, and the width of a staged text. The shape follows from the column
and from the buffer that the caller has bound.
-/
namespace Uniorm.Oracle

open Value

/-- The type codes of columns; what the backend makes no difference for goes by its number. -/
inductive Sqlt where
  | chr | num | lng | dat | bin | lbi | lvc | lvb | afc | clob | blob | bfilee | nclob | odt
  | timestamp | timestampTz | timestampLtz
  | other (code : ℕ)
  deriving DecidableEq, Repr

namespace Sqlt

def code : Sqlt → ℕ
  | chr => 1
  | num => 2
  | lng => 8
  | dat => 12
  | bin => 23
  | lbi => 24
  | lvc => 94
  | lvb => 95
  | afc => 96
  | clob => 112
  | blob => 113
  | bfilee => 114
  | nclob => 117
  | odt => 156
  | timestamp => 187
  | timestampTz => 188
  | timestampLtz => 232
  | other code => code

def isLocator : Sqlt → Bool
  | clob | blob | bfilee => true
  | _ => false

/-- No width that the server describes can be trusted. -/
def needsWideStaging : Sqlt → Bool
  | lng | lvc | lbi | lvb | nclob => true
  | _ => false

def isWideText : Sqlt → Bool
  | clob | nclob | lng | lvc => true
  | _ => false

def isDateColumn : Sqlt → Bool
  | dat | odt => true
  | _ => false

def isNumberColumn (dty : Sqlt) : Bool := dty == num

def isTimestampColumn : Sqlt → Bool
  | timestamp | timestampTz | timestampLtz => true
  | _ => false

end Sqlt

structure DescribedColumn where
  dty : Sqlt
  byteSize : ℕ
  precision : ℤ
  scale : ℤ
  deriving DecidableEq, Repr

/-- The widest decimal spelling of a NUMBER of this shape. -/
def numberTextWidth (column : DescribedColumn) : ℕ :=
  if column.scale < 0 ∨ column.precision ≤ 0 then 177
  else
    let whole := if column.scale < column.precision then column.precision - column.scale else 1
    (1 + whole + if 0 < column.scale then 1 + column.scale else 0).toNat

structure DateParts where
  year : ℤ
  month : ℕ
  day : ℕ
  deriving DecidableEq, Repr

structure TimeParts where
  hour : ℕ
  minute : ℕ
  second : ℕ
  deriving DecidableEq, Repr

/-- The buffer of a column: its type, and its capacity where that is not the size of the type. -/
inductive Requested where
  | bit | int8 | int16 | int32 | int64 | float32 | float64
  | chars (capacity : ℕ)
  | bytes (capacity : ℕ)
  | timestampParts | dateParts | timeParts
  deriving DecidableEq, Repr

namespace Requested

/-- What the buffer has of a row. A real number stands for the float or double that it is; none is
no finite one. -/
abbrev Slot : Requested → Type
  | bit | int8 => Int8
  | int16 => Int16
  | int32 => Int32
  | int64 => Int64
  | float32 | float64 => Option ℚ
  | chars _ | bytes _ => List UInt8
  | timestampParts => TimestampParts
  | dateParts => DateParts
  | timeParts => TimeParts

def capacity : Requested → ℕ
  | bit | int8 => 1
  | int16 => 2
  | int32 | float32 => 4
  | int64 | float64 => 8
  | chars capacity | bytes capacity => capacity
  | timestampParts => 16
  | dateParts | timeParts => 6

end Requested

inductive OciError where
  | bfile
  | dateField (dty : Sqlt)
  | undescribed
  | pastSelectList (column : ℕ)
  | boundTwice (column : ℕ)
  | fetch
  | integer
  | real
  | text
  | numberInDateField
  | dateInOtherField
  | timestampInOtherField
  | noColumn (column : ℕ)
  | noSuchRead (column row : ℕ)
  | characterLob
  | binaryLob
  deriving DecidableEq, Repr

def OciError.what : OciError → String
  | bfile => "read a BFILE column"
  | dateField dty => "bind a column of type " ++ toString dty.code ++ " into a date or time field"
  | undescribed => "bind a result column of a statement that was never described"
  | pastSelectList column => "result column " ++ toString column ++ " is past the select list"
  | boundTwice column => "bind result column " ++ toString column ++ " a second time"
  | fetch => "fetch rows"
  | integer => "read a NUMBER as an integer"
  | real => "read a NUMBER as a real"
  | text => "read a NUMBER as text"
  | numberInDateField => "bind a NUMBER column into a date field"
  | dateInOtherField => "bind a DATE column into a field that is not a date"
  | timestampInOtherField => "bind a TIMESTAMP column into a field that is not a date"
  | noColumn column => "read a value of result column " ++ toString column
  | noSuchRead column row =>
    "read column " ++ toString column ++ " of row " ++ toString row ++ ", which owes no such read"
  | characterLob => "read a character LOB"
  | binaryLob => "read a binary LOB"

/-- What OCI writes for a row of a bound column. -/
inductive StageKind where
  | number | text | binary | date | timestamp | wideText | wideBinary
  deriving DecidableEq, Repr

def pickStage (requested : Requested) (column : DescribedColumn) : Except OciError StageKind :=
  if column.dty = .bfilee then .error .bfile
  else if column.dty.isLocator then
    .ok (if column.dty.isWideText then .wideText else .wideBinary)
  else
    match requested with
    | .bit | .int8 | .int16 | .int32 | .int64 | .float32 | .float64 => .ok .number
    | .chars _ => .ok .text
    | .bytes _ => .ok .binary
    | .timestampParts | .dateParts | .timeParts =>
      if column.dty.isDateColumn then .ok .date
      else if column.dty.isTimestampColumn then .ok .timestamp
      else .error (.dateField column.dty)

def maxScalarWidth : ℕ := 32767

def unknownScalarWidth : ℕ := 4096

def stageWidth (column : DescribedColumn) (requestedCapacity : ℕ) : ℕ :=
  if column.dty.needsWideStaging then max maxScalarWidth requestedCapacity
  else if column.dty.isNumberColumn then min (numberTextWidth column) maxScalarWidth
  else if column.byteSize = 0 then max unknownScalarWidth requestedCapacity
  else min column.byteSize maxScalarWidth

end Uniorm.Oracle
