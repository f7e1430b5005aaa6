import Uniorm.Schema.Meta

/-! # What is known of a result's column

`column_info` as far as a read looks at it, and the slots that a projection makes for the values of
a column.
-/
namespace Uniorm.Schema

structure ColumnInfo where
  type : SqlType
  displaySize : ℕ
  deriving DecidableEq, Repr

def stringSlot : Option ColumnInfo → ℕ
  | some info => if 0 < info.displaySize ∧ info.displaySize < 1024 then info.displaySize * 4 + 1
      else 4096
  | none => 4096

def binarySlot : Option ColumnInfo → ℕ
  | some info => if 0 < info.displaySize ∧ info.displaySize < 4096 then info.displaySize + 1
      else 4096
  | none => 4096

end Uniorm.Schema
