import Uniorm.Gen.Naming
import Uniorm.Schema.Meta

/-! # What the generator is given

The schema snapshot and the overrides of a run. The maps of a config are only
searched, so each is the function `find` is on it; the keys of tables and
columns are folded to lower case, those of types to upper case.
-/
namespace Uniorm.Gen

open Sql Cpp Schema

structure ColumnModel where
  shape : ColumnShape
  typeName : Text
  size : ℤ := 0
  decimals : ℤ := 0
  primaryKey : Bool := false
  defaultValue : Option Text := none
  deriving DecidableEq, Repr

structure FkModel where
  pkTable : Text
  columns : List (Text × Text)
  deriving DecidableEq, Repr

structure IndexModel where
  name : Text
  columns : List Text
  unique : Bool := false
  deriving DecidableEq, Repr

structure TableModel where
  name : Text
  columns : List ColumnModel
  foreignKeys : List FkModel := []
  indexes : List IndexModel := []
  deriving DecidableEq, Repr

/-- `schema_model`. Its name is a C++ identifier already; `generate_from` sets it to a
`unitName`. -/
structure SchemaModel where
  name : Text
  tables : List TableModel
  usable : Usable name

def SchemaModel.named (name : Text) (tables : List TableModel) : SchemaModel :=
  ⟨unitName name, tables, unitName_usable name⟩

structure ColumnOverride where
  cppType : Option Text := none
  converter : Option Text := none

structure TableConfig where
  className : Option Text := none
  skip : Bool := false
  columns : Text → Option ColumnOverride := fun _ => none

structure GenConfig where
  typeOverrides : Text → Option Text := fun _ => none
  tables : Text → Option TableConfig := fun _ => none

end Uniorm.Gen
