import Mathlib.Data.List.FinRange
import Uniorm.Builder.Dialect

/-! # Entity mappings

`entity_meta` with what the writes read of it, and how the columns a write matches on and the
columns it assigns are found. A column is named by its index among the mapped ones. Entities are an
arbitrary type `R`, the representations of their members an arbitrary type `V`.
-/
namespace Uniorm.Orm

open Sql Builder

universe u v

inductive BufferType where
  | bit
  | int8
  | int16
  | int32
  | int64
  | float64
  | chars
  | bytes
  | timestampParts
  deriving DecidableEq, Repr

def BufferType.isVar : BufferType → Bool
  | chars => true
  | bytes => true
  | _ => false

/-- `column_meta`. `member` is the member through its converter, with `none` for an empty optional;
`size` is `param_size`, the bytes a representation takes in a buffer of its type. -/
structure Column (R : Type u) (V : Type v) where
  column : Text
  isPrimaryKey : Bool
  bufferType : BufferType
  member : R → Option V
  size : V → ℕ
  fixed : bufferType.isVar = false → ∀ value, size value = 0

def Column.flag (column : Text) (isPrimaryKey : Bool) : Column Unit Bool :=
  ⟨column, isPrimaryKey, .bit, fun _ => none, fun _ => 0, fun _ _ => rfl⟩

namespace Column
variable {R : Type u} {V : Type v} (c : Column R V)

/-- `get_string_size`. -/
def getStringSize (row : R) : ℕ :=
  match c.member row with
  | some value => c.size value
  | none => 0

end Column

/-- `identifier_resolution`. -/
structure Resolution where
  catalog : Text
  schema : Text
  name : Text
  columns : List Text

structure EntityMeta (R : Type u) (V : Type v) where
  table : Text
  columns : List (Column R V)
  resolved : Option Resolution

/-- What a write can throw: the errors of this layer, those of the dialect and those of the
backend. -/
inductive WriteError (E : Type*) where
  | identifier (error : BuilderError)
  | cannotRender
  | resolutionSize
  | noWhereFields (op : String)
  | notMapped (op : String) (field : Text)
  | noPrimaryKey (op : String)
  | noColumnsToSet
  | backend (error : E)

def WriteError.what {E : Type*} : WriteError E → Option String
  | identifier error => some error.what
  | cannotRender => some "this dialect cannot render resolved identifiers"
  | resolutionSize => some "identifier resolution does not match the mapped column count"
  | noWhereFields op => some (op ++ ": no WHERE fields specified")
  | notMapped op field => some (op ++ ": WHERE field '" ++ String.ofList field ++ "' is not mapped")
  | noPrimaryKey op =>
    some (op ++ ": entity has no primary key; specify where_fields explicitly")
  | noColumnsToSet => some "update: no columns to set (all mapped columns are in WHERE)"
  | backend _ => none

namespace EntityMeta
variable {R : Type u} {V : Type v} {E : Type*} (m : EntityMeta R V)

abbrev Index : Type := Fin m.columns.length

def col (i : m.Index) : Column R V := m.columns.get i

def quoted (r : Except BuilderError Text) : Except (WriteError E) Text :=
  r.mapError WriteError.identifier

def tableSql (d : Dialect) : Except (WriteError E) Text :=
  match m.resolved with
  | none => quoted (d.quoteIdentifier m.table)
  | some r =>
    match d.tableQualification with
    | .unsupported => .error .cannotRender
    | .schema => qualified r.schema r.name
    | .catalog => qualified r.catalog r.name
where
  qualified (qualifier name : Text) : Except (WriteError E) Text := do
    let head ← if qualifier = [] then pure []
      else (· ++ ['.']) <$> quoted (d.quoteExactIdentifier qualifier)
    let name ← quoted (d.quoteExactIdentifier name)
    pure (head ++ name)

def columnSql (d : Dialect) (i : m.Index) : Except (WriteError E) Text :=
  match m.resolved with
  | none => quoted (d.quoteIdentifier (m.col i).column)
  | some r =>
    if h : r.columns.length = m.columns.length then
      if d.tableQualification = .unsupported then .error .cannotRender
      else quoted (d.quoteExactIdentifier (r.columns.get (i.cast h.symm)))
    else .error .resolutionSize

def spelled (d : Dialect) (i : m.Index) : Text :=
  match m.resolved with
  | none => d.foldIdentifier (m.col i).column
  | some r => r.columns.getD i []

def primaryKeyColumns : List Text :=
  (m.columns.filter (·.isPrimaryKey)).map (·.column)

def findColumn (field : Text) : Option m.Index :=
  (List.finRange m.columns.length).find? fun i => (m.col i).column = field

def resolveWhereColumns (whereFields : List Text) (op : String) :
    Except (WriteError E) (List m.Index) :=
  if whereFields = [] then .error (.noWhereFields op)
  else whereFields.mapM fun field =>
    match m.findColumn field with
    | some i => .ok i
    | none => .error (.notMapped op field)

def resolveWhere (whereFields : Option (List Text)) (op : String) :
    Except (WriteError E) (List m.Index) :=
  match whereFields with
  | some fields => m.resolveWhereColumns fields op
  | none =>
    if m.primaryKeyColumns = [] then .error (.noPrimaryKey op)
    else m.resolveWhereColumns m.primaryKeyColumns op

def setColumnsOf (whereCols : List m.Index) : List m.Index :=
  (List.finRange m.columns.length).filter fun i => i ∉ whereCols

def allColumns : List m.Index := List.finRange m.columns.length

end EntityMeta

end Uniorm.Orm
