import Mathlib.Data.Int.Notation
import Uniorm.Sql.Token

/-! # What a catalog says about tables and columns

The rows of `schema_meta`, and its reads as functions of what they are asked.
-/
namespace Uniorm.Schema

open Sql

universe u

inductive SqlType where
  | boolean | smallint | integer | bigint | real | doublePrecision | decimal
  | character | varchar | longvarchar | wchar | wvarchar | binary | varbinary
  | date | time | timestamp | guid | other
  deriving DecidableEq, Repr

structure ColumnShape where
  name : Text
  type : SqlType := .other
  nullable : Bool := false
  deriving DecidableEq, Repr

structure TableRef where
  catalog : Text
  schema : Text
  name : Text
  deriving DecidableEq, Repr

structure TableRow where
  catalog : Text
  schema : Text
  name : Text
  deriving DecidableEq, Repr

structure ColumnRow where
  shape : ColumnShape
  typeName : Text := []
  size : ℤ := 0
  decimals : ℤ := 0
  defaultValue : Option Text := none
  deriving DecidableEq, Repr

structure ForeignKeyRow where
  referencedTable : Text
  referencedColumn : Text
  column : Text
  deriving DecidableEq, Repr

structure IndexRow where
  name : Text
  columns : List Text
  unique : Bool := false
  deriving DecidableEq, Repr

/-- The reads that ask for a name as it is spelled, and the name of the current database. -/
structure SchemaMeta (E : Type u) where
  databaseName : Text
  exactTables : Text → Text → Except E (List TableRow)
  exactTableColumns : TableRef → Except E (List ColumnRow)

/-- Two reads that answer alike but for the order and the repetition of the rows. -/
def SameRows {E : Type u} {α : Type*} : Except E (List α) → Except E (List α) → Prop
  | .ok rows, .ok rows' => ∀ row, row ∈ rows ↔ row ∈ rows'
  | .error _, .error _ => True
  | _, _ => False

/-- The catalogs of two reads have the same rows. -/
structure SchemaMeta.Same {E : Type u} (md md' : SchemaMeta E) : Prop where
  databaseName : md.databaseName = md'.databaseName
  tables : ∀ catalog schema, SameRows (md.exactTables catalog schema) (md'.exactTables catalog schema)
  columns : ∀ table, SameRows (md.exactTableColumns table) (md'.exactTableColumns table)

theorem SameRows.symm {E : Type u} {α : Type*} {x y : Except E (List α)} (h : SameRows x y) :
    SameRows y x := by
  cases x with
  | error e =>
    cases y with
    | error e' => trivial
    | ok rows => cases h
  | ok rows =>
    cases y with
    | error e => cases h
    | ok rows' => exact fun row => (h row).symm

theorem SameRows.ok {E : Type u} {α : Type*} {y : Except E (List α)} {rows : List α}
    (h : SameRows (.ok rows) y) : ∃ rows', y = .ok rows' ∧ ∀ row, row ∈ rows ↔ row ∈ rows' := by
  cases y with
  | error e => cases h
  | ok rows' => exact ⟨rows', rfl, h⟩

theorem SchemaMeta.Same.symm {E : Type u} {md md' : SchemaMeta E} (h : md.Same md') :
    md'.Same md :=
  ⟨h.databaseName.symm, fun catalog schema => (h.tables catalog schema).symm,
    fun table => (h.columns table).symm⟩

end Uniorm.Schema
