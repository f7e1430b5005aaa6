import Uniorm.Builder.Expression
import Uniorm.Orm.Statement
import Uniorm.Orm.Write

/-! # The typed builders

`query_shape` with its SELECT and COUNT, and the statements of `update<T>` and
`remove<T>`. A member of the entity is named by its key; the mapping resolves a
key to the first column that carries it.
-/
namespace Uniorm.Orm

open Foundation Sql Builder

universe u

/-- What the typed builders throw: the errors of the mapping and their own. -/
inductive QueryError (E : Type*) where
  | entity (error : WriteError E)
  | memberNotMapped
  | emptyPredicate
  | updateNoColumns
  | updateNoWhere
  | removeNoWhere

def QueryError.what {E : Type*} : QueryError E → Option String
  | entity error => error.what
  | memberNotMapped => some "member is not mapped to a column"
  | emptyPredicate => some "empty predicate cannot be rendered"
  | updateNoColumns => some "update: no columns to set"
  | updateNoWhere => some "update: refusing to run without a WHERE predicate"
  | removeNoWhere => some "remove: refusing to run without a WHERE predicate"

inductive Direction where
  | asc | desc
  deriving DecidableEq, Repr

def Direction.sql : Direction → Text
  | asc => [' ', 'A', 'S', 'C']
  | desc => [' ', 'D', 'E', 'S', 'C']

/-- What the chained calls of a query leave. -/
structure QueryShape (K V : Type) where
  wheres : List (Predicate K (Option V))
  orders : List (K × Direction)
  offset : ℕ

namespace EntityMeta
variable {R : Type u} {V K : Type} {E : Type*} [DecidableEq K] (m : EntityMeta R V)
  (keyOf : m.Index → K) (d : Dialect)

def keyColumn (key : K) : Option m.Index := m.allColumns.find? fun i => keyOf i = key

/-- `column_sql` of a member key. -/
def columnSqlOf (key : K) : Except (QueryError E) Text :=
  match m.keyColumn keyOf key with
  | none => .error .memberNotMapped
  | some i => (m.columnSql d i).mapError .entity

/-- `where_sql`. -/
def whereSql (wheres : List (Predicate K (Option V))) :
    Except (QueryError E) (Text × List (Option V)) := do
  let parts ← wheres.mapM (Predicate.toSql .emptyPredicate (m.columnSqlOf keyOf d))
  pure ([' ', 'A', 'N', 'D', ' '].intercalate (parts.map Prod.fst), parts.flatMap Prod.snd)

/-- The WHERE of a statement that may go without. -/
def optionalWhere (wheres : List (Predicate K (Option V))) :
    Except (QueryError E) (Text × List (Option V)) :=
  if wheres.isEmpty then pure ([], [])
  else do
    let condition ← m.whereSql keyOf d wheres
    pure ([' ', 'W', 'H', 'E', 'R', 'E', ' '] ++ condition.1, condition.2)

def orderSql (order : K × Direction) : Except (QueryError E) Text :=
  (m.columnSqlOf keyOf d order.1).map (· ++ order.2.sql)

def ordersSql (orders : List (K × Direction)) : Except (QueryError E) Text :=
  if orders.isEmpty then pure []
  else do
    let parts ← orders.mapM (m.orderSql keyOf d)
    pure ([' ', 'O', 'R', 'D', 'E', 'R', ' ', 'B', 'Y', ' '] ++ [',', ' '].intercalate parts)

/-- `render_select`; the limit is the chained one or the one of the terminal. -/
def renderSelect (shape : QueryShape K V) (lim : Option ℕ) :
    Except (QueryError E) (Text × List (Option V)) := do
  let columns ← m.allColumns.mapM fun i => (m.columnSql d i).mapError .entity
  let table ← (m.tableSql d).mapError .entity
  let condition ← m.optionalWhere keyOf d shape.wheres
  let orders ← m.ordersSql keyOf d shape.orders
  pure (['S', 'E', 'L', 'E', 'C', 'T', ' '] ++ [',', ' '].intercalate columns ++
    [' ', 'F', 'R', 'O', 'M', ' '] ++ table ++ condition.1 ++ orders ++
    d.pagination lim shape.offset, condition.2)

/-- `render_count`. -/
def renderCount (shape : QueryShape K V) : Except (QueryError E) (Text × List (Option V)) := do
  let table ← (m.tableSql d).mapError .entity
  let condition ← m.optionalWhere keyOf d shape.wheres
  pure (['S', 'E', 'L', 'E', 'C', 'T', ' ', 'C', 'O', 'U', 'N', 'T', '(', '*', ')', ' ', 'F', 'R',
    'O', 'M', ' '] ++ table ++ condition.1, condition.2)

/-- One assignment of `update<T>`. -/
def setSql (assignment : K × Option V) : Except (QueryError E) Text :=
  (m.columnSqlOf keyOf d assignment.1).map (· ++ [' ', '=', ' ', '?'])

/-- The statement of `update<T>::execute`. -/
def typedUpdate (sets : List (K × Option V)) (wheres : List (Predicate K (Option V))) :
    Except (QueryError E) (Text × List (Option V)) :=
  if sets.isEmpty then .error .updateNoColumns
  else if wheres.isEmpty then .error .updateNoWhere
  else do
    let table ← (m.tableSql d).mapError .entity
    let parts ← sets.mapM (m.setSql keyOf d)
    let condition ← m.whereSql keyOf d wheres
    pure (['U', 'P', 'D', 'A', 'T', 'E', ' '] ++ table ++ [' ', 'S', 'E', 'T', ' '] ++
      [',', ' '].intercalate parts ++ [' ', 'W', 'H', 'E', 'R', 'E', ' '] ++ condition.1,
      sets.map Prod.snd ++ condition.2)

/-- The statement of `remove<T>::execute`. -/
def typedRemove (wheres : List (Predicate K (Option V))) :
    Except (QueryError E) (Text × List (Option V)) :=
  if wheres.isEmpty then .error .removeNoWhere
  else do
    let condition ← m.whereSql keyOf d wheres
    let table ← (m.tableSql d).mapError .entity
    pure (['D', 'E', 'L', 'E', 'T', 'E', ' ', 'F', 'R', 'O', 'M', ' '] ++ table ++
      [' ', 'W', 'H', 'E', 'R', 'E', ' '] ++ condition.1, condition.2)

end EntityMeta

/-- The statements the core renders for an entity, with what decides their texts. -/
inductive CoreStatement {R : Type u} {V : Type} (K : Type) (m : EntityMeta R V) where
  | select (shape : QueryShape K V) (lim : Option ℕ)
  | count (shape : QueryShape K V)
  | update (sets : List (K × Option V)) (wheres : List (Predicate K (Option V)))
  | remove (wheres : List (Predicate K (Option V)))
  | insertRow (row : R)
  | updateRow (setCols whereCols : List m.Index) (row : R)
  | deleteRow (whereCols : List m.Index) (row : R)

def CoreStatement.render {R : Type u} {V K : Type} {E : Type*} [DecidableEq K] {m : EntityMeta R V}
    (keyOf : m.Index → K) (d : Dialect) :
    CoreStatement K m → Except (QueryError E) (Text × List (Option V))
  | select shape lim => m.renderSelect keyOf d shape lim
  | count shape => m.renderCount keyOf d shape
  | update sets wheres => m.typedUpdate keyOf d sets wheres
  | remove wheres => m.typedRemove keyOf d wheres
  | insertRow row =>
    ((m.buildInsertSql d).mapError .entity).map fun sql => (sql, m.extractRow m.allColumns row)
  | updateRow setCols whereCols row =>
    ((m.updateStatement d setCols whereCols).mapError .entity).map fun sql =>
      (sql, m.extractRow (setCols ++ whereCols) row)
  | deleteRow whereCols row =>
    ((m.deleteStatement d whereCols).mapError .entity).map fun sql =>
      (sql, m.extractRow whereCols row)

end Uniorm.Orm
