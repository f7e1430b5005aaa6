import Uniorm.Orm.Backend
import Uniorm.Orm.Statement

/-! # The entity write pipeline

INSERT, UPDATE and DELETE of one entity or of a vector. A batch goes through one of two channels:
rows bound as value tuples, or columns written into buffers that stay bound for the whole sweep. On
a connection that commits by itself a batch runs in a transaction of its own.
-/
namespace Uniorm.Orm

open Foundation Sql Builder

universe u v w

def BufferType.width : BufferType → ℕ
  | bit => 1
  | int8 => 1
  | int16 => 2
  | int32 => 4
  | int64 => 8
  | float64 => 8
  | chars => 0
  | bytes => 0
  | timestampParts => 16

def elementSizeFor (type : BufferType) (maxVarSize : ℕ) : ℕ :=
  match type with
  | .bit => 1
  | .int16 => 2
  | .int32 => 4
  | .int64 => 8
  | .float64 => 8
  | .chars => max (maxVarSize + 1) 65
  | .bytes => max (maxVarSize + 1) 65
  | .timestampParts => 16
  | .int8 => 1

/-- Whether `stage_param` puts a value into the place of its row. Values of varying length and
timestamps are placed by the stride of the buffer, the others by their own width. -/
def lands {R : Type u} {V : Type v} (col : Column R V) (value : V) (row : ℕ) (buffer : Buffer V) :
    Bool :=
  row < buffer.count && match col.bufferType with
    | .chars => col.size value ≤ buffer.elementSize
    | .bytes => col.size value ≤ buffer.elementSize
    | .timestampParts => col.bufferType.width ≤ buffer.elementSize
    | type => type.width = buffer.elementSize

/-- The member of an entity goes into the place of a row. NULL leaves the bytes there as they are. -/
def writeToParamBuffer {R : Type u} {V : Type v} (col : Column R V) (entity : R) (row : ℕ)
    (buffer : Buffer V) : Buffer V :=
  match col.member entity with
  | none =>
    { buffer with slots := Function.update buffer.slots row { buffer.slots row with isNull := true } }
  | some value =>
    { buffer with
      slots := Function.update buffer.slots row ⟨value, false⟩
      overrun := buffer.overrun || !lands col value row buffer }

/-- The rows of a chunk go into the places from `row` on. -/
def fillColumn {R : Type u} {V : Type v} (col : Column R V) (row : ℕ) :
    List R → Buffer V → Buffer V
  | [], buffer => buffer
  | entity :: rows, buffer => fillColumn col (row + 1) rows (writeToParamBuffer col entity row buffer)

/-- What a batch adds up for each `execute`: the rows it bound, or what the backend reported. -/
inductive RowTally where
  | boundRows
  | affectedRows
  deriving DecidableEq, Repr

namespace EntityMeta
variable {R : Type u} {V : Type v} {E : Type w} (b : Backend V E) (m : EntityMeta R V)

open Conn

/-- The widest value of a column, at least 1. Columns of fixed width are not scanned. -/
def maxSize (rows : List R) (i : m.Index) : ℕ :=
  if (m.col i).bufferType.isVar then rows.foldl (fun n row => max n ((m.col i).getStringSize row)) 1
  else 1

def fillWriter (cols : List m.Index) (rows : List R) (writer : List (Buffer V)) : List (Buffer V) :=
  List.zipWith (fun i buffer => fillColumn (m.col i) 0 rows buffer) cols writer

def extractRow (cols : List m.Index) (row : R) : Params V := cols.map fun i => (m.col i).member row

/-- The rows `start`, …, `start + count - 1`. -/
def chunkRows (rows : List R) (start count : ℕ) : List R := (rows.drop start).take count

/-- `connection::execute_update`. -/
def executeUpdate (sql : Text) (values : Params V) : Run V E ℕ := do
  acquireStatement b sql
  bindParams b values
  execute b
  affectedRows b

def updateSingleRow (setCols whereCols : List m.Index) (entity : R) : Run V E ℕ := do
  encode b
  let values := m.extractRow (setCols ++ whereCols) entity
  let sql ← Action.lift (m.updateStatement b.dialect setCols whereCols)
  executeUpdate b sql values

def deleteSingleRow (whereCols : List m.Index) (entity : R) : Run V E ℕ := do
  let sql ← Action.lift (m.deleteStatement b.dialect whereCols)
  encode b
  executeUpdate b sql (m.extractRow whereCols entity)

/-- The loop of the rowwise channels. `bind` gives a chunk to the statement. -/
def rowwise (sql : Text) (cols : List m.Index) (rows : List R) (batchSize : ℕ+)
    (bind : List (Params V) → ℕ → Run V E Unit) : Run V E ℕ := do
  acquireStatement b sql
  Action.sweep rows.length batchSize (fun start count => do
    encode b
    bind ((chunkRows rows start count).map (m.extractRow cols)) count
    execute b
    affectedRows b) 0 0

def updateRowwise (setCols whereCols : List m.Index) (rows : List R) (batchSize : ℕ+) :
    Run V E ℕ := do
  let sql ← Action.lift (m.updateStatement b.dialect setCols whereCols)
  m.rowwise b sql (setCols ++ whereCols) rows batchSize fun batch count => do
    setParamsetSize b count
    bindBatchParams b batch

/-- The only rowwise channel that binds before it sets the number of parameter sets. -/
def insertRowwise (rows : List R) (batchSize : ℕ+) : Run V E ℕ := do
  let sql ← Action.lift (m.buildInsertSql b.dialect)
  m.rowwise b sql m.allColumns rows batchSize fun batch count => do
    bindBatchParams b batch
    setParamsetSize b count

def deleteRowwise (whereCols : List m.Index) (rows : List R) (batchSize : ℕ+) : Run V E ℕ := do
  let sql ← Action.lift (m.deleteStatement b.dialect whereCols)
  m.rowwise b sql whereCols rows batchSize fun batch count => do
    setParamsetSize b count
    bindBatchParams b batch

/-- What an execution of `count` sets adds to the total. -/
def tallied (tally : RowTally) (count : ℕ) : Run V E ℕ :=
  match tally with
  | .boundRows => pure count
  | .affectedRows => affectedRows b

/-- A chunk goes into the buffers of the writer. -/
def fill (cols : List m.Index) (rows : List R) : Run V E Unit :=
  onStatement b fun s => { s with writer := m.fillWriter cols rows s.writer }

/-- The number of parameter sets is set again only when it changes. -/
def resizeParamset (firstCount count : ℕ) : Run V E Unit :=
  if count ≠ firstCount then setParamsetSize b count else pure ()

def addColumns (rows : List R) (allocCount : ℕ) : List m.Index → Run V E Unit
  | [] => pure ()
  | i :: cols => do
    addColumn b allocCount (elementSizeFor (m.col i).bufferType (m.maxSize rows i))
    addColumns rows allocCount cols

/-- The buffers are filled with the first chunk before they are bound; they stay bound for the whole
sweep. -/
def bindWriter (sql : Text) (cols : List m.Index) (rows : List R) (firstCount : ℕ) :
    Run V E Unit := do
  acquireStatement b sql
  -- the scan for the widest values
  encode b
  prepareBatch b
  m.addColumns b rows firstCount cols
  m.fill b cols (chunkRows rows 0 firstCount)
  finish b
  setParamsetSize b firstCount

def columnarBatchWrite (sql : Text) (cols : List m.Index) (rows : List R) (batchSize : ℕ+)
    (tally : RowTally) : Run V E ℕ :=
  if rows.length = 0 then pure 0 else do
    let firstCount := min (batchSize : ℕ) rows.length
    m.bindWriter b sql cols rows firstCount
    execute b
    let written ← tallied b tally firstCount
    Action.sweep rows.length batchSize (fun start count => do
      m.fill b cols (chunkRows rows start count)
      resizeParamset b firstCount count
      execute b
      tallied b tally count) batchSize written

def defaultParamsetSize : ℕ+ := 1000

def chunkOf (batchSize : ℕ) : ℕ+ := if h : 0 < batchSize then ⟨batchSize, h⟩ else defaultParamsetSize

def writeChunk (caps : Capabilities) (chunk : ℕ+) : ℕ+ :=
  if caps.arrayRowcountTotals then chunk else 1

def inBatch (body : Run V E ℕ) : Run V E ℕ := do
  beginBatch
  Action.closing (do
    let written ← body
    commitBatch b
    pure written) endBatch

def insertImpl (rows : List R) (batchSize : ℕ) : Run V E ℕ :=
  if rows.length = 0 then pure 0
  else
    let chunk := chunkOf batchSize
    inBatch b <|
      if b.caps.columnarBatch then do
        let sql ← Action.lift (m.buildInsertSql b.dialect)
        m.columnarBatchWrite b sql m.allColumns rows chunk .boundRows
      else m.insertRowwise b rows chunk

def updateSingleImpl (entity : R) (whereFields : Option (List Text)) : Run V E ℕ := do
  let whereCols ← Action.lift (m.resolveWhere whereFields "update")
  let setCols := m.setColumnsOf whereCols
  if setCols = [] then Action.throw .noColumnsToSet
  else m.updateSingleRow b setCols whereCols entity

def updateBatchImpl (rows : List R) (whereFields : Option (List Text)) (batchSize : ℕ) :
    Run V E ℕ :=
  if rows.length = 0 then pure 0
  else do
    let whereCols ← Action.lift (m.resolveWhere whereFields "update")
    let setCols := m.setColumnsOf whereCols
    if setCols = [] then Action.throw .noColumnsToSet
    else
      let chunk := writeChunk b.caps (chunkOf batchSize)
      inBatch b <|
        if b.caps.columnarBatch then do
          let sql ← Action.lift (m.updateStatement b.dialect setCols whereCols)
          m.columnarBatchWrite b sql (setCols ++ whereCols) rows chunk .affectedRows
        else m.updateRowwise b setCols whereCols rows chunk

def deleteSingleImpl (entity : R) (whereFields : Option (List Text)) : Run V E ℕ := do
  let whereCols ← Action.lift (m.resolveWhere whereFields "remove")
  m.deleteSingleRow b whereCols entity

def deleteBatchImpl (rows : List R) (whereFields : Option (List Text)) (batchSize : ℕ) :
    Run V E ℕ :=
  if rows.length = 0 then pure 0
  else do
    let whereCols ← Action.lift (m.resolveWhere whereFields "remove")
    let chunk := writeChunk b.caps (chunkOf batchSize)
    inBatch b <|
      if b.caps.columnarBatch then do
        let sql ← Action.lift (m.deleteStatement b.dialect whereCols)
        m.columnarBatchWrite b sql whereCols rows chunk .affectedRows
      else m.deleteRowwise b whereCols rows chunk

end EntityMeta

end Uniorm.Orm
