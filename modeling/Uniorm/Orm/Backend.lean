import Mathlib.Algebra.BigOperators.Group.List.Basic
import Uniorm.Foundation.Action
import Uniorm.Connection.Session
import Uniorm.Orm.Mapping

/-! # The backend under the writes

What the writes do with a connection: statements, parameter sets bound row by row or in column
buffers, executions and the transaction of a sweep. The calls are numbered, and each of them may
throw, except `rollback` and `set_autocommit`. How many rows a write affects depends on the writes
before it.
-/
namespace Uniorm.Orm

open Foundation Sql Builder
open Connection (Link Transaction Work beginTransaction)

universe u v w

structure Capabilities where
  columnarBatch : Bool
  arrayRowcountTotals : Bool
  deriving DecidableEq, Repr

/-- The values of one execution of a statement, `none` for NULL. -/
abbrev Params (V : Type v) : Type v := List (Option V)

/-- A statement and the values it is executed with. -/
structure Write (V : Type v) where
  sql : Text
  values : Params V
  deriving DecidableEq

structure Backend (V : Type v) (E : Type w) where
  caps : Capabilities
  dialect : Dialect
  /-- What the call of a number throws. -/
  fails : ℕ → Option E
  /-- How many parameter sets an `execute` that throws has done before. -/
  partway : ℕ → ℕ
  /-- Whether a commit that fails ends the transaction. -/
  aborts : ℕ → Bool
  /-- The rows a write affects after the writes before it. -/
  affected : List (Write V) → Write V → ℕ
  /-- `affected_rows` after the `execute` of a number, given the rows each set affected. -/
  report : ℕ → List ℕ → ℕ
  /-- What a buffer holds before anything is written into it. -/
  blank : V

namespace Backend
variable {V : Type v} {E : Type w} (b : Backend V E)

def counts (history : List (Write V)) : List (Write V) → List ℕ
  | [] => []
  | x :: xs => b.affected history x :: counts (history ++ [x]) xs

theorem counts_append (history xs ys : List (Write V)) :
    b.counts history (xs ++ ys) = b.counts history xs ++ b.counts (history ++ xs) ys := by
  induction xs generalizing history with
  | nil => simp [counts]
  | cons x xs ih => simp [counts, ih]

@[simp] theorem length_counts (history xs : List (Write V)) :
    (b.counts history xs).length = xs.length := by
  induction xs generalizing history with
  | nil => rfl
  | cons x xs ih => simp [counts, ih]

/-- The capability contract: the count of an array of sets is that of the whole array, or, without
`array_rowcount_totals`, may be that of one set. -/
structure Honours : Prop where
  totals : b.caps.arrayRowcountTotals = true → ∀ n cs, b.report n cs = cs.sum
  single : ∀ n cs, b.report n cs = cs.sum ∨ b.report n cs ∈ cs

/-- One set is counted as it is. -/
theorem Honours.one {b : Backend V E} (h : b.Honours) (n c : ℕ) : b.report n [c] = c := by
  rcases h.single n [c] with hsum | hmem
  · simpa using hsum
  · exact List.mem_singleton.mp hmem

end Backend

/-- One place of a column buffer: its bytes and its indicator. -/
structure Slot (V : Type v) where
  data : V
  isNull : Bool

/-- A column buffer of a `batch_writer`. `overrun` records a value that did not stay in its place. -/
structure Buffer (V : Type v) where
  elementSize : ℕ
  count : ℕ
  slots : ℕ → Slot V
  overrun : Bool

def Slot.value {V : Type v} (s : Slot V) : Option V := if s.isNull then none else some s.data

/-- What an `execute` takes its parameters from. -/
inductive Bound (V : Type v) where
  | nothing
  | values (values : Params V)
  | batch (rows : List (Params V))
  | writer

structure Statement (V : Type v) where
  sql : Text
  paramset : ℕ
  bound : Bound V
  writer : List (Buffer V)
  /-- The rows that the sets of the last `execute` affected. -/
  done : List ℕ

/-- The parameter sets of an `execute`. The buffers of a writer are read as they are then. -/
def Statement.sets {V : Type v} (s : Statement V) : List (Params V) :=
  match s.bound with
  | .nothing => []
  | .values values => [values]
  | .batch rows => rows.take s.paramset
  | .writer => (List.range s.paramset).map fun r => s.writer.map fun buffer => (buffer.slots r).value

/-- Whether the buffers read by an `execute` hold what was written into them. -/
def Statement.intact {V : Type v} (s : Statement V) : Bool :=
  match s.bound with
  | .writer => s.writer.all fun buffer => !buffer.overrun
  | _ => true

/-- An `execute` and the parameter sets it was given. -/
structure Sent (V : Type v) where
  sql : Text
  sets : List (Params V)
  intact : Bool

/-- The calls that end a transaction or change the commit mode. -/
inductive ScopeCall where
  | begin
  | commit
  | rollback
  deriving DecidableEq, Repr

/-- A connection with the statement in use and the transaction of the sweep. `writes` are the
writes the server has done, and the i-th of them is the work `lease i`. -/
structure Conn (V : Type v) where
  link : Link
  writes : List (Write V)
  calls : ℕ
  stmt : Statement V
  sent : List (Sent V)
  txn : Option Transaction
  scope : List ScopeCall

namespace Conn
variable {V : Type v} {E : Type w} (b : Backend V E)

abbrev Run (V : Type v) (E : Type w) (α : Type) : Type (max v w) :=
  Action (Conn V) (WriteError E) α

def call (effect : Conn V → Conn V) : Run V E Unit := fun c =>
  match b.fails c.calls with
  | some e => (.error (.backend e), { c with calls := c.calls + 1 })
  | none => (.ok (), effect { c with calls := c.calls + 1 })

def serveOne (c : Conn V) (values : Params V) : Conn V :=
  { c with
    link := c.link.runStatement (.lease c.writes.length)
    writes := c.writes ++ [⟨c.stmt.sql, values⟩] }

def serve (c : Conn V) (sets : List (Params V)) : Conn V := sets.foldl serveOne c

def onStatement (f : Statement V → Statement V) : Run V E Unit :=
  call b fun c => { c with stmt := f c.stmt }

def acquireStatement (sql : Text) : Run V E Unit := onStatement b fun _ => ⟨sql, 1, .nothing, [], []⟩

def setParamsetSize (size : ℕ) : Run V E Unit := onStatement b fun s => { s with paramset := size }

def bindParams (values : Params V) : Run V E Unit :=
  onStatement b fun s => { s with bound := .values values }

def bindBatchParams (rows : List (Params V)) : Run V E Unit :=
  onStatement b fun s => { s with bound := .batch rows }

def prepareBatch : Run V E Unit := onStatement b fun s => { s with writer := [] }

def addColumn (count elementSize : ℕ) : Run V E Unit :=
  onStatement b fun s =>
    { s with writer := s.writer ++ [⟨elementSize, count, fun _ => ⟨b.blank, false⟩, false⟩] }

/-- `batch_writer_iface::finish`. -/
def finish : Run V E Unit := onStatement b fun s => { s with bound := .writer }

/-- The values of a chunk are read through the converters of their members. -/
def encode : Run V E Unit := onStatement b id

def execute : Run V E Unit := fun c =>
  let sets := c.stmt.sets
  let c' : Conn V :=
    { c with calls := c.calls + 1, sent := c.sent ++ [⟨c.stmt.sql, sets, c.stmt.intact⟩] }
  match b.fails c.calls with
  | some e => (.error (.backend e), c'.serve (sets.take (b.partway c.calls)))
  | none =>
    let done := b.counts c.writes (sets.map (Write.mk c.stmt.sql))
    (.ok (), { c'.serve sets with stmt := { c.stmt with done := done } })

def affectedRows : Run V E ℕ := do
  onStatement b id
  Action.read fun c => b.report c.calls c.stmt.done

def autocommit (c : Conn V) : Bool := c.link.session.autocommit

def beginBatch : Run V E Unit :=
  Action.update (fun c =>
    if c.autocommit then
      let r := beginTransaction none c.link
      { c with link := r.1, txn := r.2, scope := c.scope ++ [.begin] }
    else { c with txn := none }) ()

/-- `txn->commit()`. A commit that fails does not commit. -/
def commitBatch : Run V E Unit := fun c =>
  match c.txn with
  | none => (.ok (), c)
  | some tx =>
    let r := tx.commit ((b.fails c.calls).map fun _ => if b.aborts c.calls then .aborted else .refused)
      none c.link
    let c' := { c with link := r.1, txn := some r.2, scope := c.scope ++ [.commit],
                       calls := c.calls + 1 }
    match b.fails c.calls with
    | some e => (.error (.backend e), c')
    | none => (.ok (), c')

/-- The destructor of the transaction. -/
def endBatch (c : Conn V) : Conn V :=
  match c.txn with
  | none => c
  | some tx =>
    if tx.active then
      let r := tx.rollback none none c.link
      { c with link := r.1, txn := none, scope := c.scope ++ [.rollback] }
    else { c with txn := none }

end Conn

end Uniorm.Orm
