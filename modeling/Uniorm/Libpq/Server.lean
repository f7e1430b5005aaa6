import Mathlib.Data.List.Basic
import Mathlib.Tactic.Common

/-! # The server's side of a PostgreSQL session

A session is outside a transaction block, inside one, or inside one that a failure has aborted. A
statement outside a block is durable by itself. `COMMIT` of an aborted block ends it by rolling
back and says so in the command tag only; a `COMMIT` that is refused ends its block as well.
-/
namespace Uniorm.Libpq

universe u

variable {S : Type u}

/-- The transaction block of a session, with the statements done in it. -/
inductive Block (S : Type u) where
  | idle
  | active (work : List S)
  | aborted (work : List S)

/-- `PQTRANS_IDLE`. -/
def Block.isIdle : Block S → Bool
  | idle => true
  | active _ => false
  | aborted _ => false

/-- `PQTRANS_INERROR`. -/
def Block.isAborted : Block S → Bool
  | idle => false
  | active _ => false
  | aborted _ => true

structure Server (S : Type u) where
  block : Block S
  durable : List S

inductive Tag where
  | begin
  | commit
  | rollback
  | other
  deriving DecidableEq, Repr

/-- A result: its status, and the command tag where it has one. -/
inductive Answer where
  | commandOk (tag : Tag)
  | tuplesOk
  | emptyQuery
  | fatalError
  deriving DecidableEq, Repr

/-- What becomes of a statement that is not refused for standing in an aborted block: it is done and
answered so, done and answered in a way the client does not take for success, or refused. -/
inductive Reply where
  | command
  | tuples
  | empty
  | refused
  deriving DecidableEq, Repr

namespace Server
variable (srv : Server S)

def work (stmt : S) : Server S :=
  match srv.block with
  | .idle => { srv with durable := srv.durable ++ [stmt] }
  | .active w => { srv with block := .active (w ++ [stmt]) }
  | .aborted _ => srv

def refuse : Server S :=
  match srv.block with
  | .active w => { srv with block := .aborted w }
  | _ => srv

def exec (stmt : S) (reply : Reply) : Server S × Answer :=
  if srv.block.isAborted then (srv, .fatalError)
  else match reply with
    | .command => (srv.work stmt, .commandOk .other)
    | .tuples => (srv.work stmt, .tuplesOk)
    | .empty => (srv, .emptyQuery)
    | .refused => (srv.refuse, .fatalError)

/-- A command that touches no data: `PREPARE`, its description, `DEALLOCATE`. -/
def utility (fails : Bool) : Server S × Answer :=
  if srv.block.isAborted then (srv, .fatalError)
  else if fails then (srv.refuse, .fatalError) else (srv, .commandOk .other)

/-- `BEGIN`, which warns where a block is open. -/
def begin (fails : Bool) : Server S × Answer :=
  if fails then (srv, .fatalError)
  else match srv.block with
    | .idle => ({ srv with block := .active [] }, .commandOk .begin)
    | .active _ => (srv, .commandOk .begin)
    | .aborted _ => (srv, .fatalError)

/-- `COMMIT`, which warns where no block is open. Only an active block can be refused. -/
def commit (fails : Bool) : Server S × Answer :=
  match srv.block with
  | .idle => (srv, .commandOk .commit)
  | .active w =>
    if fails then ({ srv with block := .idle }, .fatalError)
    else (⟨.idle, srv.durable ++ w⟩, .commandOk .commit)
  | .aborted _ => ({ srv with block := .idle }, .commandOk .rollback)

/-- `ROLLBACK`, which warns where no block is open. -/
def rollback : Server S × Answer := ({ srv with block := .idle }, .commandOk .rollback)

end Server

end Uniorm.Libpq
