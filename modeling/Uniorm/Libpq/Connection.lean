import Uniorm.Libpq.Server

/-! # The libpq connection

`libpq::connection` and the part of `pq_statement` that talks to the server, over an open session:
the commit mode, the flag that mirrors the server's transaction block, and what each call sends.
A call returns or throws; what it has done by then stays.
-/
namespace Uniorm.Libpq

universe u

variable {S : Type u}

/-- A connection with its server. The last three fields are history: the statements that returned
since the last boundary of a transaction, the number of durable statements at that boundary, and the
caller's statements that ran outside a block with autocommit off. -/
structure Session (S : Type u) where
  autocommit : Bool
  transactionOpen : Bool
  server : Server S
  since : List S
  base : ℕ
  loose : List S

/-- `throw_if_failed`, given the accepted answers to a command. -/
def commandOk : Answer → Bool
  | .commandOk _ => true
  | _ => false

def statementOk : Answer → Bool
  | .commandOk _ => true
  | .tuplesOk => true
  | _ => false

/-- What the server says to the commands of `make_ready`. -/
structure Remake where
  dropFails : Bool
  prepareFails : Bool
  describeFails : Bool

/-- One row of an `execute`: the statement, what happens when its parse is found lost and made
again, and what becomes of it. -/
structure Turn (S : Type u) where
  stmt : S
  remake : Option Remake
  reply : Reply

/-- What a caller asks of a connection and its statements, with the server's choices. `scopeCommit`
is `transaction::commit`, given whether the scope is to switch autocommit back on. -/
inductive Call (S : Type u) where
  | setAutocommit (enabled : Bool) (commitFails : Bool)
  | prepare (again : Bool) (remake : Remake)
  | deallocate (fails : Bool)
  | execute (beginFails : Bool) (turns : List (Turn S))
  | commit (fails : Bool)
  | rollback
  | scopeCommit (owns : Bool) (fails : Bool)

namespace Session
variable (s : Session S)

/-- A session that `connect` has taken on. -/
def fresh : Session S := ⟨true, false, ⟨.idle, []⟩, [], 0, []⟩

def boundary (server : Server S) (isOpen : Bool) : Session S :=
  { s with
    transactionOpen := isOpen, server := server, since := [], base := server.durable.length }

def openTransaction (fails : Bool) : Session S × Bool :=
  if s.autocommit || s.transactionOpen then (s, true)
  else
    let r := s.server.begin fails
    if commandOk r.2 then (s.boundary r.1 true, true) else ({ s with server := r.1 }, false)

/-- A `COMMIT` that is answered with an error leaves the flag as it was. -/
def commit (fails : Bool) : Session S × Bool :=
  if s.transactionOpen then
    let r := s.server.commit fails
    (s.boundary r.1 (!commandOk r.2), commandOk r.2)
  else (s, true)

def rollback : Session S × Bool :=
  if s.transactionOpen then
    let r := s.server.rollback
    (s.boundary r.1 (!commandOk r.2), commandOk r.2)
  else if s.server.block.isAborted then
    let r := s.server.rollback
    (s.boundary r.1 false, commandOk r.2)
  else (s, true)

def setAutocommit (enabled commitFails : Bool) : Session S × Bool :=
  if enabled && !s.autocommit then
    let r := s.commit commitFails
    if r.2 then ({ r.1 with autocommit := enabled }, true) else r
  else ({ s with autocommit := enabled }, true)

/-- A command whose answer is not looked at, or is left to the caller. -/
def utility (fails : Bool) : Session S × Answer :=
  ({ s with server := (s.server.utility fails).1 }, (s.server.utility fails).2)

/-- The `DEALLOCATE` of a name the server was told of before. -/
def dropParse (again fails : Bool) : Session S := if again then (s.utility fails).1 else s

def makeReady (again : Bool) (r : Remake) : Session S × Bool :=
  let made := (s.dropParse again r.dropFails).utility r.prepareFails
  if commandOk made.2 then
    let described := made.1.utility r.describeFails
    (described.1, commandOk described.2)
  else (made.1, false)

/-- `run`: a statement of the caller's goes to the server. -/
def send (stmt : S) (reply : Reply) : Session S × Answer :=
  let r := s.server.exec stmt reply
  ({ s with
    server := r.1
    loose := if !s.autocommit && s.server.block.isIdle then s.loose ++ [stmt] else s.loose }, r.2)

/-- `run_ready`, and the check of its answer. -/
def runReady (t : Turn S) : Session S × Bool :=
  match t.remake with
  | none => ((s.send t.stmt t.reply).1, statementOk (s.send t.stmt t.reply).2)
  | some remake =>
    -- the server holds no such parse: it is made again and the statement sent once more
    let made := (s.utility true).1.makeReady true remake
    if made.2 then
      ((made.1.send t.stmt t.reply).1, statementOk (made.1.send t.stmt t.reply).2)
    else made

/-- `run_batch`; a statement that is not a batch is one row. -/
def runTurns : Session S → List (Turn S) → Session S × Bool
  | s, [] => (s, true)
  | s, t :: ts => if (s.runReady t).2 then runTurns (s.runReady t).1 ts else s.runReady t

def execute (beginFails : Bool) (turns : List (Turn S)) : Session S × Bool :=
  let opened := s.openTransaction beginFails
  if opened.2 then
    let r := opened.1.runTurns turns
    if r.2 then ({ r.1 with since := r.1.since ++ turns.map (·.stmt) }, true) else r
  else opened

/-- `transaction::commit` of an active scope. -/
def scopeCommit (owns fails : Bool) : Session S × Bool :=
  let r := s.commit fails
  if r.2 && owns then r.1.setAutocommit true fails else r

def call : Call S → Session S × Bool
  | .setAutocommit enabled commitFails => s.setAutocommit enabled commitFails
  | .prepare again remake => s.makeReady again remake
  | .deallocate fails => ((s.utility fails).1, true)
  | .execute beginFails turns => s.execute beginFails turns
  | .commit fails => s.commit fails
  | .rollback => s.rollback
  | .scopeCommit owns fails => s.scopeCommit owns fails

end Session

end Uniorm.Libpq
