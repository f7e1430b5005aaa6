import Uniorm.Async.Queue

/-! # Tasks and their cores

One `operation_core` for each task: how it is driven, where its body is, what it holds and who
holds it. The exceptions a body or an executor throws are an arbitrary type `E`, the values a body
returns an arbitrary type `V`.
-/
namespace Uniorm.Async

/-- `task_drive`. -/
inductive Drive where
  | idle
  | blocked
  | detached
  | awaited
  deriving DecidableEq

/-- Who made a task. A session binds the tasks it makes to its queue and to the executors it was
told of, and runs a synchronous call in them, which answers a callback in the callback face. A task
no session made runs either such a call or a coroutine of the caller's. -/
inductive Kind where
  | session (runOn resumeOn : Bool)
  | callback (runOn resumeOn : Bool)
  | plain
  | coroutine
  deriving DecidableEq

namespace Kind

/-- `core.queue` is set. -/
def bound : Kind → Bool
  | session .. => true
  | callback .. => true
  | plain => false
  | coroutine => false

/-- `core.run_on` is set. -/
def runOn : Kind → Bool
  | session r _ => r
  | callback r _ => r
  | plain => false
  | coroutine => false

/-- `core.resume_on` is set. -/
def resumeOn : Kind → Bool
  | session _ r => r
  | callback _ r => r
  | plain => false
  | coroutine => false

/-- The body is `answered`. -/
def answers : Kind → Bool
  | callback .. => true
  | session .. => false
  | plain => false
  | coroutine => false

end Kind

/-- What a task can fail with: the two errors this layer raises, and whatever a body, an executor's
`submit` or the lookup of the default executor threw. -/
inductive Failure (E : Type*) where
  | submitOverflow
  | drivenTwice
  | raised (error : E)

/-- What `take` gives: the failure, or the value where the task has one. -/
abbrev Result (V E : Type*) := Except (Failure E) (Option V)

/-- `on_failure`: empty, holding the caller's handler, or moved from by `deliver_failure`. -/
inductive Handler where
  | empty
  | held
  | moved
  deriving DecidableEq

/-- The task object: with its owner, inside one of its own member functions, or destroyed. -/
inductive Holder where
  | held
  | calling
  | gone
  deriving DecidableEq

/-- An `operation_core` with its task object, the `callback_guard` of the callback face and the
number of `shared_ptr`s to it; of its coroutine frame, whether that has left its initial suspension.
The last six fields are its history: when it was driven, what came
of the operation, what its driver was told, what `on_failure` and `on_done` were called with, and
how often its turn was given back. -/
structure Core (O V E : Type*) where
  begun : Bool
  value : Option V
  failure : Option (Failure E)
  finished : Bool
  continuation : Option O
  onFailure : Handler
  driven : Drive
  settled : Bool
  task : Holder
  refs : ℕ
  since : ℕ
  outcomes : List (Result V E)
  answers : List (Result V E)
  reports : List (Failure E)
  visits : List (Except (Failure E) V)
  turns : ℕ

namespace Core
variable {O V E : Type*} (c : Core O V E)

/-- A task just made. -/
def new : Core O V E where
  begun := false
  value := none
  failure := none
  finished := false
  continuation := none
  onFailure := .empty
  driven := .idle
  settled := false
  task := .held
  refs := 1
  since := 0
  outcomes := []
  answers := []
  reports := []
  visits := []
  turns := 0

/-- `claim`, of a core it is idle in, at a time. -/
@[simp] def claim (mode : Drive) (time : ℕ) : Core O V E := { c with driven := mode, since := time }

@[simp] def unclaim : Core O V E := { c with driven := .idle }

/-- What `take` returns or throws. -/
def result : Result V E :=
  match c.failure with
  | some f => .error f
  | none => .ok c.value

/-- `take`, and that the driver has been told. A failure is rethrown without touching the value. -/
@[simp] def take : Core O V E :=
  { c with
    value := match c.failure with
      | some _ => c.value
      | none => none
    answers := c.answers ++ [c.result] }

/-- The body returned, `return_value` and all. -/
@[simp] def returned (v : Option V) : Core O V E :=
  { c with value := v, outcomes := c.outcomes ++ [.ok v] }

/-- The operation failed: the body threw, `unhandled_exception`, or the executor did,
`fail_before_start`. -/
@[simp] def fail (e : E) : Core O V E :=
  { c with failure := some (.raised e), outcomes := c.outcomes ++ [.error (.raised e)] }

/-- `callback_guard::settle` up to the call of `on_done`. -/
@[simp] def settle (r : Except (Failure E) V) : Core O V E :=
  { c with settled := true, visits := c.visits ++ [r] }

/-- `deliver_failure` has a handler to call. -/
def due : Bool := c.onFailure == .held && c.failure.isSome

/-- `deliver_failure` up to the call of the handler, which is moved out either way. -/
@[simp] def deliverFailure : Core O V E :=
  { c with
    onFailure := if c.onFailure = .held then .moved else c.onFailure
    answers := c.answers ++ [c.result]
    reports := if c.due then c.reports ++ c.failure.toList else c.reports }

/-- One more `shared_ptr`. -/
@[simp] def retain : Core O V E := { c with refs := c.refs + 1 }

/-- One `shared_ptr` fewer. -/
@[simp] def release : Core O V E := { c with refs := c.refs - 1 }

end Core

end Uniorm.Async
