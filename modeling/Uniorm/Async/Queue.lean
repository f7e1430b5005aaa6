import Mathlib.Data.Nat.Notation
import Mathlib.Tactic.TypeStar

/-! # The operation queue of a session

The data `operation_queue::mutex_` protects and what each stretch of code under the mutex does to
it. Where the mutex is taken and dropped is the machine's business.
-/
namespace Uniorm.Async

/-- `waiting_`, `in_flight_`, `draining_` and `limit_`. -/
structure Queue (S : Type*) where
  waiting : List S
  inFlight : Bool
  draining : Bool
  limit : ℕ

namespace Queue
variable {S : Type*} (q : Queue S)

/-- The queue of a new session, with `default_submit_limit`. -/
def new : Queue S := ⟨[], false, false, 1024⟩

@[simp] def submitLimit (count : ℕ) : Queue S := { q with limit := if count = 0 then 1 else count }

/-- Requests queued plus the one running. -/
def pending : ℕ := q.waiting.length + q.inFlight.toNat

/-- What `wait_idle` waits for. -/
def idle : Bool := q.waiting.isEmpty && !q.inFlight

/-- The check of `push`: a push that finds this throws `submit_overflow`. -/
def full : Bool := decide (q.limit ≤ q.pending)

/-- `push_back` in `push`. -/
@[simp] def append (start : S) : Queue S := { q with waiting := q.waiting ++ [start] }

/-- `push` walks the queue itself unless something runs or someone walks already. -/
def walks : Bool := !q.inFlight && !q.draining

/-- `drain` up to its first test of `waiting_`. -/
@[simp] def enter : Queue S := { q with draining := true }

/-- `drain` takes the first request out, given what is left behind it. -/
@[simp] def next (rest : List S) : Queue S := { q with waiting := rest, inFlight := true }

/-- `drain` on its way out. -/
@[simp] def leave : Queue S := { q with draining := false }

/-- The turn is over: in `finish`, and in `drain` when a starter threw. -/
@[simp] def free : Queue S := { q with inFlight := false }

theorem idle_iff : q.idle = true ↔ q.waiting = [] ∧ q.inFlight = false := by
  simp [idle]

end Queue

end Uniorm.Async
