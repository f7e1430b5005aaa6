import Uniorm.Foundation.Threads
import Uniorm.Async.Operation

/-! # Threads, queue and executors

The calls of the asynchronous face as frames on the stacks of the threads: the drive actions, the
queue's `push`, `drain`, `finish` and `wait_idle` with the mutex taken and dropped where the code
does, the hand-off to an executor, the body, and the delivery of its result. An executor runs what
it is given on the spot, runs it later on any thread, or throws from `submit`, decided
anew each time. Code of the caller's runs at the bottom of a stack, in callbacks, in handlers and in
the caller's own coroutines, and may there use the session as it likes or pump an executor.
-/
namespace Uniorm.Async

open Foundation

/-- The closure `launch` gives to the queue: the operation, and whether the drive action named an
executor. -/
structure Starter (O : Type*) where
  op : O
  requested : Bool

/-- A call in progress, as far as it still has something to do once the frames above are gone. -/
inductive Frame (O E : Type*) where
  /-- the caller's own code, or a worker between two closures -/
  | base
  /-- a drive action that has claimed its task -/
  | launch (start : Starter O) (mode : Drive)
  /-- `push`, before and with the lock -/
  | push (start : Starter O) (mode : Drive)
  | pushing (start : Starter O) (mode : Drive)
  /-- `launch` with its own `shared_ptr`, once `push` is back -/
  | launched (op : O) (mode : Drive)
  /-- a drive action on its way out with an exception -/
  | refused (op : O) (mode : Drive) (failure : Failure E)
  /-- `drain` at the head of its loop, with the lock -/
  | loop
  /-- `drain` without the lock: the starter is about to look its executor up, is running or is
  back, or has thrown -/
  | calling (start : Starter O)
  | starting (start : Starter O)
  | threw (start : Starter O)
  /-- `drain` with the lock again, before and after its starter is destroyed -/
  | relocked (start : Starter O) (thrown : Bool)
  | walked (thrown : Bool)
  /-- `begin`, its executor found -/
  | begin (op : O)
  /-- a `shared_ptr` that goes when the frame goes: in a closure that is being run, in `begin`, or
  in a `push` that threw -/
  | holding (op : O)
  /-- the body, and `on_done` called from it -/
  | running (op : O)
  | callback (op : O)
  /-- the end of the operation, by the final awaiter or by `fail_before_start` -/
  | final (op : O) (refused : Bool)
  /-- `finish`, called from there, before and with the lock -/
  | finish (op : O) (refused : Bool)
  | finishing (op : O) (refused : Bool)
  /-- what is left to do at the end of the operation once `finish` is back -/
  | deliver (op : O) (refused : Bool)
  /-- `on_failure` of the caller's -/
  | handler (op : O)
  /-- a continuation about to be resumed -/
  | resume (op : O)
  /-- a drive action whose `launch` has returned -/
  | driving (op : O) (mode : Drive)
  /-- `wait_idle`, and the rollback of a transaction handle after it -/
  | waitIdle
  | rollback
  /-- `~operation_core` -/
  | destroying (op : O)

namespace Frame
variable {O E : Type*}

/-- Code of the caller's, free to use the session. -/
def isUser (kind : O → Kind) : Frame O E → Bool
  | base => true
  | callback _ => true
  | handler _ => true
  | running op => kind op == .coroutine
  | _ => false

end Frame

def Cores {O V E : Type*} (P : O → Core O V E → Prop) (core : O → Core O V E) : Prop :=
  ∀ op, P op (core op)

/-- It holds after a core was changed if it holds of that one. -/
theorem Cores.update {O V E : Type*} [DecidableEq O] {P : O → Core O V E → Prop}
    {core : O → Core O V E} {op : O} {c : Core O V E} (h : Cores P core) (hop : P op c) :
    Cores P (Function.update core op c) := by
  intro x
  by_cases hx : x = op
  · subst hx
    rw [Function.update_self]
    exact hop
  · rw [Function.update_of_ne hx]
    exact h x

/-- What holds of one core holds after another was changed. -/
theorem Core.of_update {O V E : Type*} [DecidableEq O] {P : Core O V E → Prop}
    {core : O → Core O V E} {op x : O} {c : Core O V E} (h : P (core op)) (hx : x = op → P c) :
    P (Function.update core x c op) := by
  by_cases hop : op = x
  · subst hop
    rw [Function.update_self]
    exact hx rfl
  · rw [Function.update_of_ne hop]
    exact h

/-- A coroutine of the caller's suspended in `co_await`, its awaiter in its frame. -/
structure Await (O : Type*) where
  parent : O
  op : O

/-- What the threads share: the queue with its mutex, the closures the executors hold, which resume
a body or a continuation, the suspended coroutines and the cores. The last four fields are history:
the number of drive actions, the starters accepted and called, and those accepted when `wait_idle`
last returned. -/
structure Shared (O V E : Type*) where
  queue : Queue (Starter O)
  mutex : Bool
  pending : List O
  resuming : List O
  awaiting : List (Await O)
  core : O → Core O V E
  clock : ℕ
  accepted : List (Starter O)
  started : List (Starter O)
  covered : List (Starter O)

namespace Shared
variable {O V E : Type*} [DecidableEq O] (g : Shared O V E)

def modify (op : O) (f : Core O V E → Core O V E) : Shared O V E :=
  { g with core := Function.update g.core op (f (g.core op)) }

@[simp] theorem modify_core_self (op : O) (f : Core O V E → Core O V E) :
    (g.modify op f).core op = f (g.core op) := Function.update_self ..

theorem modify_field {A : Type*} (field : Core O V E → A) (g : Shared O V E) (op x : O)
    (f : Core O V E → Core O V E) :
    field ((g.modify op f).core x) = if op = x then field (f (g.core x)) else field (g.core x) := by
  by_cases h : op = x
  · subst h
    rw [if_pos rfl, modify_core_self]
  · rw [if_neg h]
    exact congrArg field (Function.update_of_ne (Ne.symm h) ..)

variable (op : O) (f : Core O V E → Core O V E)
@[simp] theorem modify_queue : (g.modify op f).queue = g.queue := rfl
@[simp] theorem modify_mutex : (g.modify op f).mutex = g.mutex := rfl
@[simp] theorem modify_pending : (g.modify op f).pending = g.pending := rfl
@[simp] theorem modify_resuming : (g.modify op f).resuming = g.resuming := rfl
@[simp] theorem modify_awaiting : (g.modify op f).awaiting = g.awaiting := rfl
@[simp] theorem modify_clock : (g.modify op f).clock = g.clock := rfl
@[simp] theorem modify_accepted : (g.modify op f).accepted = g.accepted := rfl
@[simp] theorem modify_started : (g.modify op f).started = g.started := rfl
@[simp] theorem modify_covered : (g.modify op f).covered = g.covered := rfl

/-- The destructor that runs when a `shared_ptr` to a core goes, if it was the last. -/
def drops (op : O) : List (Frame O E) :=
  if (g.core op).refs = 1 then [.destroying op] else []

omit [DecidableEq O] in
@[simp] theorem sum_drops (c : Frame O E → ℕ) :
    ((g.drops op).map c).sum = if (g.core op).refs = 1 then c (.destroying op) else 0 := by
  unfold drops
  split <;> simp

omit [DecidableEq O] in
@[simp] theorem mem_drops {x : Frame O E} :
    x ∈ g.drops op ↔ x = .destroying op ∧ (g.core op).refs = 1 := by
  unfold drops
  split <;> simp [*]

omit [DecidableEq O] in
variable {g op} in
theorem mem_of_mem_tail_drops {x : Frame O E} {l : List (Frame O E)}
    (h : x ∈ (g.drops op ++ l).tail) : x ∈ l := by
  unfold drops at h
  split at h
  · exact h
  · exact List.mem_of_mem_tail h

@[simp] def drive (op : O) (mode : Drive) (f : Core O V E → Core O V E) : Shared O V E :=
  { g.modify op (fun c => f (c.claim mode (g.clock + 1))) with clock := g.clock + 1 }

end Shared

/-- What a step is seen as from outside: the caller drives a task, tries to drive one again or does
something else; a push is decided; a turn is given back, by `finish` or by `drain` after a starter
that threw; `drain` lets go of a starter; a wait is over. -/
inductive Event (O : Type*) where
  | drive (op : O) (mode : Drive)
  | redrive (op : O)
  | user
  | accept (start : Starter O)
  | refuse (start : Starter O)
  | finish (op : O)
  | giveUp (op : O)
  | destroyStarter (op : O)
  | waitReturns
  | silent

/-- A step of the calls under way and of the executors, not one the caller decides on. -/
def Event.own {O : Type*} : Event O → Bool
  | drive .. => false
  | redrive _ => false
  | user => false
  | _ => true

section
variable {O V E : Type*} [DecidableEq O] (kind : O → Kind) (live : V → Bool)

/-- One step of the frame on top of a stack. `live v` says that a value is an active transaction
handle. -/
inductive Rule : Frame O E → Shared O V E → Event O → List (Frame O E) → Shared O V E → Prop where
  -- the caller's code
  | block (f : Frame O E) (g : Shared O V E) (op : O) (requested : Bool)
      (user : f.isUser kind = true) (face : (kind op).answers = false)
      (made : (g.core op).task = .held) (undriven : (g.core op).driven = .idle) :
      Rule f g (.drive op .blocked) [.launch ⟨op, requested⟩ .blocked, f]
        (g.drive op .blocked fun c => { c with task := .calling })
  | start (f : Frame O E) (g : Shared O V E) (op : O) (requested : Bool) (handler : Handler)
      (user : f.isUser kind = true) (given : handler ≠ .moved)
      (face : (kind op).answers = true → handler = .held ∧ requested = false)
      (made : (g.core op).task = .held) (undriven : (g.core op).driven = .idle) :
      Rule f g (.drive op .detached) [.launch ⟨op, requested⟩ .detached, f]
        (g.drive op .detached fun c => { c with onFailure := handler, task := .calling })
  | coAwait (g : Shared O V E) (op parent : O) (user : kind parent = .coroutine)
      (face : (kind op).answers = false)
      (made : (g.core op).task = .held) (undriven : (g.core op).driven = .idle) :
      Rule (.running parent) g (.drive op .awaited) [.launch ⟨op, false⟩ .awaited]
        { g.drive op .awaited (fun c => { c.retain with continuation := some parent }) with
          awaiting := ⟨parent, op⟩ :: g.awaiting }
  -- a second `start` replaces the handler before `claim` throws, a second `co_await` the
  -- continuation, and it unclaims the task as well; a second `block` touches nothing
  | startAgain (f : Frame O E) (g : Shared O V E) (op : O) (handler : Handler)
      (user : f.isUser kind = true) (given : handler ≠ .moved) (face : (kind op).answers = false)
      (made : (g.core op).task = .held) (driven : (g.core op).driven ≠ .idle) :
      Rule f g (.redrive op) [f] (g.modify op fun c => { c with onFailure := handler })
  | awaitAgain (g : Shared O V E) (op parent : O) (user : kind parent = .coroutine)
      (face : (kind op).answers = false)
      (made : (g.core op).task = .held) (driven : (g.core op).driven ≠ .idle) :
      Rule (.running parent) g (.redrive op) [.running parent]
        (g.modify op fun c =>
          { c.unclaim with continuation := some parent, failure := some .drivenTwice })
  | dropTask (f : Frame O E) (g : Shared O V E) (op : O) (user : f.isUser kind = true)
      (made : (g.core op).task = .held) :
      Rule f g .user (g.drops op ++ [f]) (g.modify op fun c => { c.release with task := .gone })
  | waitAllOperations (f : Frame O E) (g : Shared O V E) (user : f.isUser kind = true) :
      Rule f g .user [.waitIdle, f] g
  | endTransaction (f : Frame O E) (g : Shared O V E) (user : f.isUser kind = true) :
      Rule f g .user [.waitIdle, .rollback, f] g
  | submitLimit (f : Frame O E) (g : Shared O V E) (count : ℕ) (user : f.isUser kind = true) :
      Rule f g .user [f] { g with queue := g.queue.submitLimit count }
  -- `launch`: through the queue of the session, or straight to `begin`
  | launchBound (g : Shared O V E) (start : Starter O) (mode : Drive)
      (bound : (kind start.op).bound = true) :
      Rule (.launch start mode) g .silent [.push start mode]
        (g.modify start.op fun c => c.retain.retain)
  | launchFree (g : Shared O V E) (start : Starter O) (mode : Drive)
      (free : (kind start.op).bound = false) :
      Rule (.launch start mode) g .silent [.begin start.op, .driving start.op mode] g
  | launchThrows (g : Shared O V E) (start : Starter O) (mode : Drive) (error : E)
      (free : (kind start.op).bound = false) (default : start.requested = false) :
      Rule (.launch start mode) g .silent [.refused start.op mode (.raised error)] g
  -- `push`
  | lockPush (g : Shared O V E) (start : Starter O) (mode : Drive) (unlocked : g.mutex = false) :
      Rule (.push start mode) g .silent [.pushing start mode] { g with mutex := true }
  | overflow (g : Shared O V E) (start : Starter O) (mode : Drive) (full : g.queue.full = true) :
      Rule (.pushing start mode) g (.refuse start)
        [.holding start.op, .holding start.op, .refused start.op mode .submitOverflow]
        { g with mutex := false }
  | queued (g : Shared O V E) (start : Starter O) (mode : Drive) (room : g.queue.full = false)
      (busy : (g.queue.append start).walks = false) :
      Rule (.pushing start mode) g (.accept start) [.launched start.op mode]
        { g with
          queue := g.queue.append start, mutex := false, accepted := g.accepted ++ [start] }
  | queuedWalks (g : Shared O V E) (start : Starter O) (mode : Drive) (room : g.queue.full = false)
      (quiet : (g.queue.append start).walks = true) :
      Rule (.pushing start mode) g (.accept start) [.loop, .launched start.op mode]
        { g with
          queue := (g.queue.append start).enter, accepted := g.accepted ++ [start] }
  | launched (g : Shared O V E) (op : O) (mode : Drive) :
      Rule (.launched op mode) g .silent (g.drops op ++ [.driving op mode])
        (g.modify op Core.release)
  -- the `catch` of `park` and `detach`, and that of `await_suspend`
  | rethrow (g : Shared O V E) (op : O) (mode : Drive) (failure : Failure E)
      (call : mode ≠ .awaited) :
      Rule (.refused op mode failure) g .silent []
        (g.modify op fun c => { c.unclaim with task := .held })
  | failAwait (g : Shared O V E) (op parent : O) (failure : Failure E)
      (before behind : List (Await O)) (parked : (g.core op).continuation = some parent)
      (there : g.awaiting = before ++ ⟨parent, op⟩ :: behind) :
      Rule (.refused op .awaited failure) g .silent (g.drops op ++ [.running parent])
        { g.modify op (fun c => { c.unclaim.release with failure := some failure }) with
          awaiting := before ++ behind }
  -- `drain`
  | next (g : Shared O V E) (start : Starter O) (rest : List (Starter O))
      (waiting : g.queue.waiting = start :: rest) :
      Rule .loop g .silent [.calling start]
        { g with
          queue := g.queue.next rest, mutex := false, started := g.started ++ [start] }
  | drained (g : Shared O V E) (empty : g.queue.waiting = []) :
      Rule .loop g .silent [] { g with queue := g.queue.leave, mutex := false }
  | found (g : Shared O V E) (start : Starter O) :
      Rule (.calling start) g .silent [.begin start.op, .starting start] g
  | lookupThrows (g : Shared O V E) (start : Starter O) (unset : (kind start.op).runOn = false)
      (default : start.requested = false) :
      Rule (.calling start) g .silent [.threw start] g
  | relock (g : Shared O V E) (start : Starter O) (unlocked : g.mutex = false) :
      Rule (.starting start) g .silent [.relocked start false] { g with mutex := true }
  | relockThrown (g : Shared O V E) (start : Starter O) (unlocked : g.mutex = false) :
      Rule (.threw start) g (.giveUp start.op) [.relocked start true]
        { g.modify start.op (fun c => { c with turns := c.turns + 1 }) with
          queue := g.queue.free, mutex := true }
  | destroyStarter (g : Shared O V E) (start : Starter O) (thrown : Bool) :
      Rule (.relocked start thrown) g (.destroyStarter start.op)
        (g.drops start.op ++ [.walked thrown]) (g.modify start.op Core.release)
  | stillRunning (g : Shared O V E) (running : g.queue.inFlight = true) :
      Rule (.walked false) g .silent [] { g with queue := g.queue.leave, mutex := false }
  | walkOn (g : Shared O V E) (thrown : Bool) (done : thrown = true ∨ g.queue.inFlight = false) :
      Rule (.walked thrown) g .silent [.loop] g
  -- `begin`, and the executor
  | submit (g : Shared O V E) (op : O) :
      Rule (.begin op) g .silent []
        { g.modify op Core.retain with pending := g.pending ++ [op] }
  | submitInline (g : Shared O V E) (op : O) (fresh : (g.core op).begun = false) :
      Rule (.begin op) g .silent [.running op, .holding op]
        (g.modify op fun c => { c.retain with begun := true })
  | submitThrows (g : Shared O V E) (op : O) (error : E) :
      Rule (.begin op) g .silent [.final op true, .holding op]
        (g.modify op fun c => (c.fail error).retain)
  | runBody (f : Frame O E) (g : Shared O V E) (op : O) (before behind : List O)
      (free : f.isUser kind = true) (given : g.pending = before ++ op :: behind)
      (fresh : (g.core op).begun = false) :
      Rule f g .silent [.running op, .holding op, f]
        { g.modify op (fun c => { c with begun := true }) with pending := before ++ behind }
  | runContinuation (f : Frame O E) (g : Shared O V E) (op : O) (before behind : List O)
      (free : f.isUser kind = true) (given : g.resuming = before ++ op :: behind) :
      Rule f g .silent [.resume op, .holding op, f]
        { g with resuming := before ++ behind }
  | letGo (g : Shared O V E) (op : O) :
      Rule (.holding op) g .silent (g.drops op) (g.modify op Core.release)
  -- the body
  | returns (g : Shared O V E) (op : O) (value : Option V) (face : (kind op).answers = false) :
      Rule (.running op) g .silent [.final op false] (g.modify op fun c => c.returned value)
  | throws (g : Shared O V E) (op : O) (error : E) (face : (kind op).answers = false) :
      Rule (.running op) g .silent [.final op false] (g.modify op fun c => c.fail error)
  | answered (g : Shared O V E) (op : O) (work : Except E V) (face : (kind op).answers = true)
      (unsettled : (g.core op).settled = false) :
      Rule (.running op) g .silent [.callback op]
        (g.modify op fun c => c.settle (work.mapError Failure.raised))
  | answeredAlready (g : Shared O V E) (op : O) (face : (kind op).answers = true)
      (settled : (g.core op).settled = true) :
      Rule (.running op) g .silent [.final op false] (g.modify op fun c => c.returned none)
  | callbackReturns (g : Shared O V E) (op : O) :
      Rule (.callback op) g .silent [.final op false] (g.modify op fun c => c.returned none)
  | callbackThrows (g : Shared O V E) (op : O) (error : E) :
      Rule (.callback op) g .silent [.final op false] (g.modify op fun c => c.fail error)
  -- the end of the operation: the turn is given back before anything is delivered
  | finalBound (g : Shared O V E) (op : O) (refused : Bool) (bound : (kind op).bound = true) :
      Rule (.final op refused) g .silent [.finish op refused] g
  | finalFree (g : Shared O V E) (op : O) (refused : Bool) (free : (kind op).bound = false) :
      Rule (.final op refused) g .silent [.deliver op refused] g
  | lockFinish (g : Shared O V E) (op : O) (refused : Bool) (unlocked : g.mutex = false) :
      Rule (.finish op refused) g .silent [.finishing op refused] { g with mutex := true }
  | finish (g : Shared O V E) (op : O) (refused : Bool) (walked : g.queue.draining = true) :
      Rule (.finishing op refused) g (.finish op) [.deliver op refused]
        { g.modify op (fun c => { c with turns := c.turns + 1 }) with
          queue := g.queue.free, mutex := false }
  | finishWalks (g : Shared O V E) (op : O) (refused : Bool) (unwalked : g.queue.draining = false) :
      Rule (.finishing op refused) g (.finish op) [.loop, .deliver op refused]
        { g.modify op (fun c => { c with turns := c.turns + 1 }) with
          queue := g.queue.free.enter }
  -- the delivery
  | wake (g : Shared O V E) (op : O) (refused : Bool) (mode : (g.core op).driven = .blocked) :
      Rule (.deliver op refused) g .silent [] (g.modify op fun c => { c with finished := true })
  | report (g : Shared O V E) (op : O) (refused : Bool) (mode : (g.core op).driven = .detached)
      (face : (kind op).answers = false) (due : (g.core op).due = true) :
      Rule (.deliver op refused) g .silent [.handler op] (g.modify op Core.deliverFailure)
  | settleFailure (g : Shared O V E) (op : O) (refused : Bool) (failure : Failure E)
      (mode : (g.core op).driven = .detached) (face : (kind op).answers = true)
      (due : (g.core op).due = true) (failed : (g.core op).failure = some failure)
      (unsettled : (g.core op).settled = false) :
      Rule (.deliver op refused) g .silent [.handler op]
        (g.modify op fun c => c.deliverFailure.settle (.error failure))
  | settledAlready (g : Shared O V E) (op : O) (refused : Bool)
      (mode : (g.core op).driven = .detached) (face : (kind op).answers = true)
      (due : (g.core op).due = true) (settled : (g.core op).settled = true) :
      Rule (.deliver op refused) g .silent [] (g.modify op Core.deliverFailure)
  | nothingToReport (g : Shared O V E) (op : O) (refused : Bool)
      (mode : (g.core op).driven = .detached) (due : (g.core op).due = false) :
      Rule (.deliver op refused) g .silent [] (g.modify op Core.deliverFailure)
  | undriven (g : Shared O V E) (op : O) (refused : Bool) (mode : (g.core op).driven = .idle) :
      Rule (.deliver op refused) g .silent [] g
  -- a continuation: on this thread, or through `hand_over`, which falls back on this thread
  | transfer (g : Shared O V E) (op : O) (refused : Bool) (mode : (g.core op).driven = .awaited) :
      Rule (.deliver op refused) g .silent [.resume op] g
  | handOver (g : Shared O V E) (op : O) (mode : (g.core op).driven = .awaited)
      (named : (kind op).resumeOn = true) :
      Rule (.deliver op false) g .silent []
        { g.modify op Core.retain with resuming := g.resuming ++ [op] }
  | handOverInline (g : Shared O V E) (op : O) (mode : (g.core op).driven = .awaited)
      (named : (kind op).resumeOn = true) :
      Rule (.deliver op false) g .silent [.resume op, .holding op] (g.modify op Core.retain)
  | resume (g : Shared O V E) (op parent : O) (before behind : List (Await O))
      (parked : (g.core op).continuation = some parent)
      (there : g.awaiting = before ++ ⟨parent, op⟩ :: behind) :
      Rule (.resume op) g .silent (g.drops op ++ [.running parent])
        { g.modify op (fun c => c.take.release) with awaiting := before ++ behind }
  | handlerEnds (g : Shared O V E) (op : O) : Rule (.handler op) g .silent [] g
  -- what is left of `park`, `detach` and `await_suspend`
  | unpark (g : Shared O V E) (op : O) (finished : (g.core op).finished = true) :
      Rule (.driving op .blocked) g .silent []
        (g.modify op fun c => { c.take with finished := false, task := .held })
  | detached (g : Shared O V E) (op : O) :
      Rule (.driving op .detached) g .silent [] (g.modify op fun c => { c with task := .held })
  | suspended (g : Shared O V E) (op : O) : Rule (.driving op .awaited) g .silent [] g
  -- `wait_idle`, and destruction
  | waitReturns (g : Shared O V E) (unlocked : g.mutex = false) (idle : g.queue.idle = true) :
      Rule .waitIdle g .waitReturns [] { g with covered := g.accepted }
  | rolledBack (g : Shared O V E) : Rule .rollback g .silent [] g
  | destroyed (g : Shared O V E) (op : O)
      (inactive : ∀ v, (g.core op).value = some v → live v = false) :
      Rule (.destroying op) g .silent [] g
  | destroyTransaction (g : Shared O V E) (op : O) (v : V) (held : (g.core op).value = some v)
      (active : live v = true) :
      Rule (.destroying op) g .silent [.waitIdle, .rollback]
        (g.modify op fun c => { c with value := none })

end

section
variable {T O V E : Type*}

/-- A new session, with its threads at rest and every task of the run made and undriven. -/
def fresh : Conf T (Frame O E) (Shared O V E) where
  stack _ := [.base]
  shared := ⟨.new, false, [], [], [], fun _ => .new, 0, [], [], []⟩

variable [DecidableEq T] [DecidableEq O]

def session (T : Type*) {O V E : Type*} [DecidableEq T] [DecidableEq O] (kind : O → Kind)
    (live : V → Bool) : System (Conf T (Frame O E) (Shared O V E)) (T × Event O) :=
  Machine.system ⟨Rule kind live⟩ (· = fresh)

end

end Uniorm.Async
