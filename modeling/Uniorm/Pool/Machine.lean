import Mathlib.Algebra.BigOperators.Group.Multiset.Basic
import Mathlib.Logic.Function.Basic
import Uniorm.Foundation.Transition

/-! # The connection pool as interleaved steps

Threads run `acquire`, `release` and `run_maintenance` with the mutex taken and
dropped where the code does. A section that is entered and left under one
`lock_guard` is one step that finds the mutex free. Clock readings, failing opens,
failing heartbeats and failing resets are choices of a step. The lock of `acquire`
is a `unique_lock`, so its loop carries whether it is still held.
-/
namespace Uniorm.Pool
open Foundation

/-- Connections are named by the order in which they were opened. -/
abbrev Conn := ℕ

/-- How a call of `acquire` ended. -/
inductive Outcome where
  | lease
  | openError
  | poolTimeout
  | systemError
  | undefined
  deriving DecidableEq, Repr

/-- A `pooled_connection`: without a lease, with one, or in the middle of a move assignment. -/
inductive Handle where
  | empty
  | holds (c : Conn)
  | reserved
  deriving DecidableEq, Repr

/-- Where a thread is. A release that is part of `target = std::move(source)` carries both. -/
inductive PC (H : Type*) where
  | rest
  | acqEnter
  | acqLoop (owns : Bool)
  | acqWaiting
  | acqOpening
  | acqOpenFailed
  | stuck
  | resetting (c : Conn) (assigns : Option (H × H))
  | returning (c : Conn) (reusable : Bool) (assigns : Option (H × H))
  | assigning (target source : H)
  | maintEnter
  | checking (entries : List Conn)
  | verdict (e : Conn) (alive : Bool) (entries : List Conn)

structure State (T H : Type*) where
  mutex : Option T
  idle : List Conn
  underMaintenance : ℕ
  created : ℕ
  pc : T → PC H
  handle : H → Handle
  /-- The number of connections opened so far. -/
  opened : ℕ
  /-- How the calls of `acquire` that ended so far did so. -/
  ended : List Outcome
  /-- Whether `idle` or `created` was touched without the mutex. -/
  raced : Bool

inductive Event (T H : Type*) where
  | call (t : T)
  | lock (t : T)
  | reuse (t : T) (h : H) (c : Conn)
  | popExpired (t : T) (c : Conn)
  | reserve (t : T)
  | opened (t : T) (h : H) (c : Conn)
  | openFails (t : T)
  | undoReserve (t : T)
  | wait (t : T)
  | wake (t : T)
  | timeout (t : T)
  | popUnowned (t : T) (c : Conn) (expired : Bool)
  | reserveUnowned (t : T)
  | waitUnowned (t : T)
  | move (target source : H)
  | destroy (t : T) (h : H) (c : Conn)
  | assign (t : T) (target source : H) (c : Conn)
  | reset (t : T) (c : Conn) (reusable : Bool)
  | release (t : T) (c : Conn) (reusable : Bool)
  | finishAssign (t : T)
  | beginMaintenance (t : T)
  | takeOut (t : T) (evicted : List Conn)
  | heartbeat (t : T) (c : Conn) (alive : Bool)
  | judge (t : T) (c : Conn) (alive : Bool)
  | endMaintenance (t : T)

/-- A `std::size_t` taken down by one. -/
def decr (n : ℕ) : ℕ := if n = 0 then 2 ^ 64 - 1 else n - 1

def PC.afterRelease {H : Type*} : Option (H × H) → PC H
  | none => .rest
  | some (target, source) => .assigning target source

section
variable {T H : Type*} [DecidableEq T] [DecidableEq H]

namespace State

def setPC (s : State T H) (t : T) (p : PC H) : State T H :=
  { s with pc := Function.update s.pc t p }

def setHandle (s : State T H) (h : H) (x : Handle) : State T H :=
  { s with handle := Function.update s.handle h x }

/-- A thread is back from `acquire`. -/
def finish (s : State T H) (t : T) (o : Outcome) : State T H :=
  { s with pc := Function.update s.pc t .rest, ended := o :: s.ended }

omit [DecidableEq H] in
@[simp] theorem setPC_pc_self (s : State T H) (t : T) (p : PC H) : (s.setPC t p).pc t = p :=
  Function.update_self _ _ _

omit [DecidableEq H] in
theorem setPC_pc_of_ne (s : State T H) {t i : T} (h : i ≠ t) (p : PC H) :
    (s.setPC t p).pc i = s.pc i := Function.update_of_ne h _ _

end State

/-- The steps of a pool of `size` connections. -/
inductive Step (size : ℕ) : State T H → Event T H → State T H → Prop where
  | call (s : State T H) (t : T) (hpc : s.pc t = .rest) : Step size s (.call t) (s.setPC t .acqEnter)
  | lock (s : State T H) (t : T) (hpc : s.pc t = .acqEnter) (hfree : s.mutex = none) :
      Step size s (.lock t) { s.setPC t (.acqLoop true) with mutex := some t }
  /-- The last idle entry is still fresh: it is leased. -/
  | reuse (s : State T H) (t : T) (h : H) (rest : List Conn) (c : Conn)
      (hpc : s.pc t = .acqLoop true) (hidle : s.idle = rest ++ [c]) (hh : s.handle h = .empty) :
      Step size s (.reuse t h c)
        { (s.setHandle h (.holds c)).finish t .lease with mutex := none, idle := rest }
  /-- The last idle entry has expired: its slot is given back, the lock dropped and the loop
  continued. -/
  | popExpired (s : State T H) (t : T) (rest : List Conn) (c : Conn)
      (hpc : s.pc t = .acqLoop true) (hidle : s.idle = rest ++ [c]) :
      Step size s (.popExpired t c)
        { s.setPC t (.acqLoop false) with
          mutex := none, idle := rest, created := decr s.created }
  | reserve (s : State T H) (t : T) (hpc : s.pc t = .acqLoop true) (hidle : s.idle = [])
      (hroom : s.created < size) :
      Step size s (.reserve t)
        { s.setPC t .acqOpening with mutex := none, created := s.created + 1 }
  | opened (s : State T H) (t : T) (h : H) (hpc : s.pc t = .acqOpening) (hh : s.handle h = .empty) :
      Step size s (.opened t h s.opened)
        { (s.setHandle h (.holds s.opened)).finish t .lease with opened := s.opened + 1 }
  | openFails (s : State T H) (t : T) (hpc : s.pc t = .acqOpening) :
      Step size s (.openFails t) (s.setPC t .acqOpenFailed)
  | undoReserve (s : State T H) (t : T) (hpc : s.pc t = .acqOpenFailed) (hfree : s.mutex = none) :
      Step size s (.undoReserve t) { s.finish t .openError with created := decr s.created }
  | wait (s : State T H) (t : T) (hpc : s.pc t = .acqLoop true) (hidle : s.idle = [])
      (hfull : ¬ s.created < size) :
      Step size s (.wait t) { s.setPC t .acqWaiting with mutex := none }
  | wake (s : State T H) (t : T) (hpc : s.pc t = .acqWaiting) (hfree : s.mutex = none) :
      Step size s (.wake t) { s.setPC t (.acqLoop true) with mutex := some t }
  /-- The deadline has passed and nothing is idle. -/
  | timeout (s : State T H) (t : T) (hpc : s.pc t = .acqWaiting) (hfree : s.mutex = none)
      (hidle : s.idle = []) : Step size s (.timeout t) (s.finish t .poolTimeout)
  /-- The loop without the lock takes an entry; the `unlock` that follows throws. -/
  | popUnowned (s : State T H) (t : T) (rest : List Conn) (c : Conn) (expired : Bool)
      (hpc : s.pc t = .acqLoop false) (hidle : s.idle = rest ++ [c]) :
      Step size s (.popUnowned t c expired)
        { s.finish t .systemError with
          idle := rest, created := if expired then decr s.created else s.created, raced := true }
  | reserveUnowned (s : State T H) (t : T) (hpc : s.pc t = .acqLoop false) (hidle : s.idle = [])
      (hroom : s.created < size) :
      Step size s (.reserveUnowned t)
        { s.finish t .systemError with created := s.created + 1, raced := true }
  /-- Waiting on a lock that is not held has no defined behaviour. -/
  | waitUnowned (s : State T H) (t : T) (hpc : s.pc t = .acqLoop false) (hidle : s.idle = [])
      (hfull : ¬ s.created < size) :
      Step size s (.waitUnowned t)
        { s.setPC t .stuck with ended := .undefined :: s.ended, raced := true }
  /-- A move construction, or a move assignment to a handle without a lease. -/
  | move (s : State T H) (target source : H) (hne : target ≠ source)
      (htarget : s.handle target = .empty) (hsource : s.handle source ≠ .reserved) :
      Step size s (.move target source)
        ((s.setHandle target (s.handle source)).setHandle source .empty)
  | destroy (s : State T H) (t : T) (h : H) (c : Conn) (hpc : s.pc t = .rest)
      (hh : s.handle h = .holds c) :
      Step size s (.destroy t h c) ((s.setHandle h .empty).setPC t (.resetting c none))
  | assign (s : State T H) (t : T) (target source : H) (c : Conn) (hpc : s.pc t = .rest)
      (hne : target ≠ source) (hh : s.handle target = .holds c) :
      Step size s (.assign t target source c)
        ((s.setHandle target .reserved).setPC t (.resetting c (some (target, source))))
  | reset (s : State T H) (t : T) (c : Conn) (assigns : Option (H × H)) (reusable : Bool)
      (hpc : s.pc t = .resetting c assigns) :
      Step size s (.reset t c reusable) (s.setPC t (.returning c reusable assigns))
  | release (s : State T H) (t : T) (c : Conn) (reusable : Bool) (assigns : Option (H × H))
      (hpc : s.pc t = .returning c reusable assigns) (hfree : s.mutex = none) :
      Step size s (.release t c reusable)
        { s.setPC t (.afterRelease assigns) with
          idle := if reusable then s.idle ++ [c] else s.idle
          created := if reusable then s.created else decr s.created }
  | finishAssign (s : State T H) (t : T) (target source : H)
      (hpc : s.pc t = .assigning target source) (hne : target ≠ source)
      (htarget : s.handle target = .reserved) (hsource : s.handle source ≠ .reserved) :
      Step size s (.finishAssign t)
        (((s.setHandle target (s.handle source)).setHandle source .empty).setPC t .rest)
  | beginMaintenance (s : State T H) (t : T) (hpc : s.pc t = .rest) :
      Step size s (.beginMaintenance t) (s.setPC t .maintEnter)
  /-- The expired entries are dropped, the others taken out to be checked. -/
  | takeOut (s : State T H) (t : T) (expired : Conn → Bool) (hpc : s.pc t = .maintEnter)
      (hfree : s.mutex = none) :
      Step size s (.takeOut t (s.idle.filter expired))
        { s.setPC t (.checking (s.idle.filter fun c => !expired c)) with
          idle := []
          created := decr^[(s.idle.filter expired).length] s.created
          underMaintenance := (s.idle.filter fun c => !expired c).length }
  | heartbeat (s : State T H) (t : T) (e : Conn) (entries : List Conn) (alive : Bool)
      (hpc : s.pc t = .checking (e :: entries)) :
      Step size s (.heartbeat t e alive) (s.setPC t (.verdict e alive entries))
  | judge (s : State T H) (t : T) (e : Conn) (alive : Bool) (entries : List Conn)
      (hpc : s.pc t = .verdict e alive entries) (hfree : s.mutex = none) :
      Step size s (.judge t e alive)
        { s.setPC t (.checking entries) with
          idle := if alive then s.idle ++ [e] else s.idle
          created := if alive then s.created else decr s.created
          underMaintenance := decr s.underMaintenance }
  | endMaintenance (s : State T H) (t : T) (hpc : s.pc t = .checking []) :
      Step size s (.endMaintenance t) (s.setPC t .rest)

/-- A new pool. -/
def start : State T H where
  mutex := none
  idle := []
  underMaintenance := 0
  created := 0
  pc := fun _ => .rest
  handle := fun _ => .empty
  opened := 0
  ended := []
  raced := false

def system (size : ℕ) : System (State T H) (Event T H) where
  init s := s = start
  step := Step size

end

end Uniorm.Pool
