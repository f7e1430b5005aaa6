import Mathlib.Algebra.Order.Group.Multiset
import Mathlib.Tactic.Abel
import Uniorm.Foundation.Transition

/-! # The pool behind the default executor

Workers take closures from one queue. What happens under the mutex is one step; a notification comes
after the mutex is given back and is a step of its own. The destructor sets a flag, wakes everybody
and joins the workers it finds when its loop begins. The vector of workers is not moved by a step
that leaves the loop of the destructor where it was; one that moves it under the loop leaves nothing
to say about what follows.
-/
namespace Uniorm.Async
open Foundation

/-- Where a worker is in `run`. -/
inductive WorkerState (C : Type*) where
  | ready
  | asleep
  | running (work : C)
  | exited
  deriving DecidableEq

namespace WorkerState
variable {C : Type*}

def isReady : WorkerState C → Bool
  | ready => true
  | _ => false

def work : WorkerState C → Option C
  | running work => some work
  | _ => none

/-- `notify_all` of a worker. -/
def awake : WorkerState C → WorkerState C
  | asleep => ready
  | w => w

end WorkerState

/-- How far the destructor is. Its loop has the next worker and the end it began with. -/
inductive Stage where
  | alive
  | notifying
  | notified
  | joining (next last : ℕ)
  | returned
  | terminated
  | undefined
  deriving DecidableEq

/-- `worker_pool`, with the closures that were accepted, taken and run to their end. -/
structure WorkerPool (C : Type*) where
  queue : List C := []
  workers : List (WorkerState C)
  stopping : Bool := false
  stage : Stage := .alive
  /-- The calls of `submit` that have yet to notify. -/
  owed : ℕ := 0
  accepted : List C := []
  taken : List C := []
  ended : List C := []

/-- The steps of a pool. A closure ends by returning or by throwing. -/
inductive PoolEvent (C : Type*) where
  | submit (work : C)
  | refuse (work : C)
  | notifyOne
  | wake (worker : ℕ)
  | take (worker : ℕ)
  | sleep (worker : ℕ)
  | finish (worker : ℕ) (threw : Bool)
  | exit (worker : ℕ)
  | threadCount (threads : ℕ)
  | stop
  | notifyAll
  | beginJoin
  | join
  | endJoin

namespace WorkerPool
variable {C : Type*}

def setWorker (s : WorkerPool C) (i : ℕ) (w : WorkerState C) : WorkerPool C :=
  { s with workers := s.workers.set i w }

def Lives (s : WorkerPool C) : Prop :=
  s.stage ≠ .returned ∧ s.stage ≠ .terminated ∧ s.stage ≠ .undefined

/-- The vector after `thread_count`. -/
def grown (s : WorkerPool C) (threads : ℕ) : List (WorkerState C) :=
  s.workers ++ List.replicate (threads - s.workers.length) .ready

end WorkerPool

open WorkerPool in
inductive PoolStep {C : Type*} : WorkerPool C → PoolEvent C → WorkerPool C → Prop where
  | submit (s : WorkerPool C) (work : C) (hlives : s.Lives) (hstopping : s.stopping = false) :
      PoolStep s (.submit work)
        { s with queue := s.queue ++ [work], accepted := s.accepted ++ [work], owed := s.owed + 1 }
  | refuse (s : WorkerPool C) (work : C) (hlives : s.Lives) (hstopping : s.stopping = true) :
      PoolStep s (.refuse work) s
  /-- A notification that finds a worker asleep wakes one; another one is lost. -/
  | notifyOne (s : WorkerPool C) (n i : ℕ) (howed : s.owed = n + 1)
      (hasleep : s.workers[i]? = some .asleep) :
      PoolStep s .notifyOne { s.setWorker i .ready with owed := n }
  | notifyNone (s : WorkerPool C) (n : ℕ) (howed : s.owed = n + 1)
      (hnone : .asleep ∉ s.workers) : PoolStep s .notifyOne { s with owed := n }
  /-- A worker may wake up for no reason. -/
  | wake (s : WorkerPool C) (i : ℕ) (hasleep : s.workers[i]? = some .asleep) :
      PoolStep s (.wake i) (s.setWorker i .ready)
  | take (s : WorkerPool C) (i : ℕ) (work : C) (rest : List C)
      (hready : s.workers[i]? = some .ready) (hqueue : s.queue = work :: rest) :
      PoolStep s (.take i)
        { s.setWorker i (.running work) with queue := rest, taken := s.taken ++ [work] }
  | sleep (s : WorkerPool C) (i : ℕ) (hready : s.workers[i]? = some .ready) (hqueue : s.queue = [])
      (hstopping : s.stopping = false) : PoolStep s (.sleep i) (s.setWorker i .asleep)
  | exit (s : WorkerPool C) (i : ℕ) (hready : s.workers[i]? = some .ready) (hqueue : s.queue = [])
      (hstopping : s.stopping = true) : PoolStep s (.exit i) (s.setWorker i .exited)
  | finish (s : WorkerPool C) (i : ℕ) (work : C) (threw : Bool)
      (hrunning : s.workers[i]? = some (.running work)) :
      PoolStep s (.finish i threw) { s.setWorker i .ready with ended := work :: s.ended }
  /-- No worker, or fewer than there are, is refused. -/
  | threadCountFails (s : WorkerPool C) (threads : ℕ) (hlives : s.Lives)
      (hthreads : threads = 0 ∨ threads < s.workers.length) : PoolStep s (.threadCount threads) s
  | threadCount (s : WorkerPool C) (threads : ℕ) (hlives : s.Lives) (hpos : 0 < threads)
      (hthreads : s.workers.length ≤ threads) :
      PoolStep s (.threadCount threads) { s with workers := s.grown threads }
  /-- The vector moves while the destructor goes over it. -/
  | threadCountMoves (s : WorkerPool C) (threads next last : ℕ) (hstage : s.stage = .joining next last)
      (hthreads : s.workers.length < threads) :
      PoolStep s (.threadCount threads) { s with workers := s.grown threads, stage := .undefined }
  | stop (s : WorkerPool C) (halive : s.stage = .alive) :
      PoolStep s .stop { s with stopping := true, stage := .notifying }
  | notifyAll (s : WorkerPool C) (hstage : s.stage = .notifying) :
      PoolStep s .notifyAll
        { s with workers := s.workers.map WorkerState.awake, stage := .notified }
  | beginJoin (s : WorkerPool C) (hstage : s.stage = .notified) :
      PoolStep s .beginJoin { s with stage := .joining 0 s.workers.length }
  | join (s : WorkerPool C) (next last : ℕ) (hstage : s.stage = .joining next last)
      (hnext : next < last) (hexited : s.workers[next]? = some .exited) :
      PoolStep s .join { s with stage := .joining (next + 1) last }
  /-- A worker that was not joined terminates the program. -/
  | endJoin (s : WorkerPool C) (last : ℕ) (hstage : s.stage = .joining last last) :
      PoolStep s .endJoin
        { s with stage := if s.workers.length = last then .returned else .terminated }

def workerPool (C : Type*) : System (WorkerPool C) (PoolEvent C) where
  init s := ∃ threads, 0 < threads ∧ s = { workers := List.replicate threads .ready }
  step := PoolStep

section
variable {α β : Type*} {l : List α} {i : ℕ} {a : α}

/-- An element of a list and what is around it. -/
theorem split_at (h : l[i]? = some a) : ∃ front back, l = front ++ a :: back ∧
    ∀ b, l.set i b = front ++ b :: back := by
  obtain ⟨hi, ha⟩ := List.getElem?_eq_some_iff.mp h
  refine ⟨l.take i, l.drop (i + 1), ?_, fun b => List.set_eq_take_append_cons_drop .. |>.trans ?_⟩
  · rw [← ha, List.getElem_cons_drop, List.take_append_drop]
  · rw [if_pos hi]

theorem filterMap_set (f : α → Option β) (h : l[i]? = some a) (b : α) :
    ((l.set i b).filterMap f ++ (f a).toList).Perm (l.filterMap f ++ (f b).toList) := by
  obtain ⟨front, back, rfl, hset⟩ := split_at h
  have hcons (c : α) : (c :: back).filterMap f = (f c).toList ++ back.filterMap f := by
    cases hc : f c <;> simp [hc]
  rw [hset, List.filterMap_append, List.filterMap_append, hcons, hcons, ← Multiset.coe_eq_coe]
  simp only [← Multiset.coe_add]
  abel

theorem countP_set (p : α → Bool) (h : l[i]? = some a) (b : α) :
    (l.set i b).countP p + (p a).toNat = l.countP p + (p b).toNat := by
  obtain ⟨front, back, rfl, hset⟩ := split_at h
  have hcons (c : α) : (c :: back).countP p = (p c).toNat + back.countP p := by
    cases hc : p c <;> simp [hc, Nat.add_comm]
  rw [hset, List.countP_append, List.countP_append, hcons, hcons]
  omega

end

namespace WorkerPool
variable {C : Type*}

/-- The closures that are being run. -/
def running (s : WorkerPool C) : List C := s.workers.filterMap WorkerState.work

def readyCount (s : WorkerPool C) : ℕ := s.workers.countP WorkerState.isReady

/-- The vector grows while the destructor goes over it. -/
def GrowsUnderJoin (s : WorkerPool C) (e : PoolEvent C) : Prop :=
  (∃ next last, s.stage = .joining next last) ∧
    ∃ threads, e = .threadCount threads ∧ s.workers.length < threads

structure Steady (s : WorkerPool C) : Prop where
  fifo : s.accepted = s.taken ++ s.queue
  once : s.taken.Perm (s.running ++ s.ended)
  manned : s.workers ≠ []
  stops : s.stopping = true ↔ s.stage ≠ .alive
  drained : .exited ∈ s.workers → s.stopping = true ∧ s.queue = []
  heard : .asleep ∈ s.workers → s.queue.length ≤ s.owed + s.readyCount
  woken : s.stage ≠ .alive → s.stage ≠ .notifying → .asleep ∉ s.workers
  joins : ∀ next last, s.stage = .joining next last →
    last = s.workers.length ∧ next ≤ last ∧ ∀ i < next, s.workers[i]? = some .exited
  gone : s.stage = .returned → ∀ w ∈ s.workers, w = .exited
  whole : s.stage ≠ .terminated ∧ s.stage ≠ .undefined

theorem steady_start {threads : ℕ} (h : 0 < threads) :
    ({ workers := List.replicate threads .ready } : WorkerPool C).Steady where
  fifo := rfl
  once := by simp [running, WorkerState.work]
  manned := by simpa using h.ne'
  stops := by simp
  drained := by simp
  heard := by simp
  woken := by simp
  joins := by simp
  gone := by simp
  whole := by simp

variable {s s' : WorkerPool C} {e : PoolEvent C}

theorem mem_setWorker {i : ℕ} {b w : WorkerState C} (h : w ∈ (s.setWorker i b).workers)
    (hne : w ≠ b) : w ∈ s.workers := (List.mem_or_eq_of_mem_set h).resolve_right hne

theorem mem_grown {threads : ℕ} {w : WorkerState C} (h : w ∈ s.grown threads) (hne : w ≠ .ready) :
    w ∈ s.workers :=
  (List.mem_append.mp h).elim id fun h => absurd (List.eq_of_mem_replicate h) hne

theorem running_setWorker {i : ℕ} {a : WorkerState C} (h : s.workers[i]? = some a)
    (b : WorkerState C) :
    ((s.setWorker i b).running ++ a.work.toList).Perm (s.running ++ b.work.toList) :=
  filterMap_set WorkerState.work h b

theorem readyCount_setWorker {i : ℕ} {a : WorkerState C} (h : s.workers[i]? = some a)
    (b : WorkerState C) :
    (s.setWorker i b).readyCount + a.isReady.toNat = s.readyCount + b.isReady.toNat :=
  countP_set WorkerState.isReady h b

theorem Steady.fifo_step (h : s.Steady) (hs : PoolStep s e s') :
    s'.accepted = s'.taken ++ s'.queue := by
  have hold := h.fifo
  cases hs with
  | submit => simp [hold]
  | take i work rest hready hqueue => simp [setWorker, hold, hqueue]
  | _ => exact hold

theorem Steady.once_step (h : s.Steady) (hs : PoolStep s e s') :
    s'.taken.Perm (s'.running ++ s'.ended) := by
  have hold := h.once
  have hmoved {i : ℕ} {a b : WorkerState C} (hi : s.workers[i]? = some a) (ha : a.work = none)
      (hb : b.work = none) : s.taken.Perm ((s.setWorker i b).running ++ s.ended) := by
    have hperm := running_setWorker hi b
    rw [ha, hb, Option.toList_none, List.append_nil, List.append_nil] at hperm
    exact hold.trans (hperm.symm.append_right _)
  have hgrown (threads : ℕ) : (s.grown threads).filterMap WorkerState.work = s.running := by
    simp [grown, running, WorkerState.work]
  have hawake : WorkerState.work ∘ WorkerState.awake = (WorkerState.work : WorkerState C → _) := by
    funext w
    cases w <;> rfl
  cases hs with
  | notifyOne n i howed hasleep => exact hmoved hasleep rfl rfl
  | wake i hasleep => exact hmoved hasleep rfl rfl
  | sleep i hready => exact hmoved hready rfl rfl
  | exit i hready => exact hmoved hready rfl rfl
  | take i work rest hready =>
    have hperm : (s.setWorker i (.running work)).running.Perm (s.running ++ [work]) := by
      simpa [WorkerState.work] using running_setWorker hready (.running work)
    have hcomm : (s.running ++ s.ended ++ [work]).Perm (s.running ++ [work] ++ s.ended) := by
      rw [List.append_assoc, List.append_assoc]
      exact List.perm_append_comm.append_left _
    exact (hold.append_right _).trans (hcomm.trans (hperm.symm.append_right _))
  | finish i work threw hrunning =>
    have hperm : ((s.setWorker i .ready).running ++ [work]).Perm s.running := by
      simpa [WorkerState.work] using running_setWorker hrunning .ready
    have hended := hperm.symm.append_right s.ended
    rw [List.append_assoc] at hended
    exact hold.trans hended
  | threadCount threads =>
    rw [running, hgrown]
    exact hold
  | threadCountMoves threads =>
    rw [running, hgrown]
    exact hold
  | notifyAll =>
    rw [running, List.filterMap_map, hawake]
    exact hold
  | _ => exact hold

theorem Steady.manned_step (h : s.Steady) (hs : PoolStep s e s') : s'.workers ≠ [] := by
  have hold := h.manned
  cases hs with
  | threadCount => exact List.append_ne_nil_of_left_ne_nil hold _
  | threadCountMoves => exact List.append_ne_nil_of_left_ne_nil hold _
  | notifyAll => simpa using hold
  | _ => simpa [setWorker] using hold

theorem Steady.stops_step (h : s.Steady) (hs : PoolStep s e s') :
    s'.stopping = true ↔ s'.stage ≠ .alive := by
  have hold := h.stops
  cases hs with
  | stop => simp
  | notifyAll hstage => simp [hold, hstage]
  | beginJoin hstage => simp [hold, hstage]
  | join next last hstage => simp [hold, hstage]
  | endJoin last hstage =>
    have hstage : s.stage ≠ .alive := by simp [hstage]
    simp only
    split_ifs <;> simp [hold, hstage]
  | threadCountMoves threads next last hstage => simp [hold, hstage]
  | _ => exact hold

theorem Steady.drained_step (h : s.Steady) (hs : PoolStep s e s') (hexited : .exited ∈ s'.workers) :
    s'.stopping = true ∧ s'.queue = [] := by
  have hold := h.drained
  cases hs with
  | submit work hlives hstopping => exact absurd (hold hexited).1 (by simp [hstopping])
  | take i work rest hready hqueue =>
    have hnil := (hold (mem_setWorker hexited (by simp))).2
    rw [hqueue] at hnil
    cases hnil
  | exit i hready hqueue hstopping => exact ⟨hstopping, hqueue⟩
  | notifyOne => exact hold (mem_setWorker hexited (by simp))
  | wake => exact hold (mem_setWorker hexited (by simp))
  | sleep => exact hold (mem_setWorker hexited (by simp))
  | finish => exact hold (mem_setWorker hexited (by simp))
  | threadCount => exact hold (mem_grown hexited (by simp))
  | threadCountMoves => exact hold (mem_grown hexited (by simp))
  | notifyAll =>
    obtain ⟨w, hw, hawake⟩ := List.mem_map.mp hexited
    have hexited : w = .exited := by cases w <;> simp_all [WorkerState.awake]
    exact hold (hexited ▸ hw)
  | stop => exact ⟨rfl, (hold hexited).2⟩
  | _ => exact hold hexited

theorem Steady.heard_step (h : s.Steady) (hs : PoolStep s e s') (hasleep : .asleep ∈ s'.workers) :
    s'.queue.length ≤ s'.owed + s'.readyCount := by
  have hold := h.heard
  have hgrown (threads : ℕ) : s.readyCount ≤ (s.grown threads).countP WorkerState.isReady := by
    rw [grown, List.countP_append]
    exact Nat.le_add_right _ _
  cases hs with
  | submit =>
    have hlen := hold hasleep
    simp only [List.length_append, List.length_singleton]
    exact (Nat.succ_le_succ hlen).trans (Nat.succ_add _ _).ge
  | notifyOne n i howed hi =>
    have hlen := hold (List.mem_of_getElem? hi)
    have hcount : (s.setWorker i .ready).readyCount = s.readyCount + 1 := readyCount_setWorker hi _
    change s.queue.length ≤ n + (s.setWorker i .ready).readyCount
    omega
  | notifyNone n howed hnone => exact absurd hasleep hnone
  | wake i hi =>
    have hlen := hold (List.mem_of_getElem? hi)
    have hcount : (s.setWorker i .ready).readyCount = s.readyCount + 1 := readyCount_setWorker hi _
    change s.queue.length ≤ s.owed + (s.setWorker i .ready).readyCount
    omega
  | take i work rest hready hqueue =>
    have hlen := hold (mem_setWorker hasleep (by simp))
    have hcount : (s.setWorker i (.running work)).readyCount + 1 = s.readyCount :=
      readyCount_setWorker hready _
    change rest.length ≤ s.owed + (s.setWorker i (.running work)).readyCount
    rw [hqueue, List.length_cons] at hlen
    omega
  | sleep i hready hqueue => simp [setWorker, hqueue]
  | exit i hready hqueue => simp [setWorker, hqueue]
  | finish i work threw hrunning =>
    have hlen := hold (mem_setWorker hasleep (by simp))
    have hcount : (s.setWorker i .ready).readyCount = s.readyCount + 1 :=
      readyCount_setWorker hrunning _
    change s.queue.length ≤ s.owed + (s.setWorker i .ready).readyCount
    omega
  | threadCount threads =>
    have hlen := hold (mem_grown hasleep (by simp))
    exact hlen.trans (Nat.add_le_add_left (hgrown threads) _)
  | threadCountMoves threads =>
    have hlen := hold (mem_grown hasleep (by simp))
    exact hlen.trans (Nat.add_le_add_left (hgrown threads) _)
  | notifyAll =>
    obtain ⟨w, -, hawake⟩ := List.mem_map.mp hasleep
    cases w <;> simp [WorkerState.awake] at hawake
  | _ => exact hold hasleep

theorem Steady.woken_step (h : s.Steady) (hs : PoolStep s e s') (hstage : s'.stage ≠ .alive)
    (hnotified : s'.stage ≠ .notifying) : .asleep ∉ s'.workers := by
  have hold := h.woken
  intro hasleep
  cases hs with
  | sleep i hready hqueue hstopping => exact hstage (by simpa [hstopping, setWorker] using h.stops)
  | notifyOne => exact hold hstage hnotified (mem_setWorker hasleep (by simp))
  | wake => exact hold hstage hnotified (mem_setWorker hasleep (by simp))
  | take => exact hold hstage hnotified (mem_setWorker hasleep (by simp))
  | exit => exact hold hstage hnotified (mem_setWorker hasleep (by simp))
  | finish => exact hold hstage hnotified (mem_setWorker hasleep (by simp))
  | threadCount => exact hold hstage hnotified (mem_grown hasleep (by simp))
  | threadCountMoves threads next last hjoins =>
    exact hold (by simp [hjoins]) (by simp [hjoins]) (mem_grown hasleep (by simp))
  | stop => exact hnotified rfl
  | notifyAll =>
    obtain ⟨w, -, hawake⟩ := List.mem_map.mp hasleep
    cases w <;> simp [WorkerState.awake] at hawake
  | beginJoin hbefore => exact hold (by simp [hbefore]) (by simp [hbefore]) hasleep
  | join next last hbefore => exact hold (by simp [hbefore]) (by simp [hbefore]) hasleep
  | endJoin last hbefore => exact hold (by simp [hbefore]) (by simp [hbefore]) hasleep
  | _ => exact hold hstage hnotified hasleep

/-- A step that moves no worker out of `run` keeps those that left. -/
theorem exited_setWorker {i j : ℕ} {a b : WorkerState C} (hi : s.workers[i]? = some a)
    (ha : a ≠ .exited) (hj : s.workers[j]? = some .exited) :
    (s.setWorker i b).workers[j]? = some .exited := by
  have hne : i ≠ j := by
    rintro rfl
    exact ha (Option.some.inj (hi.symm.trans hj))
  rw [setWorker, List.getElem?_set_ne hne]
  exact hj

theorem Steady.joins_step (h : s.Steady) (hok : ¬ s.GrowsUnderJoin e) (hs : PoolStep s e s')
    (next last : ℕ) (hstage : s'.stage = .joining next last) :
    last = s'.workers.length ∧ next ≤ last ∧ ∀ i < next, s'.workers[i]? = some .exited := by
  have hold := h.joins
  have hmoved {i : ℕ} {a b : WorkerState C} (hi : s.workers[i]? = some a) (ha : a ≠ .exited)
      (hjoining : s.stage = .joining next last) :
      last = (s.setWorker i b).workers.length ∧ next ≤ last ∧
        ∀ j < next, (s.setWorker i b).workers[j]? = some .exited := by
    obtain ⟨hlast, hnext, hexited⟩ := hold next last hjoining
    exact ⟨by simpa [setWorker] using hlast, hnext, fun j hj =>
      exited_setWorker hi ha (hexited j hj)⟩
  cases hs with
  | notifyOne n i howed hi => exact hmoved hi (by simp) hstage
  | wake i hi => exact hmoved hi (by simp) hstage
  | take i work rest hi => exact hmoved hi (by simp) hstage
  | sleep i hi => exact hmoved hi (by simp) hstage
  | exit i hi => exact hmoved hi (by simp) hstage
  | finish i work threw hi => exact hmoved hi (by simp) hstage
  | threadCount threads hlives hpos hthreads =>
    have hsame : threads = s.workers.length := by
      by_contra hne
      exact hok ⟨⟨next, last, hstage⟩, threads, rfl, lt_of_le_of_ne hthreads (Ne.symm hne)⟩
    simpa [grown, hsame] using hold next last hstage
  | threadCountMoves threads => cases hstage
  | stop => cases hstage
  | notifyAll => cases hstage
  | beginJoin =>
    obtain ⟨rfl, rfl⟩ := Stage.joining.inj hstage
    exact ⟨rfl, Nat.zero_le _, fun i hi => absurd hi (Nat.not_lt_zero i)⟩
  | join before last' hbefore hlt hexited =>
    obtain ⟨rfl, rfl⟩ := Stage.joining.inj hstage
    obtain ⟨hlast, hnext, hall⟩ := hold _ _ hbefore
    refine ⟨hlast, hlt, fun i hi => ?_⟩
    rcases Nat.lt_succ_iff_lt_or_eq.mp hi with hi | rfl
    · exact hall i hi
    · exact hexited
  | endJoin last' hbefore =>
    simp only at hstage
    split_ifs at hstage
  | _ => exact hold next last hstage

/-- The loop of the destructor ends when every worker has left. -/
theorem Steady.all_exited (h : s.Steady) {last : ℕ} (hstage : s.stage = .joining last last) :
    s.workers.length = last ∧ ∀ w ∈ s.workers, w = .exited := by
  obtain ⟨hlast, -, hexited⟩ := h.joins last last hstage
  refine ⟨hlast.symm, fun w hw => ?_⟩
  obtain ⟨i, hi, rfl⟩ := List.getElem_of_mem hw
  have hget := hexited i (by omega)
  rw [List.getElem?_eq_getElem hi] at hget
  exact Option.some.inj hget

theorem Steady.gone_step (h : s.Steady) (hs : PoolStep s e s') (hstage : s'.stage = .returned)
    (w : WorkerState C) (hw : w ∈ s'.workers) : w = .exited := by
  have hold := h.gone
  have hnone {i : ℕ} {a : WorkerState C} (hi : s.workers[i]? = some a) (ha : a ≠ .exited)
      (hover : s.stage = .returned) : w = .exited :=
    absurd (hold hover a (List.mem_of_getElem? hi)) ha
  cases hs with
  | notifyOne n i howed hi => exact hnone hi (by simp) hstage
  | wake i hi => exact hnone hi (by simp) hstage
  | take i work rest hi => exact hnone hi (by simp) hstage
  | sleep i hi => exact hnone hi (by simp) hstage
  | exit i hi => exact hnone hi (by simp) hstage
  | finish i work threw hi => exact hnone hi (by simp) hstage
  | threadCount threads hlives => exact absurd hstage hlives.1
  | endJoin last hbefore => exact (h.all_exited hbefore).2 w hw
  | submit work hlives => exact absurd hstage hlives.1
  | notifyNone => exact hold hstage w hw
  | refuse => exact hold hstage w hw
  | threadCountFails => exact hold hstage w hw
  | threadCountMoves => cases hstage
  | stop => cases hstage
  | notifyAll => cases hstage
  | beginJoin => cases hstage
  | join => cases hstage

theorem Steady.whole_step (h : s.Steady) (hok : ¬ s.GrowsUnderJoin e) (hs : PoolStep s e s') :
    s'.stage ≠ .terminated ∧ s'.stage ≠ .undefined := by
  have hold := h.whole
  cases hs with
  | threadCountMoves threads next last hstage hthreads =>
    exact absurd ⟨⟨next, last, hstage⟩, threads, rfl, hthreads⟩ hok
  | endJoin last hstage =>
    simp [(h.all_exited hstage).1]
  | stop => simp
  | notifyAll => simp
  | beginJoin => simp
  | join => simp
  | _ => exact hold

theorem Steady.step (h : s.Steady) (hok : ¬ s.GrowsUnderJoin e) (hs : PoolStep s e s') :
    s'.Steady where
  fifo := h.fifo_step hs
  once := h.once_step hs
  manned := h.manned_step hs
  stops := h.stops_step hs
  drained := h.drained_step hs
  heard := h.heard_step hs
  woken := h.woken_step hs
  joins := h.joins_step hok hs
  gone := h.gone_step hs
  whole := h.whole_step hok hs

theorem steady_of_reach (h : (workerPool C).Reach (fun s e => ¬ s.GrowsUnderJoin e) s) :
    s.Steady := by
  apply h.invariant
  · rintro _ ⟨threads, hpos, rfl⟩
    exact steady_start hpos
  · intro _ _ _ _ hsteady hok hs
    exact hsteady.step hok hs

/-- Nothing is left for the pool to do: no notification is due, no worker runs or is about to
look. -/
def Settled (s : WorkerPool C) : Prop := s.owed = 0 ∧ ∀ w ∈ s.workers, w = .asleep ∨ w = .exited

structure Serves (s : WorkerPool C) : Prop where
  inOrder : s.accepted = s.taken ++ s.queue
  once : s.taken.Perm (s.running ++ s.ended)
  stays : .exited ∈ s.workers → s.stopping = true ∧ s.queue = []
  survives : ∀ i threw s', PoolStep s (.finish i threw) s' → s'.workers[i]? = some .ready
  accepts : ∀ work, (∃ s', PoolStep s (.submit work) s') ↔ s.Lives ∧ s.stopping = false
  refuses : ∀ work, (∃ s', PoolStep s (.refuse work) s') ↔ s.Lives ∧ s.stopping = true
  settles : s.Settled → s.queue = [] ∧ s.ended.Perm s.accepted
  proceeds : ¬ s.Settled → ∃ s' i, PoolStep s .notifyOne s' ∨ PoolStep s (.take i) s' ∨
    PoolStep s (.sleep i) s' ∨ PoolStep s (.exit i) s' ∨ PoolStep s (.finish i false) s'
  returns : s.stage = .returned → s.ended.Perm s.accepted
  whole : s.stage ≠ .terminated ∧ s.stage ≠ .undefined
  grows : ∀ e s', PoolStep s e s' → s.workers.length ≤ s'.workers.length

/-- A queue that is empty and a pool that runs nothing leave every closure ended. -/
theorem Steady.ended_perm (h : s.Steady) (hqueue : s.queue = []) (hrunning : s.running = []) :
    s.ended.Perm s.accepted := by
  have honce := h.once
  rw [hrunning, List.nil_append] at honce
  rw [h.fifo, hqueue, List.append_nil]
  exact honce.symm

theorem running_of_idle (h : ∀ w ∈ s.workers, w = .asleep ∨ w = .exited) : s.running = [] := by
  rw [running, List.filterMap_eq_nil_iff]
  intro w hw
  rcases h w hw with rfl | rfl <;> rfl

theorem Steady.queue_of_settled (h : s.Steady) (hsettled : s.Settled) : s.queue = [] := by
  obtain ⟨w, hw⟩ := List.exists_mem_of_ne_nil _ h.manned
  rcases hsettled.2 w hw with rfl | rfl
  · have hlen := h.heard hw
    have hready : s.readyCount = 0 := by
      rw [readyCount, List.countP_eq_zero]
      intro v hv
      rcases hsettled.2 v hv with rfl | rfl <;> simp [WorkerState.isReady]
    rw [hsettled.1, hready] at hlen
    exact List.length_eq_zero_iff.mp (Nat.le_zero.mp hlen)
  · exact (h.drained hw).2

/-- A pool that is not settled can go on by itself. -/
theorem proceeds_of_not_settled (hsettled : ¬ s.Settled) :
    ∃ s' i, PoolStep s .notifyOne s' ∨ PoolStep s (.take i) s' ∨ PoolStep s (.sleep i) s' ∨
      PoolStep s (.exit i) s' ∨ PoolStep s (.finish i false) s' := by
  cases howed : s.owed with
  | succ n =>
    by_cases hasleep : .asleep ∈ s.workers
    · obtain ⟨i, hi⟩ := List.getElem?_of_mem hasleep
      exact ⟨_, i, .inl (.notifyOne s n i howed hi)⟩
    · exact ⟨_, 0, .inl (.notifyNone s n howed hasleep)⟩
  | zero =>
    have hbusy : ∃ w ∈ s.workers, w ≠ .asleep ∧ w ≠ .exited := by
      by_contra hnone
      apply hsettled
      refine ⟨howed, fun w hw => or_iff_not_imp_left.mpr fun hawake => ?_⟩
      by_contra hstays
      exact hnone ⟨w, hw, hawake, hstays⟩
    obtain ⟨w, hw, hawake, hstays⟩ := hbusy
    obtain ⟨i, hi⟩ := List.getElem?_of_mem hw
    cases w with
    | asleep => exact absurd rfl hawake
    | exited => exact absurd rfl hstays
    | running work =>
      exact ⟨_, i, .inr (.inr (.inr (.inr (.finish s i work false hi))))⟩
    | ready =>
      cases hqueue : s.queue with
      | cons work rest => exact ⟨_, i, .inr (.inl (.take s i work rest hi hqueue))⟩
      | nil =>
        cases hstopping : s.stopping with
        | false => exact ⟨_, i, .inr (.inr (.inl (.sleep s i hi hqueue hstopping)))⟩
        | true => exact ⟨_, i, .inr (.inr (.inr (.inl (.exit s i hi hqueue hstopping))))⟩

theorem length_le_of_step (hs : PoolStep s e s') : s.workers.length ≤ s'.workers.length := by
  cases hs <;> simp [setWorker, grown]

theorem Steady.serves (h : s.Steady) : s.Serves where
  inOrder := h.fifo
  once := h.once
  stays := h.drained
  survives := by
    intro i threw s' hs
    cases hs with
    | finish i work threw hrunning =>
      simp [setWorker, (List.getElem?_eq_some_iff.mp hrunning).1]
  accepts := by
    intro work
    constructor
    · rintro ⟨s', hs⟩
      cases hs with
      | submit work hlives hstopping => exact ⟨hlives, hstopping⟩
    · rintro ⟨hlives, hstopping⟩
      exact ⟨_, .submit s work hlives hstopping⟩
  refuses := by
    intro work
    constructor
    · rintro ⟨s', hs⟩
      cases hs with
      | refuse work hlives hstopping => exact ⟨hlives, hstopping⟩
    · rintro ⟨hlives, hstopping⟩
      exact ⟨_, .refuse s work hlives hstopping⟩
  settles := by
    intro hsettled
    have hqueue := h.queue_of_settled hsettled
    exact ⟨hqueue, h.ended_perm hqueue (running_of_idle hsettled.2)⟩
  proceeds := proceeds_of_not_settled
  returns := by
    intro hstage
    obtain ⟨w, hw⟩ := List.exists_mem_of_ne_nil _ h.manned
    have hexited := h.gone hstage
    obtain rfl := hexited w hw
    exact h.ended_perm (h.drained hw).2 (running_of_idle fun v hv => .inr (hexited v hv))
  whole := h.whole
  grows := fun _ _ => length_le_of_step

/-- In a run in which the vector of workers does not grow while the destructor goes over it, every
state is one that the pool promises. -/
theorem workers_serve (h : (workerPool C).Reach (fun s e => ¬ s.GrowsUnderJoin e) s) : s.Serves :=
  (steady_of_reach h).serves

/-- A closure throws while the pool is destroyed; the destructor returns with every closure ended. -/
theorem destroyed_after_throw : ∃ s : WorkerPool ℕ, s.stage = .returned ∧ s.accepted = [7] ∧
    s.Serves := by
  have hguard {s : WorkerPool ℕ} {e : PoolEvent ℕ} (h : ∀ threads, e ≠ .threadCount threads) :
      ¬ s.GrowsUnderJoin e := by
    rintro ⟨-, threads, hgrow, -⟩
    exact h threads hgrow
  have htaken := ((@System.Reach.start _ _ (workerPool ℕ)
    (fun s e => ¬ s.GrowsUnderJoin e) _ ⟨1, Nat.one_pos, rfl⟩).next (hguard (by simp))
    (.submit _ 7 (by simp [Lives]) rfl)).next (hguard (by simp)) (.take _ 0 7 [] rfl rfl)
  have hstopped := ((htaken.next (hguard (by simp)) (.stop _ rfl)).next (hguard (by simp))
    (.notifyAll _ rfl)).next (hguard (by simp)) (.beginJoin _ rfl)
  have hleft := (hstopped.next (hguard (by simp)) (.finish _ 0 7 true rfl)).next (hguard (by simp))
    (.exit _ 0 rfl rfl rfl)
  have hreturned := (hleft.next (hguard (by simp)) (.join _ 0 1 rfl Nat.one_pos rfl)).next
    (hguard (by simp)) (.endJoin _ 1 rfl)
  exact ⟨_, rfl, rfl, workers_serve hreturned⟩

/-- A fourth worker is added while the destructor joins three; it still runs a closure when the
loop ends. -/
theorem grown_under_join : ∃ s : WorkerPool ℕ, (workerPool ℕ).Reachable s ∧
    s.accepted = [1, 2] ∧ s.running = [2] ∧ s.ended = [1] ∧ s.stage = .terminated ∧ ¬ s.Serves := by
  have htaken := (((@System.Reach.start _ _ (workerPool ℕ) (fun _ _ => True) _
    ⟨3, by decide, rfl⟩).next trivial (.submit _ 1 (by simp [Lives]) rfl)).next trivial
    (.submit _ 2 (by simp [Lives]) rfl)).next trivial (.take _ 0 1 [2] rfl rfl)
  have hjoining := ((htaken.next trivial (.stop _ rfl)).next trivial (.notifyAll _ rfl)).next trivial
    (.beginJoin _ rfl)
  have hgrown := (hjoining.next trivial (.threadCount _ 4 (by simp [Lives]) (by decide)
    (by decide))).next trivial (.take _ 3 2 [] rfl rfl)
  have hleft := (((hgrown.next trivial (.finish _ 0 1 false rfl)).next trivial
    (.exit _ 0 rfl rfl rfl)).next trivial (.exit _ 1 rfl rfl rfl)).next trivial
    (.exit _ 2 rfl rfl rfl)
  have hjoined := ((hleft.next trivial (.join _ 0 3 rfl (by decide) rfl)).next trivial
    (.join _ 1 3 rfl (by decide) rfl)).next trivial (.join _ 2 3 rfl (by decide) rfl)
  exact ⟨_, hjoined.next trivial (.endJoin _ 3 rfl), rfl, rfl, rfl, rfl, fun h => h.whole.1 rfl⟩

end WorkerPool

end Uniorm.Async
