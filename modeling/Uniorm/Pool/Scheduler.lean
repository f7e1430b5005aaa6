import Mathlib.Logic.Function.Basic
import Uniorm.Foundation.Transition

/-! # The heartbeat scheduler

Pools register with a list that one background thread goes over. The thread leaves when it finds the
list empty, and the next registration starts another one. Who starts it is decided under the mutex;
the old thread is joined and the member assigned without it. A pool dies whenever its last reference
goes, mutex or not, so a pass drops at least no pool that is alive and may keep one that is not.
-/
namespace Uniorm.Pool
open Foundation

/-- Where a thread of the scheduler is in `run`. -/
inductive WorkerPC (P : Type*) where
  | unborn
  | entering
  | top
  | inspecting
  | waiting
  | maintaining (due : List P)
  | leaving
  | finished
  deriving DecidableEq

namespace WorkerPC
variable {P : Type*}

/-- Inside `run` or about to enter it. -/
def inRun : WorkerPC P → Bool
  | unborn | finished => false
  | _ => true

/-- In `run` and not on its way out. -/
def live : WorkerPC P → Bool
  | unborn | leaving | finished => false
  | _ => true

def holdsMutex : WorkerPC P → Bool
  | top | inspecting | leaving => true
  | _ => false

/-- The pools a thread keeps alive. -/
def due : WorkerPC P → List P
  | maintaining due => due
  | _ => []

end WorkerPC

/-- Where a thread is in `add`. -/
inductive AdderPC (P : Type*) where
  | idle
  | entering (p : P)
  | notifying (p : P) (needStart : Bool)
  | checking (p : P)
  | joining (p : P)
  | creating (p : P)
  | assigning (p : P) (worker : ℕ)
  deriving DecidableEq

namespace AdderPC
variable {P : Type*}

def starts : AdderPC P → Bool
  | notifying _ needStart => needStart
  | checking _ | joining _ | creating _ => true
  | _ => false

def begins : AdderPC P → Bool
  | assigning _ _ => true
  | pc => pc.starts

def emptied : AdderPC P → Bool
  | creating _ | assigning _ _ => true
  | _ => false

def pool : AdderPC P → Option P
  | idle => none
  | entering p | notifying p _ | checking p | joining p | creating p | assigning p _ => some p

/-- The pool that was put on the list. -/
def registered : AdderPC P → Option P
  | idle | entering _ => none
  | notifying p _ | checking p | joining p | creating p | assigning p _ => some p

end AdderPC

/-- `scheduler`, with the threads that call `add` and the threads it created. -/
structure Scheduler (A P : Type*) where
  /-- Whether a thread of the scheduler holds the mutex between two steps. -/
  locked : Bool
  pools : List P
  running : Bool
  /-- The thread the member `worker` holds, when it is joinable. -/
  worker : Option ℕ
  launched : ℕ
  thread : ℕ → WorkerPC P
  adder : A → AdderPC P
  /-- The pools that were made, and those of them whose owner is there. -/
  made : List P
  owned : P → Bool
  /-- The pools whose `add` has returned. -/
  added : List P
  /-- A joinable thread was assigned to. -/
  terminated : Bool

namespace Scheduler
variable {A P : Type*}

def start : Scheduler A P where
  locked := false
  pools := []
  running := false
  worker := none
  launched := 0
  thread := fun _ => .unborn
  adder := fun _ => .idle
  made := []
  owned := fun _ => false
  added := []
  terminated := false

/-- A pool is alive while its owner is, or while a pass works on it. -/
def Alive (s : Scheduler A P) (p : P) : Prop :=
  s.owned p = true ∨ ∃ n, p ∈ (s.thread n).due

section
variable [DecidableEq A]

def setAdder (s : Scheduler A P) (a : A) (pc : AdderPC P) : Scheduler A P :=
  { s with adder := Function.update s.adder a pc }

def setThread (s : Scheduler A P) (n : ℕ) (pc : WorkerPC P) : Scheduler A P :=
  { s with thread := Function.update s.thread n pc }

end

end Scheduler

/-- The steps of the scheduler, named after the code they are. -/
inductive SchedulerEvent (A P : Type*) where
  | construct (a : A) (p : P)
  | register (a : A)
  | notify (a : A)
  | checkJoinable (a : A)
  | join (a : A)
  | create (a : A)
  | assign (a : A)
  | drop (p : P)
  | enter (n : ℕ)
  | prune (n : ℕ)
  | wait (n : ℕ)
  | wake (n : ℕ)
  | collect (n : ℕ) (due : List P)
  | tick (n : ℕ)
  | leave (n : ℕ)

open Scheduler in
inductive SchedulerStep {A P : Type*} [DecidableEq A] [DecidableEq P] :
    Scheduler A P → SchedulerEvent A P → Scheduler A P → Prop where
  /-- A pool is made; its constructor calls `add` and holds it until then. -/
  | construct (s : Scheduler A P) (a : A) (p : P) (hpc : s.adder a = .idle) (hnew : p ∉ s.made) :
      SchedulerStep s (.construct a p)
        { s.setAdder a (.entering p) with
          made := p :: s.made, owned := Function.update s.owned p true }
  | register (s : Scheduler A P) (a : A) (p : P) (hpc : s.adder a = .entering p)
      (hfree : s.locked = false) :
      SchedulerStep s (.register a)
        { s.setAdder a (.notifying p (!s.running)) with pools := s.pools ++ [p], running := true }
  | notified (s : Scheduler A P) (a : A) (p : P) (hpc : s.adder a = .notifying p false) :
      SchedulerStep s (.notify a) { s.setAdder a .idle with added := p :: s.added }
  | notify (s : Scheduler A P) (a : A) (p : P) (hpc : s.adder a = .notifying p true) :
      SchedulerStep s (.notify a) (s.setAdder a (.checking p))
  | joinable (s : Scheduler A P) (a : A) (p : P) (hpc : s.adder a = .checking p)
      (hworker : s.worker.isSome = true) :
      SchedulerStep s (.checkJoinable a) (s.setAdder a (.joining p))
  | notJoinable (s : Scheduler A P) (a : A) (p : P) (hpc : s.adder a = .checking p)
      (hworker : s.worker = none) :
      SchedulerStep s (.checkJoinable a) (s.setAdder a (.creating p))
  | join (s : Scheduler A P) (a : A) (p : P) (n : ℕ) (hpc : s.adder a = .joining p)
      (hworker : s.worker = some n) (hdone : s.thread n = .finished) :
      SchedulerStep s (.join a) { s.setAdder a (.creating p) with worker := none }
  | create (s : Scheduler A P) (a : A) (p : P) (hpc : s.adder a = .creating p) :
      SchedulerStep s (.create a)
        { (s.setThread s.launched .entering).setAdder a (.assigning p s.launched) with
          launched := s.launched + 1 }
  /-- Assigning to a joinable thread terminates the program. -/
  | assign (s : Scheduler A P) (a : A) (p : P) (n : ℕ) (hpc : s.adder a = .assigning p n) :
      SchedulerStep s (.assign a)
        { s.setAdder a .idle with
          worker := some n, added := p :: s.added,
          terminated := s.terminated || s.worker.isSome }
  /-- The last owner lets go of a pool. -/
  | drop (s : Scheduler A P) (p : P) (hadded : p ∈ s.added) :
      SchedulerStep s (.drop p) { s with owned := Function.update s.owned p false }
  | enter (s : Scheduler A P) (n : ℕ) (hpc : s.thread n = .entering) (hfree : s.locked = false) :
      SchedulerStep s (.enter n) { s.setThread n .top with locked := true }
  /-- Expired pools are taken off the list; the thread leaves if none is left. -/
  | prune (s : Scheduler A P) (n : ℕ) (keep : P → Bool) (hpc : s.thread n = .top)
      (hkeep : ∀ p, s.Alive p → keep p = true) (hne : s.pools.filter keep ≠ []) :
      SchedulerStep s (.prune n)
        { s.setThread n .inspecting with pools := s.pools.filter keep }
  | pruneAll (s : Scheduler A P) (n : ℕ) (keep : P → Bool) (hpc : s.thread n = .top)
      (hkeep : ∀ p, s.Alive p → keep p = true) (hnone : s.pools.filter keep = []) :
      SchedulerStep s (.prune n)
        { s.setThread n .leaving with pools := [], running := false }
  | wait (s : Scheduler A P) (n : ℕ) (hpc : s.thread n = .inspecting) :
      SchedulerStep s (.wait n) { s.setThread n .waiting with locked := false }
  | wake (s : Scheduler A P) (n : ℕ) (hpc : s.thread n = .waiting) (hfree : s.locked = false) :
      SchedulerStep s (.wake n) { s.setThread n .top with locked := true }
  | collect (s : Scheduler A P) (n : ℕ) (due : List P) (hpc : s.thread n = .inspecting)
      (hdue : ∀ p ∈ due, p ∈ s.pools ∧ s.Alive p) :
      SchedulerStep s (.collect n due) { s.setThread n (.maintaining due) with locked := false }
  /-- The pass is over; its references go before the loop continues. -/
  | tick (s : Scheduler A P) (n : ℕ) (due : List P) (hpc : s.thread n = .maintaining due)
      (hfree : s.locked = false) :
      SchedulerStep s (.tick n) { s.setThread n .top with locked := true }
  | leave (s : Scheduler A P) (n : ℕ) (hpc : s.thread n = .leaving) :
      SchedulerStep s (.leave n) { s.setThread n .finished with locked := false }

def scheduling (A P : Type*) [DecidableEq A] [DecidableEq P] :
    System (Scheduler A P) (SchedulerEvent A P) where
  init s := s = Scheduler.start
  step := SchedulerStep

namespace Scheduler
variable {A P : Type*}

structure Sound (s : Scheduler A P) : Prop where
  single : ∀ n, (s.thread n).inRun = true → n + 1 = s.launched
  unborn : ∀ n, s.launched ≤ n → s.thread n = .unborn
  born : ∀ n < s.launched, s.thread n ≠ .unborn
  mutex : ∀ n, (s.thread n).holdsMutex = true → s.locked = true
  working : ∀ n, (s.thread n).live = true → s.running = true
  starting : ∀ a, (s.adder a).starts = true → s.running = true ∧ ∀ n, (s.thread n).live = false
  running : s.running = true →
    (∃ a, (s.adder a).starts = true) ∨ ∃ n, (s.thread n).live = true
  alone : ∀ a b, (s.adder a).begins = true → (s.adder b).begins = true → a = b
  creating : ∀ a p, s.adder a = .creating p → s.worker = none ∧ ∀ n, (s.thread n).inRun = false
  assigning : ∀ a p n, s.adder a = .assigning p n →
    s.worker = none ∧ n + 1 = s.launched ∧ (s.thread n).live = true
  member : (∀ a, (s.adder a).emptied = false) →
    (s.worker = none ∧ s.launched = 0) ∨ ∃ n, s.worker = some n ∧ n + 1 = s.launched
  joining : ∀ a p, s.adder a = .joining p → s.worker.isSome = true
  owns : ∀ a p, (s.adder a).pool = some p → s.owned p = true ∧ p ∈ s.made ∧ p ∉ s.added
  distinct : ∀ a b p, (s.adder a).pool = some p → (s.adder b).pool = some p → a = b
  listed : ∀ a p, (s.adder a).registered = some p → p ∈ s.pools
  listening : s.pools ≠ [] → s.running = true
  kept : ∀ p ∈ s.added, s.Alive p → p ∈ s.pools
  made : ∀ p ∈ s.added, p ∈ s.made
  safe : s.terminated = false

theorem sound_start : (start : Scheduler A P).Sound := by
  constructor <;> simp [start, WorkerPC.inRun, WorkerPC.holdsMutex, WorkerPC.live, AdderPC.starts,
    AdderPC.begins, AdderPC.emptied, AdderPC.pool, AdderPC.registered]

section
variable {s s' : Scheduler A P} {e : SchedulerEvent A P}

attribute [local grind =] WorkerPC.inRun WorkerPC.live WorkerPC.holdsMutex WorkerPC.due
  AdderPC.starts AdderPC.begins AdderPC.emptied AdderPC.pool AdderPC.registered

/-- A thread that is in `run` is the last one created. -/
theorem Sound.eq_of_inRun (h : s.Sound) {i j : ℕ} (hi : (s.thread i).inRun = true)
    (hj : (s.thread j).inRun = true) : i = j :=
  Nat.succ_injective ((h.single i hi).trans (h.single j hj).symm)

theorem Sound.not_starts (h : s.Sound) {n : ℕ} (hn : (s.thread n).live = true) (a : A) :
    (s.adder a).starts = false := by
  by_contra ha
  have hnone := (h.starting a (by simpa using ha)).2 n
  rw [hn] at hnone
  cases hnone

theorem inRun_of_live {pc : WorkerPC P} (h : pc.live = true) :
    pc.inRun = true := by
  cases pc <;> simp_all [WorkerPC.live, WorkerPC.inRun]

theorem begins_of_starts {pc : AdderPC P} (h : pc.starts = true) : pc.begins = true := by
  cases pc <;> simp_all [AdderPC.starts, AdderPC.begins]

theorem begins_of_emptied {pc : AdderPC P} (h : pc.emptied = true) : pc.begins = true := by
  cases pc <;> simp_all [AdderPC.emptied, AdderPC.begins, AdderPC.starts]

theorem pool_of_registered {pc : AdderPC P} {p : P} (h : pc.registered = some p) :
    pc.pool = some p := by
  cases pc <;> simp_all [AdderPC.registered, AdderPC.pool]

variable [DecidableEq A] [DecidableEq P]

theorem Sound.single_step (h : s.Sound) (hs : SchedulerStep s e s') :
    ∀ i, (s'.thread i).inRun = true → i + 1 = s'.launched := by
  have hold := h.single
  cases hs with
  | create a p hpc =>
    have hnone := (h.creating a p hpc).2
    simp only [setThread, setAdder, Function.update_apply]
    grind
  | _ =>
    simp only [setThread, setAdder, Function.update_apply]
    grind

theorem Sound.unborn_step (h : s.Sound) (hs : SchedulerStep s e s') :
    ∀ i, s'.launched ≤ i → s'.thread i = .unborn := by
  have hold := h.unborn
  cases hs <;> simp only [setThread, setAdder, Function.update_apply] <;> grind

theorem Sound.born_step (h : s.Sound) (hs : SchedulerStep s e s') :
    ∀ i < s'.launched, s'.thread i ≠ .unborn := by
  have hold := h.born
  cases hs <;> simp only [setThread, setAdder, Function.update_apply] <;> grind

theorem Sound.mutex_step (h : s.Sound) (hs : SchedulerStep s e s') :
    ∀ i, (s'.thread i).holdsMutex = true → s'.locked = true := by
  have hold := h.mutex
  -- a thread that gives the mutex back is the only one in `run`
  have hlast : ∀ i n, (s.thread n).inRun = true → (s.thread i).holdsMutex = true → i = n := by
    intro i n hn hholds
    apply h.eq_of_inRun _ hn
    cases hpc : s.thread i <;> simp_all [WorkerPC.holdsMutex, WorkerPC.inRun]
  cases hs <;> simp only [setThread, setAdder, Function.update_apply] <;> grind

theorem Sound.working_step (h : s.Sound) (hs : SchedulerStep s e s') :
    ∀ i, (s'.thread i).live = true → s'.running = true := by
  have hold := h.working
  cases hs with
  | create a p hpc => exact fun _ _ => (h.starting a (by rw [hpc]; rfl)).1
  | pruneAll n keep hpc =>
    have hlast : ∀ i, (s.thread i).live = true → i = n := fun i hi =>
      h.eq_of_inRun (inRun_of_live hi) (by rw [hpc]; rfl)
    simp only [setThread, Function.update_apply]
    grind
  | _ =>
    simp only [setThread, setAdder, Function.update_apply]
    grind

theorem Sound.starting_step (h : s.Sound) (hs : SchedulerStep s e s') :
    ∀ a, (s'.adder a).starts = true → s'.running = true ∧ ∀ n, (s'.thread n).live = false := by
  have hold := h.starting
  have hworking := h.working
  cases hs with
  | create a p hpc =>
    have halone : ∀ b, (s.adder b).starts = true → a = b := fun b hb =>
      h.alone a b (by rw [hpc]; rfl) (begins_of_starts hb)
    simp only [setThread, setAdder, Function.update_apply]
    grind
  | pruneAll n keep hpc =>
    have hnone := h.not_starts (n := n) (by rw [hpc]; rfl)
    simp only [setThread, Function.update_apply]
    grind
  | _ =>
    simp only [setThread, setAdder, Function.update_apply]
    grind

theorem Sound.running_step (h : s.Sound) (hs : SchedulerStep s e s') : s'.running = true →
    (∃ a, (s'.adder a).starts = true) ∨ ∃ n, (s'.thread n).live = true := by
  have hold := h.running
  cases hs with
  | create a p hpc => exact fun _ => .inr ⟨s.launched, by simp [setThread, setAdder, WorkerPC.live]⟩
  | _ =>
    simp only [setThread, setAdder, Function.update_apply]
    grind

theorem Sound.alone_step (h : s.Sound) (hs : SchedulerStep s e s') :
    ∀ a b, (s'.adder a).begins = true → (s'.adder b).begins = true → a = b := by
  have hold := h.alone
  cases hs with
  | register a p hpc =>
    -- the one who finds no thread running finds nobody who is starting one
    have hnone : s.running = false → ∀ b, (s.adder b).begins = false := by
      intro hstopped b
      by_contra hb
      have hb : (s.adder b).begins = true := by simpa using hb
      cases hpcb : s.adder b with
      | assigning p n =>
        have hlive := h.working n (h.assigning b p n hpcb).2.2
        exact absurd (hstopped.symm.trans hlive) (by decide)
      | _ =>
        have hstarts := (h.starting b (by simpa [hpcb, AdderPC.begins] using hb)).1
        exact absurd (hstopped.symm.trans hstarts) (by decide)
    simp only [setAdder, Function.update_apply]
    grind
  | _ =>
    simp only [setThread, setAdder, Function.update_apply]
    grind

omit [DecidableEq A] [DecidableEq P] in
/-- One registration at a time empties the member. -/
theorem Sound.eq_of_emptied (h : s.Sound) {a b : A} (ha : (s.adder a).begins = true)
    (hb : (s.adder b).emptied = true) : b = a :=
  h.alone b a (begins_of_emptied hb) ha

omit [DecidableEq A] [DecidableEq P] in
/-- The thread to be joined is the last one created. -/
theorem Sound.last_of_joining (h : s.Sound) {a : A} {p : P} {n : ℕ}
    (hpc : s.adder a = .joining p) (hworker : s.worker = some n) : n + 1 = s.launched := by
  have hmember := h.member fun b => by
    by_contra hb
    obtain rfl := h.eq_of_emptied (a := a) (by rw [hpc]; rfl) (by simpa using hb)
    simp [hpc, AdderPC.emptied] at hb
  simpa [hworker] using hmember

theorem Sound.creating_step (h : s.Sound) (hs : SchedulerStep s e s') :
    ∀ a p, s'.adder a = .creating p → s'.worker = none ∧ ∀ n, (s'.thread n).inRun = false := by
  have hold := h.creating
  cases hs with
  | notJoinable a p hpc hworker =>
    -- nobody else has emptied the member, so no thread was ever created
    have hmember := h.member fun b => by
      by_contra hb
      obtain rfl := h.eq_of_emptied (a := a) (by rw [hpc]; rfl) (by simpa using hb)
      simp [hpc, AdderPC.emptied] at hb
    have hnone : ∀ n, (s.thread n).inRun = false := by
      intro n
      have hlaunched : s.launched = 0 := by simpa [hworker] using hmember
      rw [h.unborn n (by omega)]
      rfl
    exact fun _ _ _ => ⟨hworker, hnone⟩
  | join a p n hpc hworker hdone =>
    have hlast := h.last_of_joining hpc hworker
    have hnone : ∀ i, (s.thread i).inRun = false := by
      intro i
      by_contra hi
      have hlaunched := h.single i (by simpa using hi)
      obtain rfl : i = n := by omega
      simp [hdone, WorkerPC.inRun] at hi
    exact fun _ _ _ => ⟨rfl, hnone⟩
  | create a p hpc =>
    have halone : ∀ b, (s.adder b).emptied = true → b = a := fun b =>
      h.eq_of_emptied (by rw [hpc]; rfl)
    simp only [setThread, setAdder, Function.update_apply]
    grind
  | assign a p n hpc =>
    have halone : ∀ b, (s.adder b).emptied = true → b = a := fun b =>
      h.eq_of_emptied (by rw [hpc]; rfl)
    simp only [setAdder, Function.update_apply]
    grind
  | _ =>
    simp only [setThread, setAdder, Function.update_apply]
    grind

theorem Sound.assigning_step (h : s.Sound) (hs : SchedulerStep s e s') :
    ∀ a p n, s'.adder a = .assigning p n →
      s'.worker = none ∧ n + 1 = s'.launched ∧ (s'.thread n).live = true := by
  have hold := h.assigning
  cases hs with
  | create a p hpc =>
    have halone : ∀ b, (s.adder b).emptied = true → b = a := fun b =>
      h.eq_of_emptied (by rw [hpc]; rfl)
    have hworker := (h.creating a p hpc).1
    simp only [setThread, setAdder, Function.update_apply]
    grind
  | assign a p n hpc =>
    have halone : ∀ b, (s.adder b).emptied = true → b = a := fun b =>
      h.eq_of_emptied (by rw [hpc]; rfl)
    simp only [setAdder, Function.update_apply]
    grind
  | pruneAll n keep hpc hkeep hnone =>
    -- the pool of the registration is on the list and alive
    intro a p m ha
    have ha : s.adder a = .assigning p m := ha
    have hp : p ∈ s.pools := h.listed a p (by rw [ha]; rfl)
    have howned : s.owned p = true := (h.owns a p (by rw [ha]; rfl)).1
    have hmem : p ∈ s.pools.filter keep := List.mem_filter.mpr ⟨hp, hkeep p (.inl howned)⟩
    rw [hnone] at hmem
    cases hmem
  | _ =>
    simp only [setThread, setAdder, Function.update_apply]
    grind

theorem Sound.member_step (h : s.Sound) (hs : SchedulerStep s e s') :
    (∀ a, (s'.adder a).emptied = false) →
      (s'.worker = none ∧ s'.launched = 0) ∨ ∃ n, s'.worker = some n ∧ n + 1 = s'.launched := by
  have hold := h.member
  cases hs with
  | assign a p n hpc => exact fun _ => .inr ⟨n, rfl, (h.assigning a p n hpc).2.1⟩
  | _ =>
    simp only [setThread, setAdder, Function.update_apply]
    grind

theorem Sound.joining_step (h : s.Sound) (hs : SchedulerStep s e s') :
    ∀ a p, s'.adder a = .joining p → s'.worker.isSome = true := by
  have hold := h.joining
  cases hs with
  | join a p n hpc =>
    have halone : ∀ b, (s.adder b).begins = true → a = b := fun b =>
      h.alone a b (by rw [hpc]; rfl)
    simp only [setAdder, Function.update_apply]
    grind
  | _ =>
    simp only [setThread, setAdder, Function.update_apply]
    grind

theorem Sound.owns_step (h : s.Sound) (hs : SchedulerStep s e s') :
    ∀ a p, (s'.adder a).pool = some p → s'.owned p = true ∧ p ∈ s'.made ∧ p ∉ s'.added := by
  have hold := h.owns
  have hmade := h.made
  have hdistinct := h.distinct
  cases hs <;> simp only [setThread, setAdder, Function.update_apply] <;> grind

theorem Sound.distinct_step (h : s.Sound) (hs : SchedulerStep s e s') :
    ∀ a b p, (s'.adder a).pool = some p → (s'.adder b).pool = some p → a = b := by
  have hold := h.distinct
  have hmade := h.owns
  cases hs <;> simp only [setThread, setAdder, Function.update_apply] <;> grind

theorem Sound.listed_step (h : s.Sound) (hs : SchedulerStep s e s') :
    ∀ a p, (s'.adder a).registered = some p → p ∈ s'.pools := by
  have hold := h.listed
  have hpool : ∀ a p, (s.adder a).registered = some p → s.Alive p := by
    intro a p hp
    exact .inl (h.owns a p (pool_of_registered hp)).1
  cases hs with
  | pruneAll n keep hpc hkeep hnone =>
    intro a p hp
    have hmem := List.mem_filter.mpr ⟨h.listed a p hp, hkeep p (hpool a p hp)⟩
    exact absurd hmem (by simp [hnone])
  | _ =>
    simp only [setThread, setAdder, Function.update_apply]
    grind

/-- No step brings a pool to life that was made before. -/
theorem alive_of_step (hs : SchedulerStep s e s') :
    ∀ p ∈ s.made, s'.Alive p → s.Alive p := by
  unfold Alive
  cases hs with
  | collect n due hpc hdue =>
    intro p _ hp
    rcases hp with howned | ⟨i, hi⟩
    · exact .inl howned
    · by_cases hin : i = n
      · subst hin
        exact (hdue p (by simpa [setThread, WorkerPC.due] using hi)).2
      · exact .inr ⟨i, by simpa [setThread, hin] using hi⟩
  | _ =>
    simp only [setThread, setAdder, Function.update_apply]
    grind

theorem Sound.kept_step (h : s.Sound) (hs : SchedulerStep s e s') :
    ∀ p ∈ s'.added, s'.Alive p → p ∈ s'.pools := by
  intro p hp hp'
  have halive : s.Alive p → p ∈ s'.pools := by
    intro halive
    have hpools : p ∈ s.pools := by
      have hold := fun hp => h.kept p hp halive
      have hlisted := h.listed
      cases hs with
      | _ =>
        simp only [setThread, setAdder] at hp
        grind
    cases hs with
    | register a q hpc => exact List.mem_append_left _ hpools
    | prune n keep hpc hkeep => exact List.mem_filter.mpr ⟨hpools, hkeep p halive⟩
    | pruneAll n keep hpc hkeep hnone =>
      rw [← hnone]
      exact List.mem_filter.mpr ⟨hpools, hkeep p halive⟩
    | _ => exact hpools
  have hmade : p ∈ s.made := by
    have hold := h.made
    have howns := h.owns
    cases hs with
    | _ =>
      simp only [setThread, setAdder] at hp
      grind
  exact halive (alive_of_step hs p hmade hp')

theorem Sound.listening_step (h : s.Sound) (hs : SchedulerStep s e s') :
    s'.pools ≠ [] → s'.running = true := by
  have hold := h.listening
  cases hs with
  | register => exact fun _ => rfl
  | prune n keep => exact fun hne => hold fun hnil => hne (by simp [hnil])
  | pruneAll => exact fun hne => absurd rfl hne
  | _ => exact hold

theorem Sound.made_step (h : s.Sound) (hs : SchedulerStep s e s') : ∀ p ∈ s'.added, p ∈ s'.made := by
  have hold := h.made
  have howns := h.owns
  cases hs <;> simp only [setThread, setAdder] <;> grind

theorem Sound.safe_step (h : s.Sound) (hs : SchedulerStep s e s') : s'.terminated = false := by
  have hold := h.safe
  cases hs with
  | assign a p n hpc => simp [hold, (h.assigning a p n hpc).1]
  | _ => exact hold

theorem Sound.step (h : s.Sound) (hs : SchedulerStep s e s') : s'.Sound where
  single := h.single_step hs
  unborn := h.unborn_step hs
  born := h.born_step hs
  mutex := h.mutex_step hs
  working := h.working_step hs
  starting := h.starting_step hs
  running := h.running_step hs
  alone := h.alone_step hs
  creating := h.creating_step hs
  assigning := h.assigning_step hs
  member := h.member_step hs
  joining := h.joining_step hs
  owns := h.owns_step hs
  distinct := h.distinct_step hs
  listed := h.listed_step hs
  listening := h.listening_step hs
  kept := h.kept_step hs
  made := h.made_step hs
  safe := h.safe_step hs

theorem sound_of_reachable (h : (scheduling A P).Reachable s) : s.Sound := by
  apply h.invariant
  · rintro _ rfl
    exact sound_start
  · intro _ _ _ _ hsound _ hs
    exact hsound.step hs

/-- A thread is in `run` and stays, or a registration is creating one: its next step can be taken,
if not now then when the old thread has taken its last one. -/
def Underway (s : Scheduler A P) : Prop :=
  s.running = true ∧ ((∃ n, (s.thread n).live = true) ∨
    ∃ a, (s.adder a).starts = true ∧ ((∃ e s', SchedulerStep s e s' ∧ s'.adder a ≠ s.adder a) ∨
      ∃ n, s.worker = some n ∧ s.thread n = .leaving))

/-- Nothing but the exit of the old thread holds a registration up that starts a new one. -/
theorem Sound.proceeds (h : s.Sound) {a : A} (ha : (s.adder a).starts = true) :
    (∃ e s', SchedulerStep s e s' ∧ s'.adder a ≠ s.adder a) ∨
      ∃ n, s.worker = some n ∧ s.thread n = .leaving := by
  cases hpc : s.adder a with
  | notifying p needStart =>
    obtain rfl : needStart = true := by simpa [hpc, AdderPC.starts] using ha
    exact .inl ⟨_, _, .notify s a p hpc, by simp [setAdder]⟩
  | checking p =>
    cases hworker : s.worker with
    | none => exact .inl ⟨_, _, .notJoinable s a p hpc hworker, by simp [setAdder]⟩
    | some n => exact .inl ⟨_, _, .joinable s a p hpc (by simp [hworker]), by simp [setAdder]⟩
  | joining p =>
    obtain ⟨n, hworker⟩ := Option.isSome_iff_exists.mp (h.joining a p hpc)
    have hlast := h.last_of_joining hpc hworker
    have hstill : (s.thread n).live = false := (h.starting a ha).2 n
    cases hthread : s.thread n with
    | finished => exact .inl ⟨_, _, .join s a p n hpc hworker hthread, by simp [setAdder]⟩
    | leaving => exact .inr ⟨n, hworker, hthread⟩
    | unborn => exact absurd hthread (h.born n (by omega))
    | _ => simp [hthread, WorkerPC.live] at hstill
  | creating p => exact .inl ⟨_, _, .create s a p hpc, by simp [setAdder]⟩
  | idle => simp [hpc, AdderPC.starts] at ha
  | entering p => simp [hpc, AdderPC.starts] at ha
  | assigning p n => simp [hpc, AdderPC.starts] at ha

/-- However registrations, deaths of pools and passes interleave: at most one thread is in `run` or
about to enter it, the member is never assigned while it holds a thread that was not joined, and a
pool whose registration has returned stays on the list, with a worker under way, while it lives. -/
theorem one_worker_serves_every_pool (h : (scheduling A P).Reachable s) :
    (∀ i j, (s.thread i).inRun = true → (s.thread j).inRun = true → i = j) ∧
      s.terminated = false ∧ ∀ p ∈ s.added, s.Alive p → p ∈ s.pools ∧ s.Underway := by
  have hsound := sound_of_reachable h
  refine ⟨fun i j => hsound.eq_of_inRun, hsound.safe, ?_⟩
  intro p hp halive
  have hpool := hsound.kept p hp halive
  have hrunning := hsound.listening (List.ne_nil_of_mem hpool)
  refine ⟨hpool, hrunning, ?_⟩
  rcases hsound.running hrunning with ⟨a, ha⟩ | hlive
  · exact .inr ⟨a, ha, hsound.proceeds ha⟩
  · exact .inl hlive

end

/-- A pool is registered while another registration is about to create the worker: its `add` has
returned, and no thread is in `run` or about to enter it. -/
theorem pool_without_worker : ¬ ∀ s, (scheduling Bool Bool).Reachable s → ∀ p ∈ s.added, s.Alive p →
    p ∈ s.pools ∧ s.running = true ∧ ∃ n, (s.thread n).inRun = true := by
  intro hserved
  have hstarting := ((@System.Reach.start _ _ (scheduling Bool Bool) (fun _ _ => True) _ rfl).next
    trivial (.construct start false false rfl (by simp [start]))).next trivial
    (.register _ false false rfl rfl)
  have hlisted := (hstarting.next trivial (.construct _ true true rfl (by simp [start, setAdder]))).next
    trivial (.register _ true true rfl rfl)
  have hadded := hlisted.next trivial (.notified _ true true rfl)
  obtain ⟨-, -, n, hn⟩ := hserved _ hadded true List.mem_cons_self (.inl rfl)
  cases hn

/-- A pool is registered and dies, its worker leaves, and the next registration joins that worker
and starts one of its own. -/
theorem second_pool_served : ∃ s : Scheduler Bool Bool, s.added = [true, false] ∧
    ¬ s.Alive false ∧ s.thread 0 = .finished ∧ s.worker = some 1 ∧ true ∈ s.pools ∧ s.Underway := by
  have hcreated := ((((@System.Reach.start _ _ (scheduling Bool Bool) (fun _ _ => True) _ rfl).next
    trivial (.construct start false false rfl (by simp [start]))).next trivial
    (.register _ false false rfl rfl)).next trivial (.notify _ false false rfl)).next trivial
    (.notJoinable _ false false rfl rfl)
  have hworking := ((hcreated.next trivial (.create _ false false rfl)).next trivial
    (.assign _ false false 0 rfl)).next trivial (.enter _ 0 rfl rfl)
  have hdead := hworking.next trivial (.drop _ false List.mem_cons_self)
  have hleft := (hdead.next trivial (.pruneAll _ 0 (fun _ => false) rfl ?_ rfl)).next trivial
    (.leave _ 0 rfl)
  · have hjoined := (((hleft.next trivial (.construct _ true true rfl (by simp [start, setAdder,
      setThread]))).next trivial (.register _ true true rfl rfl)).next trivial
      (.notify _ true true rfl)).next trivial (.joinable _ true true rfl rfl)
    have hadded := ((hjoined.next trivial (.join _ true true 0 rfl rfl rfl)).next trivial
      (.create _ true true rfl)).next trivial (.assign _ true true 1 rfl)
    refine ⟨_, rfl, ?_, rfl, rfl,
      (one_worker_serves_every_pool hadded).2.2 true List.mem_cons_self (.inl rfl)⟩
    rintro (howned | ⟨n, hn⟩)
    · cases howned
    · rcases n with - | - | n <;> cases hn
  · rintro p (howned | ⟨n, hn⟩)
    · cases p <;> cases howned
    · cases n <;> cases hn

end Scheduler

end Uniorm.Pool
