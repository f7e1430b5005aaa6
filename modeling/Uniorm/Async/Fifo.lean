import Uniorm.Async.Machine

/-! # First in, first out, one at a time

The two flags of the queue against what the threads are doing: `in_flight_` is up exactly while one
operation is between its start and its `finish`, `draining_` exactly while one thread is inside
`drain`, and the mutex exactly while one thread is in a stretch of code that holds it. From these
the order of the queue follows, for every run.
-/
namespace Uniorm.Async

open Foundation

variable {T O V E : Type*} {kind : O → Kind} {live : V → Bool}

namespace Frame

/-- The frames that have an operation of the session between its start and its `finish`. -/
def turn (kind : O → Kind) : Frame O E → ℕ
  | calling _ | threw _ | finish .. | finishing .. => 1
  | begin op | running op | callback op | final op _ => if (kind op).bound then 1 else 0
  | _ => 0

/-- The frames inside `drain`. -/
def drain : Frame O E → ℕ
  | loop | calling _ | starting _ | threw _ | relocked .. | walked _ => 1
  | _ => 0

/-- `drain` with the mutex and the slot free, on its way to the head of its loop. -/
def head : Frame O E → ℕ
  | loop => 1
  | relocked _ thrown | walked thrown => thrown.toNat
  | _ => 0

def lock : Frame O E → ℕ
  | pushing .. | finishing .. => 1
  | relocked _ thrown | walked thrown => (!thrown).toNat
  | _ => 0

def Queued (kind : O → Kind) : Frame O E → Prop
  | push start _ | pushing start _ | calling start => (kind start.op).bound = true
  | _ => True

end Frame

namespace Shared

/-- The closures that have an operation of the session between its start and its `finish`. -/
def turns (kind : O → Kind) (g : Shared O V E) : ℕ := g.pending.countP fun op => (kind op).bound

/-- Only coroutines of the caller's wait for a task. -/
def Parents (kind : O → Kind) (g : Shared O V E) : Prop :=
  Cores (fun _ c => ∀ parent, c.continuation = some parent → kind parent = .coroutine) g.core

end Shared

section
variable [DecidableEq O] {f : Frame O E} {g g' : Shared O V E} {e : Event O}
  {fs : List (Frame O E)}

theorem Rule.parents (h : Rule kind live f g e fs g') (hp : g.Parents kind) : g'.Parents kind := by
  cases h with
  | coAwait _ op parent user =>
    apply Cores.update hp
    rintro _ ⟨⟩
    exact user
  | awaitAgain _ op parent user =>
    apply Cores.update hp
    rintro _ ⟨⟩
    exact user
  | _ => first | exact hp | exact Cores.update hp (hp _)

/-- The turn goes with the flag. -/
theorem Rule.turn_eq (h : Rule kind live f g e fs g') (hp : g.Parents kind) (hq : f.Queued kind)
    (hhead : 0 < f.head → g.queue.inFlight = false)
    (hturn : 0 < f.turn kind → g.queue.inFlight = true) :
    (fs.map (Frame.turn kind)).sum + g'.turns kind + g.queue.inFlight.toNat =
      f.turn kind + g.turns kind + g'.queue.inFlight.toNat := by
  cases h with
  | failAwait _ op parent _ _ _ parked =>
    simp [Frame.turn, Shared.turns, hp op parent parked, Kind.bound]
  | resume _ op parent _ _ parked =>
    simp [Frame.turn, Shared.turns, hp op parent parked, Kind.bound]
  | coAwait _ op parent user =>
    simp [Frame.turn, Shared.turns, user, Kind.bound]
  | _ =>
    simp_all [Frame.turn, Frame.head, Frame.Queued, Shared.turns, List.countP_cons] <;> omega

theorem Rule.drain_eq (h : Rule kind live f g e fs g')
    (hdrain : 0 < f.drain → g.queue.draining = true) :
    (fs.map Frame.drain).sum + g.queue.draining.toNat =
      f.drain + g'.queue.draining.toNat := by
  cases h <;>
    simp_all [Frame.drain, Queue.walks]

theorem Rule.lock_eq (h : Rule kind live f g e fs g')
    (hlock : 0 < f.head + f.lock → g.mutex = true) :
    (fs.map Frame.head).sum + (fs.map Frame.lock).sum + g.mutex.toNat =
      f.head + f.lock + g'.mutex.toNat := by
  cases h with
  | walkOn _ thrown => cases thrown <;> rfl
  | _ => simp_all [Frame.lock, Frame.head]

/-- `drain` gets to the head of its loop only with the slot free. -/
theorem Rule.head_free (h : Rule kind live f g e fs g')
    (hhead : 0 < f.head → g.queue.inFlight = false) (hnew : 0 < (fs.map Frame.head).sum) :
    g'.queue.inFlight = false := by
  cases h with
  | walkOn _ thrown done => cases thrown <;> simp_all [Frame.head]
  | _ =>
    simp_all [Frame.head, Queue.walks]

/-- The slot changes hands only under the mutex. -/
theorem Rule.inFlight_locked (h : Rule kind live f g e fs g')
    (hchange : g'.queue.inFlight ≠ g.queue.inFlight) :
    0 < f.head ∨ 0 < f.lock ∨ g.mutex = false := by
  cases h <;>
    simp_all [Frame.head, Frame.lock]

theorem Rule.queued_frames (h : Rule kind live f g e fs g') (hq : f.Queued kind)
    (hw : ∀ st ∈ g.queue.waiting, (kind st.op).bound = true) : ∀ x ∈ fs, x.Queued kind := by
  cases h <;> simp_all [Frame.Queued, or_imp, forall_and]

theorem Rule.requests (h : Rule kind live f g e fs g') (hq : f.Queued kind)
    (ha : ∀ st ∈ g.accepted, (kind st.op).bound = true) :
    ∀ st ∈ g'.accepted, (kind st.op).bound = true := by
  cases h <;> simp_all [Frame.Queued, or_imp, forall_and]

/-- Starters are called in the order they came in, each once. -/
theorem Rule.order (h : Rule kind live f g e fs g')
    (ho : g.accepted = g.started ++ g.queue.waiting) :
    g'.accepted = g'.started ++ g'.queue.waiting := by
  cases h <;>
    simp_all

/-- Whoever leaves requests behind leaves an operation running or `drain` at work. -/
theorem Rule.walker (h : Rule kind live f g e fs g')
    (hdrain : 0 < f.drain → g.queue.draining = true)
    (hw : g.queue.waiting ≠ [] → g.queue.inFlight = false → g.queue.draining = true) :
    g'.queue.waiting ≠ [] → g'.queue.inFlight = false → g'.queue.draining = true := by
  cases h <;>
    simp_all [Frame.drain, Queue.walks]

end

section
variable [DecidableEq O] [Fintype T] [DecidableEq T] {s s' : Conf T (Frame O E) (Shared O V E)}
  {a : T × Event O}

/-- The flags of the queue, its mutex and its history against the stacks. -/
structure Orderly (kind : O → Kind) (s : Conf T (Frame O E) (Shared O V E)) : Prop where
  parents : s.shared.Parents kind
  queued : s.Everywhere (Frame.Queued kind)
  requests : ∀ st ∈ s.shared.accepted, (kind st.op).bound = true
  turn : s.total (Frame.turn kind) + s.shared.turns kind = s.shared.queue.inFlight.toNat
  drain : s.total Frame.drain = s.shared.queue.draining.toNat
  lock : s.total Frame.head + s.total Frame.lock = s.shared.mutex.toNat
  head : 0 < s.total Frame.head → s.shared.queue.inFlight = false
  order : s.shared.accepted = s.shared.started ++ s.shared.queue.waiting
  walker : s.shared.queue.waiting ≠ [] → s.shared.queue.inFlight = false →
    s.shared.queue.draining = true

omit [DecidableEq O] [DecidableEq T] in
theorem orderly_fresh : Orderly kind (fresh : Conf T (Frame O E) (Shared O V E)) := by
  constructor <;>
    simp [fresh, Queue.new, Shared.Parents, Cores, Core.new, Conf.Everywhere, Frame.Queued,
      Conf.total, Frame.turn, Frame.drain, Frame.head, Frame.lock, Shared.turns]

theorem toNat_pos {b : Bool} (h : 0 < b.toNat) : b = true := by
  cases b with
  | true => rfl
  | false => exact absurd h (lt_irrefl 0)

theorem Orderly.step (h : Orderly kind s) (hs : (session T kind live).step s a s') :
    Orderly kind s' := by
  have hs' := hs
  cases hs with
  | @run t f rest fs e g top rule =>
    have hmem : f ∈ s.stack t := top ▸ List.mem_cons_self
    have hturn := Conf.le_total (Frame.turn kind) hmem
    have hdrain := Conf.le_total Frame.drain hmem
    have hhead := Conf.le_total Frame.head hmem
    have hlock := Conf.le_total Frame.lock hmem
    have htn := h.turn
    have hdn := h.drain
    have hln := h.lock
    have hfree : 0 < f.head → s.shared.queue.inFlight = false := fun hf => h.head (by omega)
    have hdraining : 0 < f.drain → s.shared.queue.draining = true :=
      fun hf => toNat_pos (by omega)
    have hnew := fun c : Frame O E → ℕ => Conf.total_set c fs g top
    have hqf := h.queued t f hmem
    have hwaiting : ∀ st ∈ s.shared.queue.waiting, (kind st.op).bound = true :=
      fun st hst => h.requests st (h.order ▸ List.mem_append_right _ hst)
    constructor
    · exact rule.parents h.parents
    · exact h.queued.step hs' (fun _ _ _ hx => hx) fun _ _ _ hf hr => hr.queued_frames hf hwaiting
    · exact rule.requests hqf h.requests
    · have hrule := rule.turn_eq h.parents hqf hfree fun hf => toNat_pos (by omega)
      have hsum := hnew (Frame.turn kind)
      rw [Conf.set_shared]
      omega
    · have hrule := rule.drain_eq hdraining
      have hsum := hnew Frame.drain
      rw [Conf.set_shared]
      omega
    · have hrule := rule.lock_eq fun hf => toNat_pos (by omega)
      have hsum := hnew Frame.head
      have hsum' := hnew Frame.lock
      rw [Conf.set_shared]
      omega
    · intro hpos
      have hsum := hnew Frame.head
      by_cases hfs : 0 < (fs.map Frame.head).sum
      · exact rule.head_free hfree hfs
      · have hold : s.shared.queue.inFlight = false := h.head (by omega)
        by_contra hchange
        have hbool : s.shared.mutex.toNat ≤ 1 := Bool.toNat_le _
        -- whoever changes the slot is the one with the mutex, so no other thread is at the head
        rcases rule.inFlight_locked (hold ▸ hchange) with hf | hf | hf
        · omega
        · omega
        · rw [hf, Bool.toNat_false] at hln
          omega
    · exact rule.order h.order
    · exact rule.walker hdraining h.walker

theorem orderly (kind : O → Kind) (live : V → Bool) (h : (session T kind live).Reachable s) :
    Orderly kind s := by
  apply h.invariant
  · rintro _ rfl
    exact orderly_fresh
  · exact fun _ _ _ _ hi _ hs => hi.step hs

/-- What the queue promises. -/
structure Fifo (kind : O → Kind) (s : Conf T (Frame O E) (Shared O V E)) : Prop where
  /-- at most one operation is between its start and its `finish` -/
  single : s.total (Frame.turn kind) + s.shared.turns kind ≤ 1
  /-- what was accepted is what was called, in that order, and what still waits behind it -/
  inOrder : s.shared.accepted = s.shared.started ++ s.shared.queue.waiting
  /-- requests that nothing runs ahead of have a thread inside `drain` -/
  walked : s.shared.queue.waiting ≠ [] → s.shared.queue.inFlight = false →
    s.shared.queue.draining = true ∧ ∃ t, ∃ f ∈ s.stack t, 0 < f.drain

omit [DecidableEq O] [DecidableEq T] in
theorem Orderly.fifo (h : Orderly kind s) : Fifo kind s := by
  refine ⟨?_, h.order, ?_⟩
  · rw [h.turn]
    exact Bool.toNat_le _
  · intro hwaiting hidle
    have hdraining := h.walker hwaiting hidle
    refine ⟨hdraining, Conf.exists_of_total_pos ?_⟩
    rw [h.drain, hdraining]
    exact Nat.one_pos

/-- A push under the lock is refused or accepted by the limit it reads, and if refused leaves all
but the lock as it was. -/
theorem Rule.push_decided {start : Starter O} {mode : Drive} {g g' : Shared O V E} {e : Event O}
    {fs : List (Frame O E)} (h : Rule kind live (.pushing start mode) g e fs g') :
    (g.queue.limit ≤ g.queue.pending → e = .refuse start ∧ g' = { g with mutex := false }) ∧
      (g.queue.pending < g.queue.limit →
        e = .accept start ∧ g'.accepted = g.accepted ++ [start]) := by
  cases h with
  | overflow _ _ _ full =>
    have hle := of_decide_eq_true full
    exact ⟨fun _ => ⟨rfl, rfl⟩, fun hlt => absurd hlt (not_lt.mpr hle)⟩
  | queued _ _ _ room =>
    have hle := of_decide_eq_false room
    exact ⟨fun h => absurd h hle, fun _ => ⟨rfl, rfl⟩⟩
  | queuedWalks _ _ _ room =>
    have hle := of_decide_eq_false room
    exact ⟨fun h => absurd h hle, fun _ => ⟨rfl, rfl⟩⟩
  | _ => exact absurd ‹Frame.isUser kind (.pushing start mode) = true› Bool.false_ne_true

/-- For any number of threads, any executors and any use of the session: one operation at a time,
in the order of acceptance, and a push refused exactly when the limit it reads is reached. -/
theorem session_is_fifo (kind : O → Kind) (live : V → Bool)
    (h : (session T kind live).Reachable s) :
    Fifo kind s ∧ ∀ (t : T) (e : Event O) (start : Starter O) (mode : Drive)
      (rest : List (Frame O E)) (s' : Conf T (Frame O E) (Shared O V E)),
      s.stack t = .pushing start mode :: rest → (session T kind live).step s (t, e) s' →
      (s.shared.queue.limit ≤ s.shared.queue.pending →
        e = .refuse start ∧ s'.shared = { s.shared with mutex := false }) ∧
      (s.shared.queue.pending < s.shared.queue.limit →
        e = .accept start ∧ s'.shared.accepted = s.shared.accepted ++ [start]) := by
  refine ⟨(orderly kind live h).fifo, ?_⟩
  intro t e start mode rest s' htop hs
  cases hs with
  | run _ top rule =>
    obtain ⟨rfl, -⟩ := List.cons.inj (htop.symm.trans top)
    exact rule.push_decided

end

/-- One thread starts two operations; the executor takes the first for later. -/
theorem second_request_waits_its_turn :
    ∃ s : Conf Bool (Frame Bool Unit) (Shared Bool Unit Unit),
      (session Bool (fun _ => .session true false) fun _ => false).Reachable s ∧
      s.shared.queue.waiting = [⟨true, false⟩] ∧ s.shared.started = [⟨false, false⟩] ∧
      Fifo (fun _ => .session true false) s := by
  let kind : Bool → Kind := fun _ => .session true false
  let live : Unit → Bool := fun _ => false
  have h0 : (session Bool (E := Unit) kind live).Reachable fresh := .start rfl
  have h1 := Machine.reach_run h0 false rfl
    (.start .base _ false false .held rfl (by decide) (by decide) rfl rfl) trivial
  have h2 := Machine.reach_run h1 false rfl (.launchBound _ _ _ rfl) trivial
  have h3 := Machine.reach_run h2 false rfl (.lockPush _ _ _ rfl) trivial
  have h4 := Machine.reach_run h3 false rfl (.queuedWalks _ _ _ rfl rfl) trivial
  have h5 := Machine.reach_run h4 false rfl (.next _ _ _ rfl) trivial
  have h6 := Machine.reach_run h5 false rfl (.found _ _) trivial
  have h7 := Machine.reach_run h6 false rfl (.submit _ _) trivial
  have h8 := Machine.reach_run h7 false rfl (.relock _ _ rfl) trivial
  have h9 := Machine.reach_run h8 false rfl (.destroyStarter _ _ _) trivial
  have h10 := Machine.reach_run h9 false rfl (.stillRunning _ rfl) trivial
  have h11 := Machine.reach_run h10 false rfl (.launched _ _ _) trivial
  have h12 := Machine.reach_run h11 false rfl (.detached _ _) trivial
  have h13 := Machine.reach_run h12 false rfl
    (.start .base _ true false .held rfl (by decide) (by decide) rfl rfl) trivial
  have h14 := Machine.reach_run h13 false rfl (.launchBound _ _ _ rfl) trivial
  have h15 := Machine.reach_run h14 false rfl (.lockPush _ _ _ rfl) trivial
  have h16 := Machine.reach_run h15 false rfl (.queued _ _ _ rfl rfl) trivial
  exact ⟨_, h16, rfl, rfl, (session_is_fifo kind live h16).1⟩

end Uniorm.Async
