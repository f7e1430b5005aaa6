import Uniorm.Async.Fifo

/-! # The queue when `wait_idle` has returned

One thread drives the operations and then waits for the session to go quiet, as `~orm()` does before
it destroys the queue. What the waiter looks at is the requests and the slot, not whether a worker
is still inside `drain` with its starter running and the mutex still to be taken again.
-/
namespace Uniorm.Async

open Foundation

variable {T O V E : Type*} {kind : O → Kind} {live : V → Bool}

namespace Frame

/-- The frames inside `push`, `finish` and `drain`. -/
def inQueue : Frame O E → Bool
  | push .. | pushing .. | finish .. | finishing .. => true
  | loop | calling _ | starting _ | threw _ | relocked .. | walked _ => true
  | _ => false

/-- A drive action up to the end of its `push`. -/
def submitting : Frame O E → Bool
  | launch .. | push .. | pushing .. => true
  | _ => false

/-- `drain` with its starter running or back and the mutex not yet taken again. -/
def walking : Frame O E → ℕ
  | starting _ => 1
  | _ => 0

/-- The rest of `drain`. -/
def walkingElse : Frame O E → ℕ
  | loop | calling _ | threw _ | relocked .. | walked _ => 1
  | _ => 0

theorem drain_eq (f : Frame O E) : f.drain = f.walking + f.walkingElse := by
  cases f <;> rfl

end Frame

section
variable [DecidableEq O] {f : Frame O E} {g g' : Shared O V E} {e : Event O}
  {fs : List (Frame O E)}

/-- Only a drive action goes to the queue. -/
theorem Rule.submitting_new (h : Rule kind live f g e fs g') (hf : f.submitting = false)
    (he : ∀ op mode, e ≠ .drive op mode) : ∀ x ∈ fs, x.submitting = false := by
  cases h <;> simp_all [Frame.submitting, or_imp, forall_and]

/-- `drain` calls a starter with the slot taken. -/
theorem Rule.walking_new (h : Rule kind live f g e fs g') :
    ∀ x ∈ fs, 0 < x.walking → x = f ∨ 0 < f.turn kind ∧ g'.queue = g.queue := by
  cases h <;> simp [Frame.walking, Frame.turn, or_imp, forall_and]

/-- The queue goes idle by a `finish` that finds nothing waiting, or in `drain` when a starter
threw. -/
theorem Rule.goes_idle (h : Rule kind live f g e fs g') (hbusy : g.queue.idle = false)
    (hidle : g'.queue.idle = true) :
    (∃ op, e = .finish op) ∧ g.queue.waiting = [] ∨ 0 < f.walkingElse ∧ f.walking = 0 := by
  cases h <;>
    simp_all [Frame.walkingElse, Frame.walking, Queue.idle]

end

section
variable [DecidableEq O] [Fintype T] [DecidableEq T] {s s' : Conf T (Frame O E) (Shared O V E)}
  {a : T × Event O} {u : T}

/-- Every drive action is made by one thread. -/
def DrivenBy (u : T) (_ : Conf T (Frame O E) (Shared O V E)) (a : T × Event O) : Prop :=
  ∀ op mode, a.2 = .drive op mode → a.1 = u

/-- A `finish` that finds nothing waiting finds no other thread than `u` on its way back into
`drain`. -/
def FinishesAlone (u : T) (s : Conf T (Frame O E) (Shared O V E)) (a : T × Event O) : Prop :=
  ∀ op, a.2 = .finish op → s.shared.queue.waiting = [] →
    ∀ t ≠ u, ∀ f ∈ s.stack t, f.walking = 0

/-- What the other threads are not doing. -/
structure Watched (u : T) (s : Conf T (Frame O E) (Shared O V E)) : Prop where
  drivers : ∀ t ≠ u, ∀ f ∈ s.stack t, f.submitting = false
  walkers : ∀ t ≠ u, ∀ f ∈ s.stack t, 0 < f.walking → s.shared.queue.idle = false

omit [DecidableEq O] [DecidableEq T] in
/-- One thread is inside `drain` at most. -/
theorem Orderly.not_walking_and_else (h : Orderly kind s) {t i : T} {x f : Frame O E}
    (hx : x ∈ s.stack i) (hwalking : 0 < x.walking) (hf : f ∈ s.stack t)
    (helse : 0 < f.walkingElse) : False := by
  have hone := Conf.le_total Frame.walking hx
  have hother := Conf.le_total Frame.walkingElse hf
  have hsplit : s.total Frame.drain = s.total Frame.walking + s.total Frame.walkingElse := by
    rw [← Conf.total_add]
    exact congrArg s.total (funext Frame.drain_eq)
  have hdrain := h.drain
  have hle := Bool.toNat_le s.shared.queue.draining
  omega

theorem Watched.step (h : Watched u s) (ho : Orderly kind s) (hd : DrivenBy u s a)
    (hf : FinishesAlone u s a) (hs : (session T kind live).step s a s') : Watched u s' := by
  cases hs with
  | @run t f rest fs e g top rule =>
    have hmem : f ∈ s.stack t := top ▸ List.mem_cons_self
    have hkept : ∀ i ≠ u, ∀ x ∈ s.stack i, 0 < x.walking → g.queue.idle = false := by
      intro i hi x hx hwalking
      by_contra hidle
      rw [Bool.not_eq_false] at hidle
      rcases rule.goes_idle (h.walkers i hi x hx hwalking) hidle with ⟨⟨op, he⟩, hempty⟩ | hdrain
      · exact hwalking.ne' (hf op he hempty i hi x hx)
      · exact ho.not_walking_and_else hx hwalking hmem hdrain.1
    constructor
    · intro i hi x hx
      rcases Conf.mem_set top hx with hold | ⟨rfl, hnew⟩
      · exact h.drivers i hi x hold
      · apply rule.submitting_new (h.drivers i hi f hmem) _ x hnew
        exact fun op mode he => hi (hd op mode he)
    · intro i hi x hx hwalking
      rcases Conf.mem_set top hx with hold | ⟨rfl, hnew⟩
      · exact hkept i hi x hold hwalking
      · rcases rule.walking_new x hnew hwalking with rfl | ⟨hturn, hqueue⟩
        · exact hkept i hi x hmem hwalking
        · have hle := Conf.le_total (Frame.turn kind) hmem
          have htaken := toNat_pos (b := s.shared.queue.inFlight) (by have := ho.turn; omega)
          rw [Conf.set_shared, hqueue, Queue.idle, htaken, Bool.not_true, Bool.and_false]

/-- Where no `finish` empties the queue behind the back of another thread's `drain`, the queue is
nobody's when the driving thread's wait is over. -/
theorem wait_idle_leaves_queue_alone (kind : O → Kind) (live : V → Bool) (u : T)
    (h : (session T kind live).Reach (fun s a => DrivenBy u s a ∧ FinishesAlone u s a) s)
    (hbase : s.stack u = [.waitIdle, .base])
    (hs : (session T kind live).step s (u, .waitReturns) s') :
    ∀ t, ∀ f ∈ s'.stack t, f.inQueue = false := by
  have ho := orderly kind live h.reachable
  have hw : Watched u s := by
    apply h.invariant
    · rintro _ rfl
      constructor <;> simp [fresh, Frame.submitting, Frame.walking]
    · exact fun _ _ _ hr hi hok hs => hi.step (orderly kind live hr.reachable) hok.1 hok.2 hs
  cases hs with
  | @run _ f rest fs _ g top rule =>
    obtain ⟨rfl, rfl⟩ := List.cons.inj (hbase.symm.trans top)
    cases rule with
    | waitReturns _ unlocked idle =>
      intro t x hx
      by_cases ht : t = u
      · subst ht
        rw [Conf.set_stack_self] at hx
        rw [List.mem_singleton.mp hx]
        rfl
      · rw [Conf.set_stack_of_ne ht] at hx
        have hturn := Conf.le_total (Frame.turn kind) hx
        have hhead := Conf.le_total Frame.head hx
        have hlock := Conf.le_total Frame.lock hx
        have hidle := ((Queue.idle_iff _).mp idle).2
        have htn := ho.turn
        have hln := ho.lock
        rw [hidle, Bool.toNat_false] at htn
        rw [unlocked, Bool.toNat_false] at hln
        have hdriver := hw.drivers t ht x hx
        have hwalker := hw.walkers t ht x hx
        cases x <;>
          simp_all [Frame.inQueue, Frame.submitting, Frame.walking, Frame.turn, Frame.head,
            Frame.lock]

end

/-- One operation, run by a worker while the driving thread has left the queue. -/
theorem queue_alone_after_one_operation :
    ∃ s s' : Conf Bool (Frame Unit Unit) (Shared Unit Unit Unit),
      (session Bool (fun _ => .session true false) fun _ => false).step s
        (false, .waitReturns) s' ∧
      s'.shared.covered = [⟨(), false⟩] ∧ ∀ t, ∀ f ∈ s'.stack t, f.inQueue = false := by
  let kind : Unit → Kind := fun _ => .session true false
  let live : Unit → Bool := fun _ => false
  have halone : ∀ (s : Conf Bool (Frame Unit Unit) (Shared Unit Unit Unit)) (a : Bool × Event Unit),
      (∀ f ∈ s.stack true, f.walking = 0) → FinishesAlone false s a := by
    intro s a h _ _ _ t ht
    cases t with
    | false => exact absurd rfl ht
    | true => exact h
  have h0 : (session Bool (E := Unit) kind live).Reach
      (fun s a => DrivenBy false s a ∧ FinishesAlone false s a) fresh := .start rfl
  have h1 := Machine.reach_run h0 false rfl
    (.start .base _ () false .held rfl (by decide) (by decide) rfl rfl) ⟨fun _ _ _ => rfl, nofun⟩
  have h2 := Machine.reach_run h1 false rfl (.launchBound _ _ _ rfl) ⟨nofun, nofun⟩
  have h3 := Machine.reach_run h2 false rfl (.lockPush _ _ _ rfl) ⟨nofun, nofun⟩
  have h4 := Machine.reach_run h3 false rfl (.queuedWalks _ _ _ rfl rfl) ⟨nofun, nofun⟩
  have h5 := Machine.reach_run h4 false rfl (.next _ _ _ rfl) ⟨nofun, nofun⟩
  have h6 := Machine.reach_run h5 false rfl (.found _ _) ⟨nofun, nofun⟩
  have h7 := Machine.reach_run h6 false rfl (.submit _ _) ⟨nofun, nofun⟩
  have h8 := Machine.reach_run h7 false rfl (.relock _ _ rfl) ⟨nofun, nofun⟩
  have h9 := Machine.reach_run h8 false rfl (.destroyStarter _ _ _) ⟨nofun, nofun⟩
  have h10 := Machine.reach_run h9 false rfl (.stillRunning _ rfl) ⟨nofun, nofun⟩
  have h11 := Machine.reach_run h10 false rfl (.launched _ _ _) ⟨nofun, nofun⟩
  have h12 := Machine.reach_run h11 false rfl (.detached _ _) ⟨nofun, nofun⟩
  have h13 := Machine.reach_run h12 true rfl (.runBody .base _ () [] [] rfl rfl rfl) ⟨nofun, nofun⟩
  have h14 := Machine.reach_run h13 true rfl (.returns _ _ none rfl) ⟨nofun, nofun⟩
  have h15 := Machine.reach_run h14 true rfl (.finalBound _ _ _ rfl) ⟨nofun, nofun⟩
  have h16 := Machine.reach_run h15 true rfl (.lockFinish _ _ _ rfl) ⟨nofun, nofun⟩
  have hworker : ∀ f ∈ ([.finishing () false, .holding (), .base] :
      List (Frame Unit Unit)), f.walking = 0 := by
    simp [Frame.walking]
  have h17 := Machine.reach_run h16 true rfl (.finishWalks _ _ _ rfl)
    ⟨nofun, halone _ _ hworker⟩
  have h18 := Machine.reach_run h17 true rfl (.drained _ rfl) ⟨nofun, nofun⟩
  have h19 := Machine.reach_run h18 false rfl (.waitAllOperations .base _ rfl) ⟨nofun, nofun⟩
  have hstep := Machine.reach_step h19 false rfl (.waitReturns _ rfl rfl)
  exact ⟨_, _, hstep, rfl, wait_idle_leaves_queue_alone kind live false h19 rfl hstep⟩

/-- A worker starts the second operation from its `finish` of the first. Another worker runs it and
frees the slot, and the driving thread's wait is over with the first worker still to take the mutex
again. -/
theorem drain_outlives_wait_idle :
    ∃ s s' : Conf (Fin 3) (Frame Bool Unit) (Shared Bool Unit Unit),
      (session (Fin 3) (fun _ => .session true false) fun _ => false).Reach (DrivenBy 0) s ∧
      s.stack 0 = [.waitIdle, .base] ∧
      (session (Fin 3) (fun _ => .session true false) fun _ => false).step s
        (0, .waitReturns) s' ∧
      ∃ f ∈ s'.stack 1, f.inQueue = true := by
  let kind : Bool → Kind := fun _ => .session true false
  have h0 : (session (Fin 3) (E := Unit) kind fun _ : Unit => false).Reach (DrivenBy 0) fresh :=
    .start rfl
  -- the first operation goes to the executor, the second waits behind it
  have h1 := Machine.reach_run h0 0 rfl
    (.start .base _ false false .held rfl (by decide) (by decide) rfl rfl) fun _ _ _ => rfl
  have h2 := Machine.reach_run h1 0 rfl (.launchBound _ _ _ rfl) nofun
  have h3 := Machine.reach_run h2 0 rfl (.lockPush _ _ _ rfl) nofun
  have h4 := Machine.reach_run h3 0 rfl (.queuedWalks _ _ _ rfl rfl) nofun
  have h5 := Machine.reach_run h4 0 rfl (.next _ _ _ rfl) nofun
  have h6 := Machine.reach_run h5 0 rfl (.found _ _) nofun
  have h7 := Machine.reach_run h6 0 rfl (.submit _ _) nofun
  have h8 := Machine.reach_run h7 0 rfl (.relock _ _ rfl) nofun
  have h9 := Machine.reach_run h8 0 rfl (.destroyStarter _ _ _) nofun
  have h10 := Machine.reach_run h9 0 rfl (.stillRunning _ rfl) nofun
  have h11 := Machine.reach_run h10 0 rfl (.launched _ _ _) nofun
  have h12 := Machine.reach_run h11 0 rfl (.detached _ _) nofun
  have h13 := Machine.reach_run h12 0 rfl
    (.start .base _ true false .held rfl (by decide) (by decide) rfl rfl) fun _ _ _ => rfl
  have h14 := Machine.reach_run h13 0 rfl (.launchBound _ _ _ rfl) nofun
  have h15 := Machine.reach_run h14 0 rfl (.lockPush _ _ _ rfl) nofun
  have h16 := Machine.reach_run h15 0 rfl (.queued _ _ _ rfl rfl) nofun
  have h17 := Machine.reach_run h16 0 rfl (.launched _ _ _) nofun
  have h18 := Machine.reach_run h17 0 rfl (.detached _ _) nofun
  -- one worker runs the first, gives its turn back and hands the second over
  have h19 := Machine.reach_run h18 1 rfl (.runBody .base _ false [] [] rfl rfl rfl) nofun
  have h20 := Machine.reach_run h19 1 rfl (.returns _ _ none rfl) nofun
  have h21 := Machine.reach_run h20 1 rfl (.finalBound _ _ _ rfl) nofun
  have h22 := Machine.reach_run h21 1 rfl (.lockFinish _ _ _ rfl) nofun
  have h23 := Machine.reach_run h22 1 rfl (.finishWalks _ _ _ rfl) nofun
  have h24 := Machine.reach_run h23 1 rfl (.next _ _ _ rfl) nofun
  have h25 := Machine.reach_run h24 1 rfl (.found _ _) nofun
  have h26 := Machine.reach_run h25 1 rfl (.submit _ _) nofun
  -- another runs the second to its end before the first worker has the mutex again
  have h27 := Machine.reach_run h26 2 rfl (.runBody .base _ true [] [] rfl rfl rfl) nofun
  have h28 := Machine.reach_run h27 2 rfl (.returns _ _ none rfl) nofun
  have h29 := Machine.reach_run h28 2 rfl (.finalBound _ _ _ rfl) nofun
  have h30 := Machine.reach_run h29 2 rfl (.lockFinish _ _ _ rfl) nofun
  have h31 := Machine.reach_run h30 2 rfl (.finish _ _ _ rfl) nofun
  have h32 := Machine.reach_run h31 0 rfl (.waitAllOperations .base _ rfl) nofun
  have hreturns := Machine.reach_step h32 0 rfl (.waitReturns _ rfl rfl)
  exact ⟨_, _, h32, rfl, hreturns, .starting ⟨true, false⟩, by simp [Conf.set], rfl⟩

end Uniorm.Async
