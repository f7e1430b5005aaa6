import Uniorm.Async.Fifo

/-! # Who uses the connection

The bodies of the session's operations use its connection, each in its turn. So does the rollback
of a transaction handle that is destroyed while active, on the thread that destroys it and without a
turn: once its wait is over, nothing keeps the next request out.
-/
namespace Uniorm.Async

open Foundation

variable {T O V E : Type*} {kind : O → Kind} {live : V → Bool}

namespace Frame

def body (kind : O → Kind) : Frame O E → ℕ
  | running op | callback op => if (kind op).bound then 1 else 0
  | _ => 0

theorem body_le_turn (f : Frame O E) : f.body kind ≤ f.turn kind := by
  cases f <;> first | exact Nat.zero_le _ | exact le_rfl

/-- A rollback waits for the session first. -/
def Follows (x y : Frame O E) : Prop := y = .rollback → x = .waitIdle

end Frame

/-- A thread inside the rollback of a transaction handle. -/
def RollingBack (t : T) (s : Conf T (Frame O E) (Shared O V E)) : Prop :=
  (s.stack t).head? = some .rollback

section
variable [DecidableEq O] {f : Frame O E} {g g' : Shared O V E} {e : Event O}
  {fs : List (Frame O E)}

theorem Rule.follows (h : Rule kind live f g e fs g') :
    fs.IsChain Frame.Follows ∧ ∀ x ∈ fs.getLast?, ∀ y, f.Follows y → x.Follows y := by
  have huser : f.isUser kind = true → f ≠ .rollback := by
    rintro hf rfl
    exact absurd hf Bool.false_ne_true
  have hdrops : ∀ op (x : Frame O E), x ≠ .rollback →
      (g.drops op ++ [x]).IsChain Frame.Follows := by
    intro op x hx
    unfold Shared.drops
    split <;> simp [Frame.Follows, hx]
  cases h with
  | letGo _ op =>
    rw [Shared.drops]
    split <;> simp [Frame.Follows]
  | _ => simp_all [Frame.Follows, Shared.drops]

theorem Rule.idle_kept (h : Rule kind live f g e fs g') (he : ∀ start, e ≠ .accept start)
    (hidle : g.queue.idle = true) : g'.queue.idle = true := by
  cases h <;> simp_all [Queue.idle]

/-- A rollback comes to the top of a stack when the wait above it is over. -/
theorem Rule.rolls_back (h : Rule kind live f g e fs g') (hf : f ≠ .rollback) :
    fs.head? ≠ some .rollback := by
  cases h <;> simp_all [Shared.drops] <;> split <;> simp_all

end

section
variable [DecidableEq O] [Fintype T] [DecidableEq T] {s s' : Conf T (Frame O E) (Shared O V E)}
  {a : T × Event O}

/-- The connection has one user at a time: a body, or the rollback of a transaction handle. -/
structure Exclusive (kind : O → Kind) (s : Conf T (Frame O E) (Shared O V E)) : Prop where
  bodies : s.total (Frame.body kind) ≤ 1
  alone : ∀ t, RollingBack t s → s.total (Frame.body kind) = 0
  single : ∀ t u, RollingBack t s → RollingBack u s → t = u

/-- While a thread is inside such a rollback no request is accepted, and no other rollback gets past
its wait. -/
def LeavesRollbackAlone (s : Conf T (Frame O E) (Shared O V E)) (a : T × Event O) : Prop :=
  (∃ t, RollingBack t s) → (∀ start, a.2 ≠ .accept start) ∧
    (a.2 = .waitReturns → (s.stack a.1).tail.head? ≠ some .rollback)

/-- What holds while a thread is inside a rollback. -/
structure Quiet (s : Conf T (Frame O E) (Shared O V E)) : Prop where
  chained : s.Chained Frame.Follows
  idle : ∀ t, RollingBack t s → s.shared.queue.idle = true
  single : ∀ t u, RollingBack t s → RollingBack u s → t = u

omit [Fintype T] in
theorem RollingBack.begins (hchain : s.Chained Frame.Follows)
    (hs : (session T kind live).step s a s') {t : T} (h : RollingBack t s') :
    RollingBack t s ∨ t = a.1 ∧ a.2 = .waitReturns ∧ (s.stack t).tail.head? = some .rollback ∧
      s'.shared.queue.idle = true := by
  cases hs with
  | @run i f rest fs e g top rule =>
    by_cases ht : t = i
    · subst ht
      have hold := hchain t
      rw [top, List.isChain_cons] at hold
      rw [RollingBack, Conf.set_stack_self] at h
      cases fs with
      | nil =>
        have hrest : rest.head? = some .rollback := h
        obtain rfl := hold.1 _ hrest rfl
        generalize [] = put at rule
        cases rule with
        | waitReturns _ unlocked idle =>
          refine .inr ⟨rfl, rfl, ?_, idle⟩
          rw [top]
          exact hrest
        | _ => exact absurd ‹Frame.isUser kind .waitIdle = true› Bool.false_ne_true
      | cons x xs =>
        by_cases hf : f = .rollback
        · left
          rw [RollingBack, top, hf]
          rfl
        · exact absurd h (rule.rolls_back hf)
    · rw [RollingBack, Conf.set_stack_of_ne ht] at h
      exact .inl h

omit [Fintype T] in
theorem Quiet.step (h : Quiet s) (hok : LeavesRollbackAlone s a)
    (hs : (session T kind live).step s a s') : Quiet s' := by
  have hbegins : ∀ t, RollingBack t s' → RollingBack t s ∨ t = a.1 ∧ a.2 = .waitReturns ∧
      (s.stack t).tail.head? = some .rollback ∧ s'.shared.queue.idle = true :=
    fun t ht => ht.begins h.chained hs
  constructor
  · exact h.chained.step hs fun _ _ _ hrule => hrule.follows
  · intro t ht
    rcases hbegins t ht with hold | ⟨-, -, -, hidle⟩
    · have hkept := (hok ⟨t, hold⟩).1
      have hidle := h.idle t hold
      cases hs with
      | run _ _ rule => exact rule.idle_kept hkept hidle
    · exact hidle
  · intro t u ht hu
    -- a second rollback would have to get past its wait next to the first
    rcases hbegins t ht with holdt | ⟨rfl, he, hbelow, -⟩
    · rcases hbegins u hu with holdu | ⟨rfl, he, hbelow, -⟩
      · exact h.single t u holdt holdu
      · exact absurd hbelow ((hok ⟨t, holdt⟩).2 he)
    · rcases hbegins u hu with holdu | ⟨rfl, -⟩
      · exact absurd hbelow ((hok ⟨u, holdu⟩).2 he)
      · rfl

/-- Where no request is accepted and no other rollback begins while a thread is inside the rollback
of a transaction handle, bodies and rollbacks never overlap. -/
theorem one_user_of_the_connection (kind : O → Kind) (live : V → Bool)
    (h : (session T kind live).Reach LeavesRollbackAlone s) : Exclusive kind s := by
  have ho := orderly kind live h.reachable
  have hquiet : Quiet s := by
    apply h.invariant
    · rintro _ rfl
      constructor <;> simp [fresh, Conf.Chained, RollingBack]
    · exact fun _ _ _ _ hi hok hs => hi.step hok hs
  have hbody : s.total (Frame.body kind) ≤ s.total (Frame.turn kind) :=
    Conf.total_mono Frame.body_le_turn
  have hturn := ho.turn
  constructor
  · have hone := Bool.toNat_le s.shared.queue.inFlight
    omega
  · intro t ht
    have hidle := (Queue.idle_iff _).mp (hquiet.idle t ht)
    rw [hidle.2, Bool.toNat_false] at hturn
    omega
  · exact hquiet.single

end

/-- A handle is destroyed while nothing else goes on. -/
theorem rollback_on_a_quiet_session :
    ∃ s : Conf Bool (Frame Bool Unit) (Shared Bool Unit Unit),
      (session Bool (fun _ => .session true false) fun _ => true).Reachable s ∧
      RollingBack false s ∧ Exclusive (fun _ => .session true false) s := by
  let kind : Bool → Kind := fun _ => .session true false
  have h0 : (session Bool (E := Unit) kind fun _ : Unit => true).Reach
      LeavesRollbackAlone fresh := .start rfl
  have hnot : ∀ (s : Conf Bool (Frame Bool Unit) (Shared Bool Unit Unit)) (a : Bool × Event Bool),
      (∀ t, (s.stack t).head? ≠ some .rollback) → LeavesRollbackAlone s a := by
    rintro s a hno ⟨t, ht⟩
    exact absurd ht (hno t)
  have h1 := Machine.reach_run h0 false rfl (.endTransaction .base _ rfl)
    (hnot _ _ (by simp [fresh]))
  have h2 := Machine.reach_run h1 false rfl (.waitReturns _ rfl rfl)
    (hnot _ _ (by simp [fresh, Conf.set, Function.update]))
  exact ⟨_, h2.reachable, rfl, one_user_of_the_connection kind _ h2⟩

/-- One thread opens a transaction and destroys its handle. Between the end of its wait and its
rollback another thread starts an operation, whose body runs meanwhile. -/
theorem body_runs_beside_rollback :
    ∃ s : Conf Bool (Frame Bool Unit) (Shared Bool Unit Unit),
      (session Bool (fun _ => .session true false) fun _ => true).Reachable s ∧
      (s.shared.core false).answers = [.ok (some ())] ∧ RollingBack false s ∧
      .running true ∈ s.stack true ∧ ¬ Exclusive (fun _ => .session true false) s := by
  let kind : Bool → Kind := fun _ => .session true false
  have h0 : (session Bool (E := Unit) kind fun _ : Unit => true).Reachable fresh := .start rfl
  -- `begin` runs inline and its handle is taken
  have h1 := Machine.reach_run h0 false rfl (.block .base _ false false rfl rfl rfl rfl) trivial
  have h2 := Machine.reach_run h1 false rfl (.launchBound _ _ _ rfl) trivial
  have h3 := Machine.reach_run h2 false rfl (.lockPush _ _ _ rfl) trivial
  have h4 := Machine.reach_run h3 false rfl (.queuedWalks _ _ _ rfl rfl) trivial
  have h5 := Machine.reach_run h4 false rfl (.next _ _ _ rfl) trivial
  have h6 := Machine.reach_run h5 false rfl (.found _ _) trivial
  have h7 := Machine.reach_run h6 false rfl (.submitInline _ _ rfl) trivial
  have h8 := Machine.reach_run h7 false rfl (.returns _ _ (some ()) rfl) trivial
  have h9 := Machine.reach_run h8 false rfl (.finalBound _ _ _ rfl) trivial
  have h10 := Machine.reach_run h9 false rfl (.lockFinish _ _ _ rfl) trivial
  have h11 := Machine.reach_run h10 false rfl (.finish _ _ _ rfl) trivial
  have h12 := Machine.reach_run h11 false rfl (.wake _ _ _ rfl) trivial
  have h13 := Machine.reach_run h12 false rfl (.letGo _ _) trivial
  have h14 := Machine.reach_run h13 false rfl (.relock _ _ rfl) trivial
  have h15 := Machine.reach_run h14 false rfl (.destroyStarter _ _ _) trivial
  have h16 := Machine.reach_run h15 false rfl (.walkOn _ _ (.inr rfl)) trivial
  have h17 := Machine.reach_run h16 false rfl (.drained _ rfl) trivial
  have h18 := Machine.reach_run h17 false rfl (.launched _ _ _) trivial
  have h19 := Machine.reach_run h18 false rfl (.unpark _ _ rfl) trivial
  -- the handle is destroyed; the wait finds the session quiet
  have h20 := Machine.reach_run h19 false rfl (.endTransaction .base _ rfl) trivial
  have h21 := Machine.reach_run h20 false rfl (.waitReturns _ rfl rfl) trivial
  -- another thread's request gets its turn at once
  have h22 := Machine.reach_run h21 true rfl (.block .base _ true false rfl rfl rfl rfl) trivial
  have h23 := Machine.reach_run h22 true rfl (.launchBound _ _ _ rfl) trivial
  have h24 := Machine.reach_run h23 true rfl (.lockPush _ _ _ rfl) trivial
  have h25 := Machine.reach_run h24 true rfl (.queuedWalks _ _ _ rfl rfl) trivial
  have h26 := Machine.reach_run h25 true rfl (.next _ _ _ rfl) trivial
  have h27 := Machine.reach_run h26 true rfl (.found _ _) trivial
  have h28 := Machine.reach_run h27 true rfl (.submitInline _ _ rfl) trivial
  refine ⟨_, h28, rfl, rfl, List.mem_cons_self, fun hex => ?_⟩
  have hzero := hex.alone false rfl
  exact absurd hzero (by decide)

end Uniorm.Async
