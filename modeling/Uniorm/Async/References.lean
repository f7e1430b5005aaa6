import Uniorm.Async.Teardown

/-! # Who holds an operation

The `shared_ptr`s to a core are in the task object, in the awaiter of a suspended coroutine, in the
starters of the queue and of `drain`, in `launch`, and in the closures an executor holds or runs.
Counting them says which of them goes last. The one that goes under the mutex is `drain`'s.
-/
namespace Uniorm.Async

open Foundation

variable {T O V E : Type*} {kind : O → Kind} {live : V → Bool}

/-- The `shared_ptr` in the task object. -/
def Holder.refs : Holder → ℕ
  | held => 1
  | calling => 1
  | gone => 0

def Holder.calls : Holder → ℕ
  | held => 0
  | calling => 1
  | gone => 0

section
variable [DecidableEq O]

namespace Frame

/-- The `shared_ptr`s to a core in a frame. -/
def refs (op : O) : Frame O E → ℕ
  | push start _ | pushing start _ => if start.op = op then 2 else 0
  | calling start | starting start | threw start | relocked start _ =>
    if start.op = op then 1 else 0
  | launched x _ | holding x => if x = op then 1 else 0
  | _ => 0

/-- The frames of a `block` or `start` of a task, a member function of the task object. -/
def calls (op : O) : Frame O E → ℕ
  | launch start mode | push start mode | pushing start mode =>
    if start.op = op ∧ mode ≠ .awaited then 1 else 0
  | launched x mode | refused x mode _ | driving x mode =>
    if x = op ∧ mode ≠ .awaited then 1 else 0
  | _ => 0

end Frame

namespace Shared
variable (g : Shared O V E) (op : O)

/-- The `shared_ptr`s to a core outside the stacks. -/
def refs : ℕ :=
  g.queue.waiting.countP (·.op = op) + g.pending.count op + g.resuming.count op +
    g.awaiting.countP (·.op = op) + (g.core op).task.refs

end Shared

variable {f : Frame O E} {g g' : Shared O V E} {e : Event O} {fs : List (Frame O E)}

/-- A task object is in a call exactly while the call lasts. -/
theorem Rule.calls_eq (h : Rule kind live f g e fs g') (op : O)
    (hcall : 0 < f.calls op → (g.core op).task = .calling) :
    (fs.map (Frame.calls op)).sum + (g.core op).task.calls =
      f.calls op + (g'.core op).task.calls := by
  cases h <;>
    simp [Frame.calls, Holder.calls, Shared.modify_field Core.task] at hcall ⊢ <;>
    (try split_ifs at hcall ⊢) <;> first | omega | simp_all

/-- The count of a core changes by the `shared_ptr`s that come and go. -/
theorem Rule.refs_eq (h : Rule kind live f g e fs g') (op : O)
    (hcall : 0 < f.calls op → (g.core op).task = .calling)
    (hle : f.refs op + g.refs op ≤ (g.core op).refs) :
    (g'.core op).refs + (f.refs op + g.refs op) =
      (g.core op).refs + ((fs.map (Frame.refs op)).sum + g'.refs op) := by
  simp only [Shared.refs] at hle ⊢
  cases h <;>
    simp [Frame.refs, Holder.refs, Shared.modify_field Core.refs, Shared.modify_field Core.task,
      List.countP_cons, List.count_cons, *] at hle ⊢ <;>
    (try split_ifs at hle ⊢) <;> first | omega | simp_all [Frame.calls] <;> omega

end

section
variable [DecidableEq O] [Fintype T] [DecidableEq T] {s s' : Conf T (Frame O E) (Shared O V E)}
  {a : T × Event O}

/-- The counts of the cores are the `shared_ptr`s there are. -/
structure Counted (s : Conf T (Frame O E) (Shared O V E)) : Prop where
  calls : ∀ op, s.total (Frame.calls op) = (s.shared.core op).task.calls
  refs : ∀ op, (s.shared.core op).refs = s.total (Frame.refs op) + s.shared.refs op

omit [DecidableEq T] in
theorem counted_fresh : Counted (fresh : Conf T (Frame O E) (Shared O V E)) := by
  constructor <;>
    simp [fresh, Queue.new, Core.new, Conf.total, Frame.calls, Frame.refs, Shared.refs,
      Holder.calls, Holder.refs]

theorem Counted.step (h : Counted s) (hs : (session T kind live).step s a s') : Counted s' := by
  cases hs with
  | @run t f rest fs e g top rule =>
    have hmem : f ∈ s.stack t := top ▸ List.mem_cons_self
    have hcall : ∀ op, 0 < f.calls op → (s.shared.core op).task = .calling := by
      intro op hf
      have hle := Conf.le_total (Frame.calls op) hmem
      have hcalls := h.calls op
      cases htask : (s.shared.core op).task with
      | calling => rfl
      | held =>
        rw [htask, Holder.calls] at hcalls
        omega
      | gone =>
        rw [htask, Holder.calls] at hcalls
        omega
    constructor
    · intro op
      have hrule := rule.calls_eq op (hcall op)
      have hsum := Conf.total_set (Frame.calls op) fs g top
      have hcalls := h.calls op
      rw [Conf.set_shared]
      omega
    · intro op
      have hle := Conf.le_total (Frame.refs op) hmem
      have hrefs := h.refs op
      have hrule := rule.refs_eq op (hcall op) (by omega)
      have hsum := Conf.total_set (Frame.refs op) fs g top
      rw [Conf.set_shared]
      omega

theorem counted (kind : O → Kind) (live : V → Bool) (h : (session T kind live).Reachable s) :
    Counted s := by
  apply h.invariant
  · rintro _ rfl
    exact counted_fresh
  · exact fun _ _ _ _ hi _ hs => hi.step hs

namespace Frame

def Locks (f : Frame O E) : Prop := 0 < f.head + f.lock

/-- A `shared_ptr` to a core in a closure that is being run, in `begin` or in `launch`. -/
def keeps (op : O) : Frame O E → ℕ
  | launched x _ | holding x => if x = op then 1 else 0
  | _ => 0

/-- `drain`'s own, once it is back under the mutex. -/
def drops (op : O) : Frame O E → ℕ
  | relocked start _ => if start.op = op then 1 else 0
  | _ => 0

theorem drops_add_keeps_le (op : O) (f : Frame O E) : f.drops op + f.keeps op ≤ f.refs op := by
  cases f <;> simp [drops, keeps, refs]

end Frame

/-- An operation that something besides the queue still holds: its task object, an executor, a
coroutine that waits for it, a closure that is being run or a `launch`. -/
def Referenced (op : O) (s : Conf T (Frame O E) (Shared O V E)) : Prop :=
  (s.shared.core op).task ≠ .gone ∨ op ∈ s.shared.pending ∨ op ∈ s.shared.resuming ∨
    (∃ w ∈ s.shared.awaiting, w.op = op) ∨ ∃ t, ∃ f ∈ s.stack t, 0 < f.keeps op

/-- `drain` destroys a starter only while its operation is held by something else. -/
def Outlived (s : Conf T (Frame O E) (Shared O V E)) (a : T × Event O) : Prop :=
  ∀ op, a.2 = .destroyStarter op → Referenced op s

omit [DecidableEq T] in
theorem Counted.two_le_refs (h : Counted s) {t : T} {start : Starter O} {thrown : Bool}
    (hmem : .relocked start thrown ∈ s.stack t) (href : Referenced start.op s) :
    2 ≤ (s.shared.core start.op).refs := by
  have hrefs := h.refs start.op
  have hsplit : s.total (Frame.drops start.op) + s.total (Frame.keeps start.op) ≤
      s.total (Frame.refs start.op) := by
    rw [← Conf.total_add]
    exact Conf.total_mono (Frame.drops_add_keeps_le start.op)
  have hown : 1 ≤ s.total (Frame.drops start.op) := by
    have hle := Conf.le_total (Frame.drops start.op) hmem
    rwa [Frame.drops, if_pos rfl] at hle
  have hshared : s.shared.refs start.op = s.shared.queue.waiting.countP (·.op = start.op) +
      s.shared.pending.count start.op + s.shared.resuming.count start.op +
      s.shared.awaiting.countP (·.op = start.op) + (s.shared.core start.op).task.refs := rfl
  rcases href with htask | hpending | hresuming | ⟨w, hw, hop⟩ | ⟨i, f, hf, hkeeps⟩
  · cases hholder : (s.shared.core start.op).task with
    | gone => exact absurd hholder htask
    | held =>
      rw [hholder, Holder.refs] at hshared
      omega
    | calling =>
      rw [hholder, Holder.refs] at hshared
      omega
  · have hpos := List.count_pos_iff.mpr hpending
    omega
  · have hpos := List.count_pos_iff.mpr hresuming
    omega
  · have hpos : 0 < s.shared.awaiting.countP (·.op = start.op) :=
      List.countP_pos_iff.mpr ⟨w, hw, decide_eq_true hop⟩
    omega
  · have hle := Conf.le_total (Frame.keeps start.op) hf
    omega

omit [Fintype T] [DecidableEq T] in
/-- A rule leaves a frame with the mutex on top only, unless it destroys a core there. -/
theorem Rule.locks_on_top {f : Frame O E} {g g' : Shared O V E} {e : Event O}
    {fs : List (Frame O E)} (h : Rule kind live f g e fs g')
    (hlast : ∀ op, e = .destroyStarter op → (g.core op).refs ≠ 1) :
    ∀ x ∈ fs.tail, ¬ x.Locks := by
  have huser : f.isUser kind = true → ¬ f.Locks := by
    cases f <;> simp [Frame.isUser, Frame.Locks, Frame.head, Frame.lock]
  have hdrops : ∀ op (y : Frame O E), ¬ y.Locks → ∀ x ∈ (g.drops op ++ [y]).tail, ¬ x.Locks := by
    intro op y hy x hx
    rwa [List.mem_singleton.mp (Shared.mem_of_mem_tail_drops hx)]
  cases h with
  | destroyStarter _ start =>
    rw [Shared.drops, if_neg (hlast start.op rfl)]
    simp
  | dropTask _ _ op user => exact hdrops op f (huser user)
  | launched _ op mode => exact hdrops op _ (lt_irrefl 0)
  | failAwait _ op parent => exact hdrops op _ (lt_irrefl 0)
  | resume _ op parent => exact hdrops op _ (lt_irrefl 0)
  | letGo _ op =>
    intro x hx
    rw [← List.append_nil (g.drops op)] at hx
    exact absurd (Shared.mem_of_mem_tail_drops hx) List.not_mem_nil
  | _ =>
    clear hdrops hlast
    simp_all [Frame.Locks, Frame.head, Frame.lock]

omit [Fintype T] [DecidableEq T] in
/-- Under the mutex a core is let go of only with `drain`'s starter. -/
theorem Rule.refs_of_locks {f : Frame O E} {g g' : Shared O V E} {e : Event O}
    {fs : List (Frame O E)} (h : Rule kind live f g e fs g') (hf : f.Locks) (op : O)
    (hlast : ∀ op, e = .destroyStarter op → 2 ≤ (g.core op).refs)
    (hpos : 0 < (g.core op).refs) : 0 < (g'.core op).refs := by
  have huser : f.isUser kind = true → False := by
    cases f <;> simp_all [Frame.isUser, Frame.Locks, Frame.head, Frame.lock]
  cases h with
  | destroyStarter _ start =>
    have htwo := hlast start.op rfl
    rw [Shared.modify_field Core.refs]
    split
    · subst op
      exact Nat.sub_pos_of_lt htwo
    · exact hpos
  | finish _ x =>
    rw [Shared.modify_field Core.refs]
    split <;> exact hpos
  | finishWalks _ x =>
    rw [Shared.modify_field Core.refs]
    split <;> exact hpos
  | _ => first | exact hpos | exact absurd hf (lt_irrefl 0) | exact (huser ‹_›).elim

/-- The starter about to be destroyed is not the last that holds its core. -/
theorem Outlived.two_le_refs {t : T} {f : Frame O E} {e : Event O} {fs : List (Frame O E)}
    {g : Shared O V E} (hok : Outlived s (t, e)) (hr : (session T kind live).Reachable s)
    (hmem : f ∈ s.stack t) (rule : Rule kind live f s.shared e fs g) :
    ∀ op, e = .destroyStarter op → 2 ≤ (s.shared.core op).refs := by
  intro op he
  have href := hok op he
  cases rule with
  | destroyStarter _ start =>
    cases he
    exact (counted kind live hr).two_le_refs hmem href
  | _ => cases he

/-- A thread with the mutex has it in its innermost call. -/
theorem locks_innermost (kind : O → Kind) (live : V → Bool)
    (h : (session T kind live).Reach Outlived s) : s.Below (¬ Frame.Locks ·) := by
  apply h.invariant
  · rintro _ rfl _ _ hf
    exact absurd hf List.not_mem_nil
  · intro s a s' hr hi hok hs
    apply hi.step hs
    intro f fs g hmem rule
    apply rule.locks_on_top
    intro op he
    have htwo := hok.two_le_refs hr.reachable hmem rule op he
    omega

/-- Where `drain` never destroys a starter that nothing outlives: a thread with the mutex has it in
its innermost call, so that it is not inside a destructor or a wait, and it never lets the last
`shared_ptr` to a core go. -/
theorem no_core_dies_under_lock (kind : O → Kind) (live : V → Bool)
    (h : (session T kind live).Reach Outlived s) :
    (∀ t, ∀ f ∈ (s.stack t).tail, ¬ f.Locks) ∧
      ∀ (t : T) (e : Event O) (s' : Conf T (Frame O E) (Shared O V E)),
        (session T kind live).step s (t, e) s' → Outlived s (t, e) →
        (∃ f ∈ s.stack t, f.Locks) →
        ∀ op, 0 < (s.shared.core op).refs → 0 < (s'.shared.core op).refs := by
  have htop := locks_innermost kind live h
  refine ⟨htop, ?_⟩
  intro t e s' hs hok ⟨x, hx, hlocks⟩ op hpos
  cases hs with
  | @run _ f rest fs _ g top rule =>
    have hmem : f ∈ s.stack t := top ▸ List.mem_cons_self
    have hxf : x = f := by
      rw [top, List.mem_cons] at hx
      rcases hx with hx | hx
      · exact hx
      · have hbelow := htop t
        rw [top] at hbelow
        exact absurd hlocks (hbelow x hx)
    exact rule.refs_of_locks (hxf ▸ hlocks) op (hok.two_le_refs h.reachable hmem rule) hpos

end

/-- The starter of an operation just handed over goes while the task object is still in its call. -/
theorem starter_outlived_by_its_task :
    ∃ s s' : Conf Unit (Frame Unit Unit) (Shared Unit Unit Unit),
      (session Unit (fun _ => .session true false) fun _ => true).Reach Outlived s ∧
      (session Unit (fun _ => .session true false) fun _ => true).step s
        ((), .destroyStarter ()) s' ∧ 0 < (s'.shared.core ()).refs := by
  let kind : Unit → Kind := fun _ => .session true false
  let live : Unit → Bool := fun _ => true
  have h0 : (session Unit (E := Unit) kind live).Reach Outlived fresh := .start rfl
  have h1 := Machine.reach_run h0 () rfl
    (.start .base _ () false .held rfl (by decide) (by decide) rfl rfl) nofun
  have h2 := Machine.reach_run h1 () rfl (.launchBound _ _ _ rfl) nofun
  have h3 := Machine.reach_run h2 () rfl (.lockPush _ _ _ rfl) nofun
  have h4 := Machine.reach_run h3 () rfl (.queuedWalks _ _ _ rfl rfl) nofun
  have h5 := Machine.reach_run h4 () rfl (.next _ _ _ rfl) nofun
  have h6 := Machine.reach_run h5 () rfl (.found _ _) nofun
  have h7 := Machine.reach_run h6 () rfl (.submit _ _) nofun
  have h8 := Machine.reach_run h7 () rfl (.relock _ _ rfl) nofun
  have hdrop := Machine.reach_step h8 () rfl (.destroyStarter _ _ _)
  have hlocks : ∃ f ∈ [Frame.relocked ⟨(), false⟩ false, .launched () .detached, .base],
      (f : Frame Unit Unit).Locks := ⟨_, List.mem_cons_self, Nat.one_pos⟩
  have hkept := (no_core_dies_under_lock kind live h8).2 () _ _ hdrop
    (fun _ _ => .inl nofun) hlocks
  exact ⟨_, _, h8, hdrop, hkept () (Nat.succ_pos _)⟩

/-- The second operation's task is gone and its closure has been run by the time the first worker is
back in `drain`: with its starter goes the core, under the mutex, and with the core an open
transaction, whose destructor waits for that mutex. -/
theorem transaction_dies_under_lock :
    ∃ s s' s'' : Conf (Fin 3) (Frame Bool Unit) (Shared Bool Unit Unit),
      (session (Fin 3) (fun _ => .session true false) fun _ => true).Reachable s ∧
      (session (Fin 3) (fun _ => .session true false) fun _ => true).step s
        (1, .destroyStarter true) s' ∧
      (∃ f ∈ s.stack 1, f.Locks) ∧
      (s.shared.core true).refs = 1 ∧ (s'.shared.core true).refs = 0 ∧
      (session (Fin 3) (fun _ => .session true false) fun _ => true).step s' (1, .silent) s'' ∧
      s''.stack 1 = [.waitIdle, .rollback, .walked false, .deliver false false, .holding false,
        .base] ∧ s''.shared.mutex = true := by
  let kind : Bool → Kind := fun _ => .session true false
  have h0 : (session (Fin 3) (E := Unit) kind fun _ : Unit => true).Reachable fresh := .start rfl
  -- the first operation goes to the executor, the second waits behind it, its task is let go
  have h1 := Machine.reach_run h0 0 rfl
    (.start .base _ false false .held rfl (by decide) (by decide) rfl rfl) trivial
  have h2 := Machine.reach_run h1 0 rfl (.launchBound _ _ _ rfl) trivial
  have h3 := Machine.reach_run h2 0 rfl (.lockPush _ _ _ rfl) trivial
  have h4 := Machine.reach_run h3 0 rfl (.queuedWalks _ _ _ rfl rfl) trivial
  have h5 := Machine.reach_run h4 0 rfl (.next _ _ _ rfl) trivial
  have h6 := Machine.reach_run h5 0 rfl (.found _ _) trivial
  have h7 := Machine.reach_run h6 0 rfl (.submit _ _) trivial
  have h8 := Machine.reach_run h7 0 rfl (.relock _ _ rfl) trivial
  have h9 := Machine.reach_run h8 0 rfl (.destroyStarter _ _ _) trivial
  have h10 := Machine.reach_run h9 0 rfl (.stillRunning _ rfl) trivial
  have h11 := Machine.reach_run h10 0 rfl (.launched _ _ _) trivial
  have h12 := Machine.reach_run h11 0 rfl (.detached _ _) trivial
  have h13 := Machine.reach_run h12 0 rfl
    (.start .base _ true false .held rfl (by decide) (by decide) rfl rfl) trivial
  have h14 := Machine.reach_run h13 0 rfl (.launchBound _ _ _ rfl) trivial
  have h15 := Machine.reach_run h14 0 rfl (.lockPush _ _ _ rfl) trivial
  have h16 := Machine.reach_run h15 0 rfl (.queued _ _ _ rfl rfl) trivial
  have h17 := Machine.reach_run h16 0 rfl (.launched _ _ _) trivial
  have h18 := Machine.reach_run h17 0 rfl (.detached _ _) trivial
  have h19 := Machine.reach_run h18 0 rfl (.dropTask .base _ true rfl rfl) trivial
  -- one worker runs the first, gives its turn back and hands the second over
  have h20 := Machine.reach_run h19 1 rfl (.runBody .base _ false [] [] rfl rfl rfl) trivial
  have h21 := Machine.reach_run h20 1 rfl (.returns _ _ none rfl) trivial
  have h22 := Machine.reach_run h21 1 rfl (.finalBound _ _ _ rfl) trivial
  have h23 := Machine.reach_run h22 1 rfl (.lockFinish _ _ _ rfl) trivial
  have h24 := Machine.reach_run h23 1 rfl (.finishWalks _ _ _ rfl) trivial
  have h25 := Machine.reach_run h24 1 rfl (.next _ _ _ rfl) trivial
  have h26 := Machine.reach_run h25 1 rfl (.found _ _) trivial
  have h27 := Machine.reach_run h26 1 rfl (.submit _ _) trivial
  -- another runs the second, which opens a transaction nobody takes, and lets it go
  have h28 := Machine.reach_run h27 2 rfl (.runBody .base _ true [] [] rfl rfl rfl) trivial
  have h29 := Machine.reach_run h28 2 rfl (.returns _ _ (some ()) rfl) trivial
  have h30 := Machine.reach_run h29 2 rfl (.finalBound _ _ _ rfl) trivial
  have h31 := Machine.reach_run h30 2 rfl (.lockFinish _ _ _ rfl) trivial
  have h32 := Machine.reach_run h31 2 rfl (.finish _ _ _ rfl) trivial
  have h33 := Machine.reach_run h32 2 rfl (.nothingToReport _ _ _ rfl rfl) trivial
  have h34 := Machine.reach_run h33 2 rfl (.letGo _ _) trivial
  have h35 := Machine.reach_run h34 1 rfl (.relock _ _ rfl) trivial
  have hdrop := Machine.reach_step h35 1 rfl (.destroyStarter _ _ _)
  have h36 := Machine.reach_run h35 1 rfl (.destroyStarter _ _ _) trivial
  have hwait := Machine.reach_step h36 1 rfl (.destroyTransaction _ _ () rfl rfl)
  exact ⟨_, _, _, h35, hdrop, ⟨_, List.mem_cons_self, Nat.one_pos⟩, rfl, rfl, hwait, rfl, rfl⟩

end Uniorm.Async
