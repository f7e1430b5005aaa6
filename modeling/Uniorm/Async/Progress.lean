import Uniorm.Async.Told

/-! # What goes on by itself

Every step that the calls under way and the executors take by themselves uses up some of what is left
to do, so that they come to an end. Where none is possible every thread is in code of the caller's
or in a wait. With a thread for what the executors hold, and nobody waiting inside an operation, the
session is at rest then.
-/
namespace Uniorm.Async

open Foundation

variable {T O V E : Type*} {kind : O → Kind} {live : V → Bool}

/-- More than there is in all that a rule puts in place of a frame. -/
def Frame.effort : Frame O E → ℕ
  | launch .. => 39
  | push .. => 38
  | pushing .. => 37
  | calling _ => 30
  | begin _ => 22
  | running _ => 16
  | callback _ => 15
  | final .. => 14
  | finish .. => 13
  | finishing .. => 12
  | deliver .. => 10
  | starting _ | threw _ => 7
  | relocked .. => 6
  | launched .. => 5
  | refused .. | holding _ | resume _ => 4
  | destroying _ => 3
  | walked _ => 2
  | loop | handler _ | driving .. | waitIdle | rollback => 1
  | base => 0

/-- The same outside the stacks. -/
def Shared.effort (g : Shared O V E) : ℕ :=
  30 * g.queue.waiting.length + 21 * g.pending.length + 16 * g.awaiting.length +
    9 * g.resuming.length

def workLeft [Fintype T] (s : Conf T (Frame O E) (Shared O V E)) : ℕ :=
  s.total Frame.effort + s.shared.effort

section
variable [DecidableEq O] {f : Frame O E} {g g' : Shared O V E} {e : Event O}
  {fs : List (Frame O E)} {op : O}

theorem Rule.effort_lt (h : Rule kind live f g e fs g') (he : e.own = true) :
    (fs.map Frame.effort).sum + g'.effort < f.effort + g.effort := by
  cases h <;>
    simp_all [Frame.effort, Shared.effort, Event.own] <;> (try split_ifs) <;> omega

/-- A body between its first step and its last. -/
def Frame.bodied (op : O) : Frame O E → ℕ
  | running x | callback x => if x = op then 1 else 0
  | _ => 0

theorem Frame.bodied_le_before (op : O) (f : Frame O E) : f.bodied op ≤ f.before op := by
  cases f <;> simp [bodied, before]

/-- A body that has begun is under way, suspended or over. -/
theorem Rule.begun_le (h : Rule kind live f g e fs g') (op : O) :
    (g'.core op).begun.toNat + f.bodied op + g.awaiting.countP (·.parent = op) +
        (g.core op).outcomes.length ≤
      (g.core op).begun.toNat + (fs.map (Frame.bodied op)).sum +
        g'.awaiting.countP (·.parent = op) + (g'.core op).outcomes.length := by
  cases h <;>
    simp [Frame.bodied, Shared.modify_field Core.begun, Shared.modify_field Core.outcomes,
      List.countP_cons, *] <;>
    (try split_ifs) <;> simp_all <;> omega

/-- What an awaited task is to resume is the coroutine that is suspended for it. -/
def Linked (g : Shared O V E) : Prop :=
  ∀ w ∈ g.awaiting, (g.core w.op).continuation = some w.parent

theorem Rule.linked (h : Rule kind live f g e fs g') (hg : Linked g)
    (hidle : ∀ op, (g.core op).driven = .idle → ∀ w ∈ g.awaiting, w.op ≠ op)
    (hno : ∀ op, e ≠ .redrive op) : Linked g' := by
  cases h with
  | coAwait _ op parent _ _ _ undriven =>
    rintro w (_ | ⟨_, hw⟩)
    · simp
    · have hne := hidle op undriven w hw
      simpa [Shared.modify_field Core.continuation, Ne.symm hne] using hg w hw
  | awaitAgain _ op => exact absurd rfl (hno op)
  | failAwait _ op parent _ before behind _ there =>
    intro w hw
    have hold : w ∈ g.awaiting := by
      rw [there]
      grind
    simpa [Shared.modify_field Core.continuation] using hg w hold
  | resume _ op parent before behind _ there =>
    intro w hw
    have hold : w ∈ g.awaiting := by
      rw [there]
      grind
    simpa [Shared.modify_field Core.continuation] using hg w hold
  | _ =>
    intro w hw
    have hold := hg w hw
    first
      | exact hold
      | simpa [Shared.modify_field Core.continuation] using hold

/-- What the frames of a wait stand on, and a destructor: code of the caller's, or the `await_suspend`
of the operation that is destroyed. -/
def Frame.Rests (kind : O → Kind) (f y : Frame O E) : Prop :=
  match f with
  | destroying op => y.isUser kind = true ∨ y = .driving op .awaited
  | waitIdle => y.isUser kind = true ∨ y = .rollback
  | rollback => y.isUser kind = true
  | _ => True

theorem Rule.rests {rest : List (Frame O E)} (h : Rule kind live f g e fs g') (hp : g.Parents kind)
    (hlaunched : ∀ op mode, f = .launched op mode → (g.core op).refs = 1 → mode = .awaited)
    (hstarter : ∀ op, e = .destroyStarter op → (g.core op).refs ≠ 1)
    (hholding : ∀ op, f = .holding op → (g.core op).refs = 1 →
      ∀ y ∈ rest.head?, (Frame.destroying op).Rests kind y)
    (hdead : ∀ op v, f = .destroying op → (g.core op).value = some v →
      ∀ y ∈ rest.head?, y ≠ .driving op .awaited) :
    fs.IsChain (Frame.Rests kind) ∧
      ∀ x ∈ fs.getLast?, ∀ y ∈ rest.head?, f.Rests kind y → x.Rests kind y := by
  have hdrops : ∀ op (x : Frame O E), ((g.core op).refs = 1 → (Frame.destroying op).Rests kind x) →
      (g.drops op ++ [x]).IsChain (Frame.Rests kind) := by
    intro op x hx
    unfold Shared.drops
    split
    · exact List.isChain_pair.mpr (hx ‹_›)
    · exact List.isChain_singleton _
  cases h with
  | dropTask _ _ op user => simp [hdrops op f fun _ => .inl user]
  | launched _ op mode =>
    refine ⟨hdrops op _ fun hone => .inr ?_, by simp [Frame.Rests]⟩
    rw [hlaunched op mode rfl hone]
  | failAwait _ op parent _ _ _ parked =>
    refine ⟨hdrops op _ fun _ => .inl ?_, by simp [Frame.Rests]⟩
    rw [Frame.isUser, hp op parent parked]
    rfl
  | resume _ op parent _ _ parked =>
    refine ⟨hdrops op _ fun _ => .inl ?_, by simp [Frame.Rests]⟩
    rw [Frame.isUser, hp op parent parked]
    rfl
  | destroyStarter _ start =>
    exact ⟨hdrops start.op _ fun hone => absurd hone (hstarter start.op rfl), by simp [Frame.Rests]⟩
  | letGo _ op =>
    unfold Shared.drops
    split
    · refine ⟨List.isChain_singleton _, ?_⟩
      rintro _ ⟨⟩ y hy -
      exact hholding op rfl ‹_› y hy
    · refine ⟨List.isChain_nil, ?_⟩
      rintro _ ⟨⟩
  | destroyTransaction _ op v held =>
    refine ⟨List.isChain_pair.mpr (.inr rfl), ?_⟩
    rintro _ ⟨⟩ y hy hrests
    exact hrests.resolve_right (hdead op v rfl held y hy)
  | _ =>
    clear hdrops hp hlaunched hstarter hholding hdead
    first
      | refine ⟨List.isChain_singleton _, ?_⟩
        rintro _ ⟨⟩ _ _ hy
        exact hy
      | refine ⟨List.isChain_nil, ?_⟩
        rintro _ ⟨⟩
      | simp_all [Frame.Rests]

def Frame.Stopped (g : Shared O V E) : Frame O E → Prop
  | base => g.pending = [] ∧ g.resuming = []
  | push .. | starting _ | threw _ | finish .. => g.mutex = true
  | driving op .blocked => (g.core op).finished = false
  | waitIdle => g.mutex = true ∨ g.queue.idle = false
  | _ => False

/-- Anything else goes on. -/
theorem Frame.goes_on [Inhabited V] (kind : O → Kind) (live : V → Bool) (f : Frame O E)
    (g : Shared O V E) (hstopped : ¬ f.Stopped g) (hfresh : ∀ op ∈ g.pending, (g.core op).begun = false)
    (hmode : ∀ op, f ≠ .driving op .idle)
    (hasked : ∀ op, (f = .resume op ∨ ∃ failure, f = .refused op .awaited failure) →
      ∃ parent, (g.core op).continuation = some parent ∧ ⟨parent, op⟩ ∈ g.awaiting) :
    ∃ e fs g', Event.own e = true ∧ Rule kind live f g e fs g' := by
  cases f with
  | base =>
    cases hpending : g.pending with
    | cons op rest =>
      have hbegun := hfresh op (hpending ▸ List.mem_cons_self)
      exact ⟨_, _, _, rfl, .runBody .base g op [] rest rfl hpending hbegun⟩
    | nil =>
      cases hresuming : g.resuming with
      | cons op rest => exact ⟨_, _, _, rfl, .runContinuation .base g op [] rest rfl hresuming⟩
      | nil => exact absurd ⟨hpending, hresuming⟩ hstopped
  | launch start mode =>
    cases hbound : (kind start.op).bound with
    | true => exact ⟨_, _, _, rfl, .launchBound g start mode hbound⟩
    | false => exact ⟨_, _, _, rfl, .launchFree g start mode hbound⟩
  | push start mode =>
    exact ⟨_, _, _, rfl, .lockPush g start mode (Bool.eq_false_iff.mpr hstopped)⟩
  | pushing start mode =>
    cases hfull : g.queue.full with
    | true => exact ⟨_, _, _, rfl, .overflow g start mode hfull⟩
    | false =>
      cases hwalks : (g.queue.append start).walks with
      | true => exact ⟨_, _, _, rfl, .queuedWalks g start mode hfull hwalks⟩
      | false => exact ⟨_, _, _, rfl, .queued g start mode hfull hwalks⟩
  | launched op mode => exact ⟨_, _, _, rfl, .launched g op mode⟩
  | refused op mode failure =>
    by_cases hmode : mode = .awaited
    · subst hmode
      obtain ⟨parent, hparent, hmem⟩ := hasked op (.inr ⟨failure, rfl⟩)
      obtain ⟨before, behind, hthere⟩ := List.append_of_mem hmem
      exact ⟨_, _, _, rfl, .failAwait g op parent failure before behind hparent hthere⟩
    · exact ⟨_, _, _, rfl, .rethrow g op mode failure hmode⟩
  | loop =>
    cases hwaiting : g.queue.waiting with
    | nil => exact ⟨_, _, _, rfl, .drained g hwaiting⟩
    | cons start rest => exact ⟨_, _, _, rfl, .next g start rest hwaiting⟩
  | calling start => exact ⟨_, _, _, rfl, .found g start⟩
  | starting start => exact ⟨_, _, _, rfl, .relock g start (Bool.eq_false_iff.mpr hstopped)⟩
  | threw start => exact ⟨_, _, _, rfl, .relockThrown g start (Bool.eq_false_iff.mpr hstopped)⟩
  | relocked start thrown => exact ⟨_, _, _, rfl, .destroyStarter g start thrown⟩
  | walked thrown =>
    cases thrown with
    | true => exact ⟨_, _, _, rfl, .walkOn g true (.inl rfl)⟩
    | false =>
      cases hrunning : g.queue.inFlight with
      | true => exact ⟨_, _, _, rfl, .stillRunning g hrunning⟩
      | false => exact ⟨_, _, _, rfl, .walkOn g false (.inr hrunning)⟩
  | begin op => exact ⟨_, _, _, rfl, .submit g op⟩
  | holding op => exact ⟨_, _, _, rfl, .letGo g op⟩
  | running op =>
    cases hface : (kind op).answers with
    | false => exact ⟨_, _, _, rfl, .returns g op none hface⟩
    | true =>
      cases hsettled : (g.core op).settled with
      | false => exact ⟨_, _, _, rfl, .answered g op (.ok default) hface hsettled⟩
      | true => exact ⟨_, _, _, rfl, .answeredAlready g op hface hsettled⟩
  | callback op => exact ⟨_, _, _, rfl, .callbackReturns g op⟩
  | final op refused =>
    cases hbound : (kind op).bound with
    | true => exact ⟨_, _, _, rfl, .finalBound g op refused hbound⟩
    | false => exact ⟨_, _, _, rfl, .finalFree g op refused hbound⟩
  | finish op refused =>
    exact ⟨_, _, _, rfl, .lockFinish g op refused (Bool.eq_false_iff.mpr hstopped)⟩
  | finishing op refused =>
    cases hwalked : g.queue.draining with
    | true => exact ⟨_, _, _, rfl, .finish g op refused hwalked⟩
    | false => exact ⟨_, _, _, rfl, .finishWalks g op refused hwalked⟩
  | deliver op refused =>
    cases hdriven : (g.core op).driven with
    | idle => exact ⟨_, _, _, rfl, .undriven g op refused hdriven⟩
    | blocked => exact ⟨_, _, _, rfl, .wake g op refused hdriven⟩
    | awaited => exact ⟨_, _, _, rfl, .transfer g op refused hdriven⟩
    | detached =>
      cases hdue : (g.core op).due with
      | false => exact ⟨_, _, _, rfl, .nothingToReport g op refused hdriven hdue⟩
      | true =>
        cases hface : (kind op).answers with
        | false => exact ⟨_, _, _, rfl, .report g op refused hdriven hface hdue⟩
        | true =>
          cases hsettled : (g.core op).settled with
          | true => exact ⟨_, _, _, rfl, .settledAlready g op refused hdriven hface hdue hsettled⟩
          | false =>
            have hsome : (g.core op).failure.isSome = true := by
              rw [Core.due, Bool.and_eq_true] at hdue
              exact hdue.2
            obtain ⟨failure, hfailed⟩ := Option.isSome_iff_exists.mp hsome
            exact ⟨_, _, _, rfl,
              .settleFailure g op refused failure hdriven hface hdue hfailed hsettled⟩
  | handler op => exact ⟨_, _, _, rfl, .handlerEnds g op⟩
  | resume op =>
    obtain ⟨parent, hparent, hmem⟩ := hasked op (.inl rfl)
    obtain ⟨before, behind, hthere⟩ := List.append_of_mem hmem
    exact ⟨_, _, _, rfl, .resume g op parent before behind hparent hthere⟩
  | driving op mode =>
    cases mode with
    | idle => exact absurd rfl (hmode op)
    | blocked => exact ⟨_, _, _, rfl, .unpark g op (Bool.not_eq_false _ ▸ hstopped)⟩
    | detached => exact ⟨_, _, _, rfl, .detached g op⟩
    | awaited => exact ⟨_, _, _, rfl, .suspended g op⟩
  | waitIdle =>
    rw [Stopped, not_or, Bool.not_eq_true, Bool.not_eq_false] at hstopped
    exact ⟨_, _, _, rfl, .waitReturns g hstopped.1 hstopped.2⟩
  | rollback => exact ⟨_, _, _, rfl, .rolledBack g⟩
  | destroying op =>
    by_cases hlive : ∃ v, (g.core op).value = some v ∧ live v = true
    · obtain ⟨v, hvalue, hactive⟩ := hlive
      exact ⟨_, _, _, rfl, .destroyTransaction g op v hvalue hactive⟩
    · refine ⟨_, _, _, rfl, .destroyed g op fun v hvalue => ?_⟩
      by_contra hactive
      exact hlive ⟨v, hvalue, (Bool.not_eq_false _).mp hactive⟩

end

section
variable [DecidableEq O] [Fintype T] [DecidableEq T] {s s' : Conf T (Frame O E) (Shared O V E)}
  {a : T × Event O} {op : O}

/-- The condition on a step: that of an answer, and that `drain` destroys no starter as the last that
holds its operation. -/
def Unhindered (kind : O → Kind) (s : Conf T (Frame O E) (Shared O V E)) (a : T × Event O) : Prop :=
  Answerable kind s.shared a.2 ∧ Outlived s a

theorem begun_le (kind : O → Kind) (live : V → Bool) (h : (session T kind live).Reachable s) (op : O) :
    (s.shared.core op).begun.toNat ≤ s.total (Frame.bodied op) +
      s.shared.awaiting.countP (·.parent = op) + (s.shared.core op).outcomes.length := by
  apply h.invariant (I := fun s => (s.shared.core op).begun.toNat ≤ s.total (Frame.bodied op) +
    s.shared.awaiting.countP (·.parent = op) + (s.shared.core op).outcomes.length)
  · rintro _ rfl
    simp [fresh, Core.new]
  · intro s a s' _ hi _ hs
    cases hs with
    | @run t f rest fs e g top rule =>
      have hrule := rule.begun_le op
      have hsum := Conf.total_set (Frame.bodied op) fs g top
      rw [Conf.set_shared]
      omega

/-- A body an executor has not run has not begun. -/
theorem Carried.fresh_of_pending (h : Carried op s) (hr : (session T kind live).Reachable s)
    (hmem : op ∈ s.shared.pending) : (s.shared.core op).begun = false := by
  have hbegun := begun_le kind live hr op
  have hbefore := h.before
  have hone := (s.shared.core op).driven.claims_le
  have hbodied : s.total (Frame.bodied op) ≤ s.total (Frame.before op) :=
    Conf.total_mono (Frame.bodied_le_before op)
  have hpos := List.count_pos_iff.mpr hmem
  rw [Shared.before] at hbefore
  rw [← Bool.toNat_eq_zero]
  omega

theorem linked (kind : O → Kind) (live : V → Bool)
    (h : (session T kind live).Reach (Unhindered kind) s) : Linked s.shared := by
  apply h.invariant (I := fun s => Linked s.shared)
  · rintro _ rfl
    exact nofun
  · intro s a s' hr hi hok hs
    have hall := (answering kind live (hr.weaken fun _ _ => And.left)).1
    cases hs with
    | run t top rule =>
      apply rule.linked hi
      · exact fun op hidle w hw => ((hall op).claimed.not_awaiting hidle w hw).1
      · exact fun op => (hok.1.admitted op).once

omit [DecidableEq T] in
/-- An awaited task that has not been answered has a coroutine to resume. -/
theorem Claimed.awaiter (h : Claimed op s) (hlinked : Linked s.shared)
    (hd : (s.shared.core op).driven = .awaited) (hans : (s.shared.core op).answers = []) :
    ∃ parent, (s.shared.core op).continuation = some parent ∧ ⟨parent, op⟩ ∈ s.shared.awaiting := by
  have hone := h.asked.one hd
  rw [hans, List.length_nil] at hone
  have hpos : 0 < s.shared.awaiting.countP (·.op = op) := by omega
  obtain ⟨w, hw, hop⟩ := List.countP_pos_iff.mp hpos
  obtain rfl := of_decide_eq_true hop
  exact ⟨w.parent, hlinked w hw, hw⟩

omit [DecidableEq T] in
theorem Counted.two_le_of_call (h : Counted s) {t i : T} {x y : Frame O E} (hx : x ∈ s.stack t)
    (hrefs : 0 < x.refs op) (hy : y ∈ s.stack i) (hcalls : 0 < y.calls op) :
    2 ≤ (s.shared.core op).refs := by
  have hcore := h.refs op
  have hcall := h.calls op
  have hle := Conf.le_total (Frame.refs op) hx
  have hle' := Conf.le_total (Frame.calls op) hy
  have htask : (s.shared.core op).task.calls ≤ (s.shared.core op).task.refs := by
    cases (s.shared.core op).task <;> simp [Holder.calls, Holder.refs]
  rw [Shared.refs] at hcore
  omega

theorem Counted.two_le_of_below (h : Counted s) {t : T} {x y : Frame O E} {rest : List (Frame O E)}
    (top : s.stack t = x :: rest) (hrefs : 0 < x.refs op) (hy : y ∈ rest) (hbelow : 0 < y.refs op) :
    2 ≤ (s.shared.core op).refs := by
  have hcore := h.refs op
  have hle := Conf.le_total_pair (Frame.refs op) top (i := t) (.inr hy)
  omega

/-- The last `shared_ptr` to a core goes with a closure that runs over code of the caller's, or with one
that is back in the `await_suspend` of its operation. -/
theorem Answering.rests_of_holding (h : Answering kind op s) (hr : (session T kind live).Reachable s)
    {t : T} {rest : List (Frame O E)} (top : s.stack t = .holding op :: rest)
    (hone : (s.shared.core op).refs = 1) :
    ∀ y ∈ rest.head?, (Frame.destroying op).Rests kind y := by
  intro y hy
  have hcounted := counted kind live hr
  have hmem : y ∈ rest := List.mem_of_mem_head? hy
  have hholding : .holding op ∈ s.stack t := top ▸ List.mem_cons_self
  have hystack : y ∈ s.stack t := top ▸ List.mem_cons_of_mem _ hmem
  have hown : 0 < (Frame.holding op : Frame O E).refs op := by simp [Frame.refs]
  have hnocall : ¬ 0 < y.calls op := by
    intro hcalls
    have htwo := hcounted.two_le_of_call hholding hown hystack hcalls
    omega
  have hnoref : ¬ 0 < y.refs op := by
    intro hrefs
    have htwo := hcounted.two_le_of_below top hown hmem hrefs
    omega
  have hchain := (stands kind live hr).1 t
  rw [top, List.isChain_cons] at hchain
  rcases hchain.1 y hy with huser | ⟨start, rfl, rfl⟩ | ⟨mode, rfl⟩ | rfl | ⟨mode, failure, rfl⟩
  · exact .inl huser
  · exact absurd (by simp [Frame.refs]) hnoref
  · by_cases hmode : mode = .awaited
    · exact .inr (hmode ▸ rfl)
    · exact absurd (by simp [Frame.calls, hmode]) hnocall
  · exact absurd hown hnoref
  · by_cases hmode : mode = .awaited
    · subst hmode
      have hmoded := h.claimed.modes.frames t _ hystack rfl
      have hans := h.claimed.carried.answers_of_pos hystack (by simp [Frame.carries])
      have hasked := h.claimed.asked.one hmoded
      have hcore := hcounted.refs op
      have hle := Conf.le_total (Frame.refs op) hholding
      rw [hans, List.length_nil] at hasked
      rw [Shared.refs] at hcore
      omega
    · exact absurd (by simp [Frame.calls, hmode]) hnocall

/-- The result of an awaited task is out of its core by the time that is destroyed. -/
theorem Answering.destroyed_empty (h : Answering kind op s) (hr : (session T kind live).Reachable s)
    {t i : T} (hmem : .destroying op ∈ s.stack t) (hdriving : .driving op .awaited ∈ s.stack i) :
    (s.shared.core op).value = none := by
  have hd := h.claimed.modes.frames i _ hdriving rfl
  apply h.told.spent
  · intro hans
    have hpos := h.claimed.refs_pos hr (hd ▸ nofun) hans fun _ => hd ▸ nofun
    have hzero := h.dead t _ hmem rfl
    omega
  · exact hd ▸ nofun

theorem rests (kind : O → Kind) (live : V → Bool)
    (h : (session T kind live).Reach (Unhindered kind) s) : s.Chained (Frame.Rests kind) := by
  apply h.invariant
  · rintro _ rfl
    exact fun _ => List.isChain_singleton _
  · intro s a s' hr hi hok hs
    have hreach := hr.reachable
    have hcounted := counted kind live hreach
    have hall := (answering kind live (hr.weaken fun _ _ => And.left)).1
    apply hi.step_on hs
    intro f rest fs g top rule
    have hmem : f ∈ s.stack a.1 := top ▸ List.mem_cons_self
    apply rule.rests (orderly kind live hreach).parents
    · rintro op mode rfl hone
      by_contra hmode
      have htwo : 2 ≤ (s.shared.core op).refs :=
        hcounted.two_le_of_call hmem (by simp [Frame.refs]) hmem (by simp [Frame.calls, hmode])
      omega
    · intro op he hone
      have htwo := hok.2.two_le_refs hreach hmem rule op he
      omega
    · rintro op rfl hone
      exact (hall op).rests_of_holding hreach top hone
    · rintro op v rfl hvalue _ hy rfl
      have hbelow : .driving op .awaited ∈ s.stack a.1 :=
        top ▸ List.mem_cons_of_mem _ (List.mem_of_mem_head? hy)
      have hnone := (hall op).destroyed_empty hreach hmem hbelow
      exact absurd (hvalue.symm.trans hnone) (Option.some_ne_none v)

/-- `block` or `wait_idle`. -/
def Frame.Waits : Frame O E → Prop
  | driving _ .blocked | waitIdle => True
  | _ => False

/-- What the session needs from outside: a thread for what the executors hold, and that code of the
caller's does not itself wait for the session while an operation runs it. -/
structure Tended (kind : O → Kind) (s : Conf T (Frame O E) (Shared O V E)) : Prop where
  hands : s.shared.pending ≠ [] ∨ s.shared.resuming ≠ [] → ∃ t, s.stack t = [.base]
  outside : ∀ t f rest, s.stack t = f :: rest → f.Waits →
    ∀ x ∈ rest, x.isUser kind = true → x = .base

/-- No thread that holds the mutex is kept from going on. -/
theorem unlocked_of_stopped (kind : O → Kind) (live : V → Bool)
    (h : (session T kind live).Reach Outlived s)
    (hstopped : ∀ t f rest, s.stack t = f :: rest → f.Stopped s.shared) : s.shared.mutex = false := by
  by_contra hlocked
  rw [Bool.not_eq_false] at hlocked
  have hlock := (orderly kind live h.reachable).lock
  rw [hlocked, Bool.toNat_true, ← Conf.total_add] at hlock
  obtain ⟨t, x, hx, hlocks⟩ := Conf.exists_of_total_pos (s := s)
    (c := fun f : Frame O E => f.head + f.lock) (hlock ▸ Nat.one_pos)
  cases hstack : s.stack t with
  | nil =>
    rw [hstack] at hx
    cases hx
  | cons f rest =>
    have hbelow := locks_innermost kind live h t
    rw [hstack] at hbelow hx
    rcases List.mem_cons.mp hx with rfl | hx
    · have hstop := hstopped t x rest hstack
      cases x <;> simp_all [Frame.Stopped, Frame.head, Frame.lock]
    · exact hbelow x hx hlocks

/-- Where every thread is kept where it is, each is in code of the caller's outside the operations or in
a call made from there. -/
theorem parked_of_stopped (kind : O → Kind) (live : V → Bool)
    (h : (session T kind live).Reach (Unhindered kind) s) (htended : Tended kind s)
    (hstopped : ∀ t f rest, s.stack t = f :: rest → f.Stopped s.shared) {t : T} {f : Frame O E}
    {rest : List (Frame O E)} (top : s.stack t = f :: rest) :
    f.Parked ∧ ∀ y ∈ rest, y = .base ∨ y = .rollback := by
  have hfree := unlocked_of_stopped kind live (h.weaken fun _ _ => And.right) hstopped
  have hchain := (stands kind live h.reachable).1 t
  have hrest := rests kind live h t
  have hstop := hstopped t f rest top
  have houtside := htended.outside t f rest top
  have hbase : ∀ {l : List (Frame O E)}, (Frame.base :: l).IsChain (Frame.Stands kind) → l = [] := by
    rintro (_ | ⟨y, l⟩) hl
    · rfl
    · exact (List.isChain_cons_cons.mp hl).1.elim
  rw [top] at hchain hrest
  cases f with
  | base =>
    rw [hbase hchain]
    exact ⟨trivial, nofun⟩
  | driving op mode =>
    cases mode with
    | blocked =>
      refine ⟨trivial, ?_⟩
      cases rest with
      | nil => exact nofun
      | cons y rest =>
        obtain ⟨huser, htail⟩ := List.isChain_cons_cons.mp hchain
        obtain rfl := houtside trivial y List.mem_cons_self (huser nofun)
        simp [hbase htail]
    | _ => exact hstop.elim
  | waitIdle =>
    refine ⟨trivial, ?_⟩
    cases rest with
    | nil => exact nofun
    | cons y rest =>
      obtain ⟨hy, htail⟩ := List.isChain_cons_cons.mp hrest
      have hbelow := (List.isChain_cons_cons.mp hchain).2
      rcases hy with huser | rfl
      · obtain rfl := houtside trivial y List.mem_cons_self huser
        simp [hbase hbelow]
      · cases rest with
        | nil => simp
        | cons z rest =>
          obtain ⟨huser, -⟩ := List.isChain_cons_cons.mp htail
          obtain rfl := houtside trivial z (by simp) huser
          simp [hbase (List.isChain_cons_cons.mp hbelow).2]
  | _ => first | exact hstop.elim | exact absurd (hstop.symm.trans hfree) nofun

/-- Where nothing goes on by itself every thread is kept where it is. -/
theorem stopped_of_standstill [Inhabited V] (kind : O → Kind) (live : V → Bool)
    (h : (session T kind live).Reach (Unhindered kind) s)
    (hno : ∀ t e s', (session T kind live).step s (t, e) s' → e.own = false) :
    ∀ t f rest, s.stack t = f :: rest → f.Stopped s.shared := by
  have hall := (answering kind live (h.weaken fun _ _ => And.left)).1
  have hlinked := linked kind live h
  intro t f rest top
  have hmem : f ∈ s.stack t := top ▸ List.mem_cons_self
  have hmode : ∀ op, f ≠ .driving op .idle := by
    rintro op rfl
    have hidle := (hall op).claimed.modes.frames t _ hmem rfl
    have hpos : 0 < s.total (Frame.acts op) :=
      (Conf.le_total (Frame.acts op) hmem).trans_lt' (by simp [Frame.acts])
    have hacts := (hall op).claimed.carried.acts
    rw [hidle, Drive.claims] at hacts
    omega
  have hasked : ∀ op, (f = .resume op ∨ ∃ failure, f = .refused op .awaited failure) →
      ∃ parent, (s.shared.core op).continuation = some parent ∧
        ⟨parent, op⟩ ∈ s.shared.awaiting := by
    intro op hf
    have hmoded : (s.shared.core op).driven = .awaited := by
      rcases hf with rfl | ⟨failure, rfl⟩ <;>
        exact (hall op).claimed.modes.frames t _ hmem rfl
    have hcarries : 0 < f.carries op := by
      rcases hf with rfl | ⟨failure, rfl⟩ <;> simp [Frame.carries]
    exact (hall op).claimed.awaiter hlinked hmoded
      ((hall op).claimed.carried.answers_of_pos hmem hcarries)
  by_contra hgo
  obtain ⟨e, fs, g, hown, rule⟩ := f.goes_on kind live s.shared hgo
    (fun op => (hall op).claimed.carried.fresh_of_pending h.reachable) hmode hasked
  exact Bool.false_ne_true ((hno t e _ (.run s t top rule)).symm.trans hown)

/-- Where every thread is kept where it is the session is at rest. -/
theorem atRest_of_stopped (kind : O → Kind) (live : V → Bool)
    (h : (session T kind live).Reach (Unhindered kind) s) (htended : Tended kind s)
    (hstopped : ∀ t f rest, s.stack t = f :: rest → f.Stopped s.shared) : AtRest s := by
  have hnone : s.shared.pending = [] ∧ s.shared.resuming = [] := by
    by_contra hheld
    obtain ⟨t, hbase⟩ := htended.hands (not_and_or.mp hheld)
    exact hheld (hstopped t _ _ hbase)
  refine ⟨hnone.1, hnone.2, ?_⟩
  intro t x hx
  cases hstack : s.stack t with
  | nil =>
    rw [hstack] at hx
    cases hx
  | cons f rest =>
    obtain ⟨hparked, hbelow⟩ := parked_of_stopped kind live h htended hstopped hstack
    rw [hstack] at hx
    rcases List.mem_cons.mp hx with rfl | hx
    · exact hparked
    · rcases hbelow x hx with rfl | rfl <;> trivial

theorem workLeft_lt {t : T} {e : Event O} (hs : (session T kind live).step s (t, e) s')
    (hown : e.own = true) : workLeft s' < workLeft s := by
  cases hs with
  | @run _ f rest fs _ g top rule =>
    have hrule := rule.effort_lt hown
    have hsum := Conf.total_set Frame.effort fs g top
    simp only [workLeft, Conf.set_shared]
    omega

/-- A task that has not been answered keeps the session from standing still: at rest its result would
be ready, and the thread in `block` would take it. -/
theorem goes_on_until_answered [Inhabited V] (kind : O → Kind) (live : V → Bool)
    (h : (session T kind live).Reach (Unhindered kind) s) (htended : Tended kind s) (op : O)
    (hd : (s.shared.core op).driven ≠ .idle) (hans : (s.shared.core op).answers = []) :
    ∃ t e s', (session T kind live).step s (t, e) s' ∧ e.own = true := by
  by_contra hno
  have hstopped := stopped_of_standstill kind live h fun t e s' hs =>
    Bool.eq_false_iff.mpr fun hown => hno ⟨t, e, s', hs, hown⟩
  have hrest := atRest_of_stopped kind live h htended hstopped
  obtain ⟨hall, hdated⟩ := answering kind live (h.weaken fun _ _ => And.left)
  have hready := hrest.answered (orderly kind live h.reachable) (fun x => (hall x).claimed) hdated op hd
  rw [hans, List.length_nil, Nat.add_zero] at hready
  have hfinished := toNat_pos (hready ▸ Nat.one_pos)
  have hblocked := (hall op).claimed.modes.finished hfinished
  obtain ⟨t, x, hx, hacts⟩ := Conf.exists_of_total_pos ((hall op).claimed.blocked hblocked hans)
  obtain ⟨y, rfl⟩ := (hrest.parked t x hx).of_acts hacts
  have hy : y = op := by
    by_contra hne
    simp [Frame.acts, hne] at hacts
  subst hy
  cases hstack : s.stack t with
  | nil =>
    rw [hstack] at hx
    cases hx
  | cons f rest =>
    rw [hstack] at hx
    rcases List.mem_cons.mp hx with rfl | hbelow
    · exact Bool.false_ne_true ((hstopped t _ rest hstack).symm.trans hfinished)
    · have hparked := (parked_of_stopped kind live h htended hstopped hstack).2 _ hbelow
      rcases hparked with hbase | hrollback
      · cases hbase
      · cases hrollback

end

end Uniorm.Async
