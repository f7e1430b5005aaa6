import Uniorm.Async.Turns

/-! # One answer for each drive action

A claimed task is in exactly one place until its driver has been told: on its way to the queue, in
it, in a closure, in its body, in its delivery, or suspended in another task. Nothing but the
driver's own call, a handler or a continuation takes it out of there.
-/
namespace Uniorm.Async

open Foundation

variable {T O V E : Type*} {kind : O → Kind} {live : V → Bool}

section
variable [DecidableEq O]

namespace Frame

/-- A claimed operation whose driver has not been told, in a frame. -/
def carries (op : O) : Frame O E → ℕ
  | launch start _ | push start _ | pushing start _ | calling start | threw start =>
    if start.op = op then 1 else 0
  | refused x _ _ | begin x | running x | callback x | final x _ | finish x _ | finishing x _ =>
    if x = op then 1 else 0
  | deliver x _ | resume x => if x = op then 1 else 0
  | _ => 0

/-- A claimed operation that nothing has come of yet, in a frame. -/
def before (op : O) : Frame O E → ℕ
  | launch start _ | push start _ | pushing start _ | calling start | threw start =>
    if start.op = op then 1 else 0
  | refused x _ _ | begin x | running x | callback x => if x = op then 1 else 0
  | _ => 0

def acts (op : O) : Frame O E → ℕ
  | launch start _ | push start _ | pushing start _ => if start.op = op then 1 else 0
  | launched x _ | refused x _ _ | driving x _ => if x = op then 1 else 0
  | _ => 0

/-- An operation whose outcome is on its way to its driver, in a frame. -/
def after (op : O) : Frame O E → ℕ
  | final x _ | finish x _ | finishing x _ | deliver x _ | resume x => if x = op then 1 else 0
  | _ => 0

theorem carries_eq (op : O) (f : Frame O E) : f.carries op = f.before op + f.after op := by
  cases f <;> first | exact (Nat.zero_add _).symm | rfl

theorem after_le_carries (op : O) (f : Frame O E) : f.after op ≤ f.carries op := by
  rw [carries_eq]
  exact Nat.le_add_left _ _

end Frame

namespace Shared
variable (op : O) (g : Shared O V E)

/-- The same outside the stacks, and the answers. -/
def carries : ℕ :=
  g.queue.waiting.countP (·.op = op) + g.pending.count op + g.resuming.count op +
    g.awaiting.countP (·.parent = op) + (g.core op).finished.toNat + (g.core op).answers.length

/-- The same outside the stacks, and what came of it. -/
def before : ℕ :=
  g.queue.waiting.countP (·.op = op) + g.pending.count op + g.awaiting.countP (·.parent = op) +
    (g.core op).outcomes.length

end Shared

/-- The condition on a step, for one task: it is not driven again, its executor is found, and it is
not driven after a `co_await` of it was refused. -/
structure Admitted (op : O) (g : Shared O V E) (e : Event O) : Prop where
  once : e ≠ .redrive op
  found : e ≠ .giveUp op
  clean : ∀ mode, e = .drive op mode → (g.core op).failure = none

variable {f : Frame O E} {g g' : Shared O V E} {e : Event O} {fs : List (Frame O E)} {op : O}

theorem Rule.carries_eq (h : Rule kind live f g e fs g') (op : O) (hok : Admitted op g e)
    (hclaimed : 0 < f.carries op → g.carries op = 0 ∧ (g.core op).driven.claims = 1) :
    (fs.map (Frame.carries op)).sum + g'.carries op + (g.core op).driven.claims =
      f.carries op + g.carries op + (g'.core op).driven.claims := by
  obtain ⟨once, found, -⟩ := hok
  simp only [Shared.carries] at hclaimed ⊢
  cases h <;>
    simp [Frame.carries, Drive.claims, Shared.modify_field Core.driven,
      Shared.modify_field Core.finished, Shared.modify_field Core.answers, List.countP_cons,
      List.count_cons, *] at hclaimed ⊢ <;>
    (try split_ifs at hclaimed ⊢) <;> first | omega | simp_all <;> omega

theorem Rule.before_eq (h : Rule kind live f g e fs g') (op : O) (hok : Admitted op g e)
    (hclaimed : 0 < f.before op → (g.core op).driven.claims = 1)
    (hdriven : 0 < f.carries op → (g.core op).driven ≠ .idle) :
    (fs.map (Frame.before op)).sum + g'.before op + (g.core op).driven.claims =
      f.before op + g.before op + (g'.core op).driven.claims := by
  obtain ⟨once, found, -⟩ := hok
  simp only [Shared.before] at hclaimed ⊢
  cases h <;>
    simp [Frame.before, Drive.claims, Shared.modify_field Core.driven,
      Shared.modify_field Core.outcomes, List.countP_cons, List.count_cons, *] at hclaimed ⊢ <;>
    (try split_ifs at hclaimed ⊢) <;> first | omega | simp_all <;> omega

/-- A drive action lasts while its task is claimed. -/
theorem Rule.acts_le (h : Rule kind live f g e fs g') (op : O) (hok : Admitted op g e)
    (hclaimed : 0 < f.acts op → (g.core op).driven.claims = 1) :
    (fs.map (Frame.acts op)).sum + (g.core op).driven.claims ≤
      f.acts op + (g'.core op).driven.claims := by
  obtain ⟨once, -, -⟩ := hok
  cases h <;>
    simp [Frame.acts, Drive.claims, Shared.modify_field Core.driven, *] at hclaimed ⊢ <;>
    (try split_ifs at hclaimed ⊢) <;> first | omega | simp_all

/-- How a task is driven is set while it is idle, and reset when its drive action is refused. -/
theorem Rule.driven_eq (h : Rule kind live f g e fs g') (hok : Admitted op g e)
    (hidle : (g.core op).driven ≠ .idle) (hf : f.offers op = 0) :
    (g'.core op).driven = (g.core op).driven := by
  obtain ⟨once, -, -⟩ := hok
  have hother : ∀ x, (g.core x).driven = .idle → x ≠ op := by
    rintro x hx rfl
    exact hidle hx
  cases h with
  | block _ _ x _ _ _ _ undriven =>
    simp [Shared.modify_field Core.driven, hother x undriven]
  | start _ _ x _ _ _ _ _ _ undriven =>
    simp [Shared.modify_field Core.driven, hother x undriven]
  | coAwait _ x _ _ _ _ undriven =>
    simp [Shared.modify_field Core.driven, hother x undriven]
  | _ => simp_all [Frame.offers, Shared.modify_field Core.driven]

end

section
variable [DecidableEq O] [Fintype T] [DecidableEq T] {s s' : Conf T (Frame O E) (Shared O V E)}
  {a : T × Event O} {op : O}

/-- Where a task is, against how it is driven. -/
structure Carried (op : O) (s : Conf T (Frame O E) (Shared O V E)) : Prop where
  carries : s.total (Frame.carries op) + s.shared.carries op = (s.shared.core op).driven.claims
  before : s.total (Frame.before op) + s.shared.before op = (s.shared.core op).driven.claims
  acts : s.total (Frame.acts op) ≤ (s.shared.core op).driven.claims

omit [DecidableEq T] in
theorem carried_fresh : Carried op (fresh : Conf T (Frame O E) (Shared O V E)) := by
  constructor <;>
    simp [fresh, Conf.total, Frame.carries, Frame.before, Frame.acts, Shared.carries,
      Shared.before, Queue.new, Core.new, Drive.claims]

theorem Carried.step (h : Carried op s) (hok : Admitted op s.shared a.2)
    (hs : (session T kind live).step s a s') : Carried op s' := by
  cases hs with
  | @run t f rest fs e g top rule =>
    have hmem : f ∈ s.stack t := top ▸ List.mem_cons_self
    have hcarries := h.carries
    have hbefore := h.before
    have hacts := h.acts
    have hone := (s.shared.core op).driven.claims_le
    have hle := fun c : Frame O E → ℕ => Conf.le_total c hmem
    have hsum := fun c : Frame O E → ℕ => Conf.total_set c fs g top
    have hfc := hle (Frame.carries op)
    have hfb := hle (Frame.before op)
    have hfa := hle (Frame.acts op)
    constructor <;> rw [Conf.set_shared]
    · have hrule := rule.carries_eq op hok fun hf => ⟨by omega, by omega⟩
      have hnew := hsum (Frame.carries op)
      omega
    · have hrule := rule.before_eq op hok (fun hf => by omega)
        fun hf => Drive.claims_pos.mp (by omega)
      have hnew := hsum (Frame.before op)
      omega
    · have hrule := rule.acts_le op hok fun hf => by omega
      have hnew := hsum (Frame.acts op)
      omega

namespace Carried

omit [DecidableEq T] in
theorem total_carries (op : O) (s : Conf T (Frame O E) (Shared O V E)) :
    s.total (Frame.carries op) = s.total (Frame.before op) + s.total (Frame.after op) := by
  rw [← Conf.total_add]
  exact congrArg s.total (funext (Frame.carries_eq op))

omit [DecidableEq T] in
theorem driven_of_pos (h : Carried op s) {t : T} {f : Frame O E} (hf : f ∈ s.stack t)
    (hpos : 0 < f.carries op) : (s.shared.core op).driven ≠ .idle := by
  have hcarries := h.carries
  have hle := Conf.le_total (Frame.carries op) hf
  exact Drive.claims_pos.mp (by omega)

omit [DecidableEq T] in
theorem answers_of_pos (h : Carried op s) {t : T} {f : Frame O E} (hf : f ∈ s.stack t)
    (hpos : 0 < f.carries op) : (s.shared.core op).answers = [] := by
  have hcarries := h.carries
  have hle := Conf.le_total (Frame.carries op) hf
  have hone := (s.shared.core op).driven.claims_le
  rw [Shared.carries] at hcarries
  exact List.length_eq_zero_iff.mp (by omega)

omit [DecidableEq T] in
/-- Nothing has come of an operation whose body has not ended. -/
theorem of_before (h : Carried op s) {t : T} {f : Frame O E} (hf : f ∈ s.stack t)
    (hpos : 0 < f.before op) : (s.shared.core op).outcomes = [] ∧ (s.shared.core op).answers = [] ∧
      (s.shared.core op).driven ≠ .idle := by
  have hcarries := h.carries
  have hbefore := h.before
  have hsplit := total_carries op s
  have hone := (s.shared.core op).driven.claims_le
  have hle := Conf.le_total (Frame.before op) hf
  simp only [Shared.carries, Shared.before] at hcarries hbefore
  refine ⟨List.length_eq_zero_iff.mp ?_, List.length_eq_zero_iff.mp ?_, Drive.claims_pos.mp ?_⟩ <;>
    omega

omit [DecidableEq T] in
/-- An operation whose body has ended has its outcome, and its driver has not been told. -/
theorem of_after (h : Carried op s)
    (hpos : 0 < s.total (Frame.after op) + s.shared.resuming.count op +
      (s.shared.core op).finished.toNat) :
    ∃ r, (s.shared.core op).outcomes = [r] ∧ (s.shared.core op).answers = [] := by
  have hcarries := h.carries
  have hbefore := h.before
  have hsplit := total_carries op s
  have hone := (s.shared.core op).driven.claims_le
  simp only [Shared.carries, Shared.before] at hcarries hbefore
  have hlen : (s.shared.core op).outcomes.length = 1 := by omega
  obtain ⟨r, hr⟩ := List.length_eq_one_iff.mp hlen
  exact ⟨r, hr, List.length_eq_zero_iff.mp (by omega)⟩

end Carried

end

section
variable [DecidableEq O] {f : Frame O E} {g g' : Shared O V E} {e : Event O}
  {fs : List (Frame O E)} {op : O}

namespace Frame

def Moded (op : O) (d : Drive) : Frame O E → Prop
  | launch start mode | push start mode | pushing start mode => start.op = op → d = mode
  | launched x mode | refused x mode _ | driving x mode => x = op → d = mode
  | resume x => x = op → d = .awaited
  | _ => True

theorem Moded.of_none (ha : f.acts op = 0) (hc : f.carries op = 0) (d : Drive) : f.Moded op d := by
  cases f <;> simp_all [Moded, acts, carries]

theorem offers_le_acts (op : O) (f : Frame O E) : f.offers op ≤ f.acts op := by
  cases f <;> simp [offers, acts]

theorem offers_le_carries (op : O) (f : Frame O E) : f.offers op ≤ f.carries op := by
  cases f <;> simp [offers, carries]

end Frame

theorem Rule.moded_new (h : Rule kind live f g e fs g') (hok : Admitted op g e)
    (hf : f.Moded op (g.core op).driven) (hr : op ∈ g.resuming → (g.core op).driven = .awaited) :
    ∀ x ∈ fs, x.Moded op (g'.core op).driven := by
  obtain ⟨once, -, -⟩ := hok
  have huser : f.isUser kind = true → ∀ d, f.Moded op d := by
    cases f <;> simp [Frame.isUser, Frame.Moded]
  cases h <;>
    simp_all [Frame.Moded, or_imp, forall_and, Shared.modify_field Core.driven] <;>
    try (rintro rfl; simp_all)

/-- A result waits for the thread that blocks on it. -/
theorem Rule.finished_new (h : Rule kind live f g e fs g')
    (hf : (g'.core op).finished = true) :
    (g.core op).finished = true ∨ (g.core op).driven = .blocked ∧ f.offers op = 0 := by
  cases h <;> simp_all [Shared.modify_field Core.finished, Frame.offers]
  grind

theorem Rule.resuming_new (h : Rule kind live f g e fs g') (hf : op ∈ g'.resuming) :
    op ∈ g.resuming ∨ (g.core op).driven = .awaited ∧ f.offers op = 0 := by
  cases h <;> simp_all [Frame.offers] <;> grind

end

section
variable [DecidableEq O] [Fintype T] [DecidableEq T] {s s' : Conf T (Frame O E) (Shared O V E)}
  {a : T × Event O} {op : O}

/-- How a task is driven, wherever it makes a difference. -/
structure Modes (op : O) (s : Conf T (Frame O E) (Shared O V E)) : Prop where
  frames : s.Everywhere (Frame.Moded op (s.shared.core op).driven)
  resuming : op ∈ s.shared.resuming → (s.shared.core op).driven = .awaited
  finished : (s.shared.core op).finished = true → (s.shared.core op).driven = .blocked

omit [Fintype T] [DecidableEq T] [DecidableEq O] in
theorem modes_fresh : Modes op (fresh : Conf T (Frame O E) (Shared O V E)) := by
  constructor <;> simp [fresh, Conf.Everywhere, Frame.Moded, Core.new]

theorem Modes.step (h : Modes op s) (hc : Carried op s) (hok : Admitted op s.shared a.2)
    (hs : (session T kind live).step s a s') : Modes op s' := by
  have hs' := hs
  cases hs with
  | @run t f rest fs e g top rule =>
    have hmem : f ∈ s.stack t := top ▸ List.mem_cons_self
    have hacts := hc.acts
    have hcarries := hc.carries
    have hone := (s.shared.core op).driven.claims_le
    have hfa := f.offers_le_acts op
    have hfc := f.offers_le_carries op
    have hkept : (s.shared.core op).driven ≠ .idle → f.offers op = 0 →
        (g.core op).driven = (s.shared.core op).driven := rule.driven_eq hok
    have hle := Conf.le_total (Frame.carries op) hmem
    have hstay : ∀ {d : Drive}, d ≠ .idle → (s.shared.core op).driven = d → f.offers op = 0 →
        (g.core op).driven = d := by
      rintro d hd rfl hoffers
      exact hkept hd hoffers
    simp only [Shared.carries] at hcarries
    constructor
    · refine h.frames.step_others hs' ?_ fun x ys hx hm hr => hr.moded_new hok hm h.resuming
      intro x ys y hr hpair hy
      have hpa := hpair (Frame.acts op)
      have hpc := hpair (Frame.carries op)
      have hxa := x.offers_le_acts op
      have hxc := x.offers_le_carries op
      by_cases hchange : (s.shared.core op).driven = .idle ∨ x.offers op ≠ 0
      · -- the task is claimed or let go of, and no other frame is about it
        have hnone : y.acts op = 0 ∧ y.carries op = 0 := by
          rcases hchange with hidle | hoffers
          · rw [hidle, Drive.claims] at hacts hcarries
            omega
          · omega
        exact .of_none hnone.1 hnone.2 _
      · push Not at hchange
        rw [hr.driven_eq hok hchange.1 hchange.2]
        exact hy
    · intro hr
      rcases rule.resuming_new hr with hold | ⟨hd, hoffers⟩
      · have hpos := List.count_pos_iff.mpr hold
        exact hstay (by decide) (h.resuming hold) (by omega)
      · exact hstay (by decide) hd hoffers
    · intro hf
      rcases rule.finished_new hf with hold | ⟨hd, hoffers⟩
      · rw [hold, Bool.toNat_true] at hcarries
        exact hstay (by decide) (h.finished hold) (by omega)
      · exact hstay (by decide) hd hoffers

end

section
variable [DecidableEq O] [Fintype T] [DecidableEq T] {s s' : Conf T (Frame O E) (Shared O V E)}
  {a : T × Event O} {op : O}

theorem Carried.offers_step (h : Carried op s) (hok : Admitted op s.shared a.2)
    (hb : (kind op).bound = true)
    (hoffers : s.total (Frame.offers op) + s.shared.accepted.countP (·.op = op) =
      (s.shared.core op).driven.claims)
    (hs : (session T kind live).step s a s') :
    s'.total (Frame.offers op) + s'.shared.accepted.countP (·.op = op) =
      (s'.shared.core op).driven.claims := by
  cases hs with
  | @run t f rest fs e g top rule =>
    have hmem : f ∈ s.stack t := top ▸ List.mem_cons_self
    have hrule := rule.offers_eq hb hok.once fun hf =>
      h.driven_of_pos hmem (hf.trans_le (f.offers_le_carries op))
    have hsum := Conf.total_set (Frame.offers op) fs g top
    rw [Conf.set_shared]
    omega

end

section
variable [DecidableEq O] [Fintype T] [DecidableEq T] {s s' : Conf T (Frame O E) (Shared O V E)}
  {op : O}

theorem Rule.awaiting_new {f : Frame O E} {g g' : Shared O V E} {e : Event O}
    {fs : List (Frame O E)} (h : Rule kind live f g e fs g') :
    ∀ w ∈ g'.awaiting, w ∈ g.awaiting ∨ kind w.parent = .coroutine := by
  cases h <;> simp_all <;> grind

omit [Fintype T] in
/-- Only coroutines of the caller's are suspended. -/
theorem coroutine_of_awaiting (kind : O → Kind) (live : V → Bool)
    (h : (session T kind live).Reachable s) :
    ∀ w ∈ s.shared.awaiting, kind w.parent = .coroutine := by
  apply h.invariant (I := fun s => ∀ w ∈ s.shared.awaiting, kind w.parent = .coroutine)
  · rintro _ rfl
    exact nofun
  · intro s a s' _ hi _ hs w hw
    cases hs with
    | run t top rule => exact (rule.awaiting_new w hw).elim (hi w) id

omit [Fintype T] in
theorem not_suspended (kind : O → Kind) (live : V → Bool) (h : (session T kind live).Reachable s)
    (hk : kind op ≠ .coroutine) : s.shared.awaiting.countP (·.parent = op) = 0 := by
  rw [List.countP_eq_zero]
  intro w hw hop
  exact hk (of_decide_eq_true hop ▸ coroutine_of_awaiting kind live h w hw)

omit [Fintype T] [DecidableEq T] in
theorem Modes.not_resuming (h : Modes op s) (hd : (s.shared.core op).driven ≠ .awaited) :
    s.shared.resuming.count op = 0 :=
  List.count_eq_zero.mpr fun hmem => hd (h.resuming hmem)

omit [Fintype T] [DecidableEq O] [DecidableEq T] in
theorem Modes.not_finished (h : Modes op s) (hd : (s.shared.core op).driven ≠ .blocked) :
    (s.shared.core op).finished = false :=
  Bool.eq_false_iff.mpr fun hf => hd (h.finished hf)

end

section
variable [DecidableEq O] [Fintype T] [DecidableEq T] {s s' : Conf T (Frame O E) (Shared O V E)}
  {op : O}

/-- Code of the caller's outside any operation, or a call of its own it is parked in. -/
def Frame.Parked : Frame O E → Prop
  | base | driving _ .blocked | waitIdle | rollback => True
  | _ => False

/-- The drive action a thread is parked in is `block`. -/
theorem Frame.Parked.of_acts {f : Frame O E} (h : f.Parked) (hf : 0 < f.acts op) :
    ∃ x, f = .driving x .blocked := by
  cases f with
  | driving x mode =>
    cases mode with
    | blocked => exact ⟨x, rfl⟩
    | _ => exact h.elim
  | _ => first | exact h.elim | exact absurd hf (lt_irrefl 0)

/-- Nothing is under way: no executor has anything to run, and no thread is in anything but code of
the caller's outside the operations. -/
structure AtRest (s : Conf T (Frame O E) (Shared O V E)) : Prop where
  pending : s.shared.pending = []
  resuming : s.shared.resuming = []
  parked : s.Everywhere Frame.Parked

namespace AtRest

omit [DecidableEq O] [DecidableEq T] in
theorem total_eq_zero (h : AtRest s) {c : Frame O E → ℕ} (hc : ∀ f : Frame O E, f.Parked → c f = 0) :
    s.total c = 0 := by
  by_contra hpos
  obtain ⟨t, f, hf, hcount⟩ := Conf.exists_of_total_pos (Nat.pos_of_ne_zero hpos)
  exact hcount.ne' (hc f (h.parked t f hf))

omit [DecidableEq O] [DecidableEq T] in
/-- Then the queue of the session is idle. -/
theorem idle (h : AtRest s) (ho : Orderly kind s) : s.shared.queue.idle = true := by
  have hturn : s.total (Frame.turn kind) = 0 :=
    h.total_eq_zero fun f => by cases f <;> simp [Frame.Parked, Frame.turn]
  have hdrain : s.total Frame.drain = 0 :=
    h.total_eq_zero fun f => by cases f <;> simp [Frame.Parked, Frame.drain]
  have hfree : s.shared.queue.inFlight = false := by
    rw [← Bool.toNat_eq_zero, ← ho.turn, hturn, Shared.turns, h.pending]
    rfl
  have hundrained : s.shared.queue.draining = false := by
    rw [← Bool.toNat_eq_zero, ← ho.drain, hdrain]
  refine (Queue.idle_iff _).mpr ⟨?_, hfree⟩
  by_contra hwaiting
  exact Bool.false_ne_true (hundrained.symm.trans (ho.walker hwaiting hfree))

omit [DecidableEq T] in
/-- A driven task has been answered, has its answer ready for a thread that blocks, or is suspended
in another one. -/
theorem carried (h : AtRest s) (ho : Orderly kind s) (hc : Carried op s)
    (hdriven : (s.shared.core op).driven ≠ .idle) :
    s.shared.awaiting.countP (·.parent = op) + (s.shared.core op).finished.toNat +
      (s.shared.core op).answers.length = 1 := by
  obtain ⟨hwaiting, -⟩ := (Queue.idle_iff _).mp (h.idle ho)
  have hcarries := hc.carries
  have hpos := Drive.claims_pos.mpr hdriven
  have hone := (s.shared.core op).driven.claims_le
  have hframes : s.total (Frame.carries op) = 0 :=
    h.total_eq_zero fun f => by cases f <;> simp [Frame.Parked, Frame.carries]
  rw [hframes, Shared.carries, hwaiting, h.pending, h.resuming] at hcarries
  simp only [List.countP_nil, List.count_nil] at hcarries
  omega

end AtRest
end

end Uniorm.Async
