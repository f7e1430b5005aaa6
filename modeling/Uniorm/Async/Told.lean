import Uniorm.Async.Held

/-! # What a driver is told

A driven task is in one place until its driver has been told what came of it. What it holds by then
is what came of it, since its core is alive, and the driver is told that, once. A run comes to rest
with nobody left to tell.
-/
namespace Uniorm.Async

open Foundation

variable {T O V E : Type*} {kind : O → Kind} {live : V → Bool}

/-- What `on_failure` is to be called with for a result. -/
def failures : Result V E → List (Failure E)
  | .error failure => [failure]
  | .ok _ => []

/-- What a core holds against what came of its operation and what its driver has been told. -/
structure Told (c : Core O V E) : Prop where
  idle : c.driven = .idle → c.outcomes = [] ∧ c.answers = [] ∧ c.value = none
  fresh : c.driven ≠ .idle → c.outcomes = [] → c.failure = none ∧ c.value = none
  result : ∀ r, c.outcomes = [r] → c.answers = [] → c.result = r
  answers : c.answers ≠ [] → c.answers = c.outcomes
  untold : c.answers = [] → c.reports = [] ∧ c.onFailure ≠ .moved
  told : ∀ r, c.answers = [r] → c.driven = .detached → c.onFailure ≠ .empty →
    c.reports = failures r
  others : c.driven ≠ .detached → c.reports = []
  failed : c.failure ≠ none → c.value = none
  spent : c.answers ≠ [] → c.driven ≠ .detached → c.value = none

namespace Told
variable {c : Core O V E}

theorem driven_of_outcome (h : Told c) {r : Result V E} (hout : c.outcomes = [r]) :
    c.driven ≠ .idle := by
  intro hidle
  rw [(h.idle hidle).1] at hout
  exact List.cons_ne_nil _ _ hout.symm

/-- A core whose operation has not ended. -/
theorem of_nothing (c : Core O V E) (hout : c.outcomes = []) (hans : c.answers = [])
    (hvalue : c.value = none) (hfailure : c.driven ≠ .idle → c.failure = none)
    (hreports : c.reports = []) (hmoved : c.onFailure ≠ .moved) : Told c := by
  refine ⟨fun _ => ⟨hout, hans, hvalue⟩, fun hd _ => ⟨hfailure hd, hvalue⟩, fun r hr => ?_,
    fun hne => absurd hans hne, fun _ => ⟨hreports, hmoved⟩, fun r hr => ?_, fun _ => hreports,
    fun _ => hvalue, fun _ _ => hvalue⟩
  · exact absurd (hout.symm.trans hr) nofun
  · exact absurd (hans.symm.trans hr) nofun

/-- A core whose operation has ended, its driver not told yet. -/
theorem of_outcome (c : Core O V E) {r : Result V E} (hd : c.driven ≠ .idle)
    (hout : c.outcomes = [r]) (hresult : c.result = r) (hans : c.answers = [])
    (hreports : c.reports = []) (hmoved : c.onFailure ≠ .moved)
    (hfailed : c.failure ≠ none → c.value = none) : Told c := by
  refine ⟨fun hidle => absurd hidle hd, fun _ ho => ?_, fun x hx _ => ?_,
    fun hne => absurd hans hne, fun _ => ⟨hreports, hmoved⟩, fun x hx => ?_, fun _ => hreports,
    hfailed, fun hne => absurd hans hne⟩
  · exact absurd (hout.symm.trans ho) nofun
  · exact hresult.trans (List.cons.inj (hout.symm.trans hx)).1
  · exact absurd (hans.symm.trans hx) nofun

theorem of_answer (c : Core O V E) {r : Result V E} (hd : c.driven ≠ .idle)
    (hout : c.outcomes = [r]) (hans : c.answers = [r])
    (htold : c.driven = .detached → c.onFailure ≠ .empty → c.reports = failures r)
    (hothers : c.driven ≠ .detached → c.reports = []) (hfailed : c.failure ≠ none → c.value = none)
    (hspent : c.driven ≠ .detached → c.value = none) : Told c := by
  refine ⟨fun hidle => absurd hidle hd, fun _ ho => ?_, fun _ _ hnil => ?_,
    fun _ => hans.trans hout.symm, fun hnil => ?_, fun x hx => ?_, hothers, hfailed,
    fun _ => hspent⟩
  · exact absurd (hout.symm.trans ho) nofun
  · exact absurd (hans.symm.trans hnil) nofun
  · exact absurd (hans.symm.trans hnil) nofun
  · obtain ⟨rfl, -⟩ := List.cons.inj (hans.symm.trans hx)
    exact htold

/-- The driver is told what came of the operation. -/
theorem take (h : Told c) {r : Result V E} (hout : c.outcomes = [r]) (hans : c.answers = [])
    (hmode : c.driven ≠ .detached) : Told c.take := by
  have hvalue : c.take.value = none := by
    cases hfail : c.failure with
    | none => simp [hfail]
    | some failure => simpa [hfail] using h.failed (by simp [hfail])
  refine of_answer _ (h.driven_of_outcome hout) hout ?_ (fun hd => absurd hd hmode) h.others
    (fun _ => hvalue) fun _ => hvalue
  rw [Core.take, hans, h.result r hout hans]
  rfl

/-- A handler is told of a failure, once, and of nothing else. -/
theorem deliverFailure (h : Told c) {r : Result V E} (hout : c.outcomes = [r])
    (hans : c.answers = []) (hmode : c.driven = .detached) : Told c.deliverFailure := by
  have hresult := h.result r hout hans
  obtain ⟨hnone, hmoved⟩ := h.untold hans
  refine of_answer _ (h.driven_of_outcome hout) hout ?_ (fun _ hgiven => ?_)
    (fun hd => absurd hmode hd) h.failed fun hd => absurd hmode hd
  · rw [Core.deliverFailure, hans, hresult]
    rfl
  · cases hh : c.onFailure with
    | empty => simp [hh] at hgiven
    | moved => exact absurd hh hmoved
    | held =>
      rw [← hresult]
      cases hfail : c.failure <;> simp [Core.due, Core.result, failures, hh, hfail, hnone]

theorem returned (h : Told c) (hd : c.driven ≠ .idle) (hout : c.outcomes = [])
    (hans : c.answers = []) (v : Option V) : Told (c.returned v) := by
  obtain ⟨hfailure, -⟩ := h.fresh hd hout
  obtain ⟨hreports, hmoved⟩ := h.untold hans
  refine of_outcome (c.returned v) (r := .ok v) hd ?_ ?_ hans hreports hmoved ?_
  · simp [hout]
  · simp [Core.result, hfailure]
  · exact fun hne => absurd hfailure hne

theorem fail (h : Told c) (hd : c.driven ≠ .idle) (hout : c.outcomes = [])
    (hans : c.answers = []) (error : E) : Told (c.fail error) := by
  obtain ⟨hreports, hmoved⟩ := h.untold hans
  refine of_outcome (c.fail error) (r := .error (.raised error)) hd ?_ ?_ hans hreports hmoved ?_
  · simp [hout]
  · simp [Core.result]
  · exact fun _ => (h.fresh hd hout).2

end Told

section
variable [DecidableEq O] {f : Frame O E} {g g' : Shared O V E} {e : Event O}
  {fs : List (Frame O E)} {op : O}

theorem Rule.told (h : Rule kind live f g e fs g') (hok : Admitted op g e)
    (hc : Told (g.core op)) (hmode : f.Moded op (g.core op).driven)
    (hbefore : 0 < f.before op → (g.core op).outcomes = [] ∧ (g.core op).answers = [] ∧
      (g.core op).driven ≠ .idle)
    (hafter : 0 < f.after op + (g.core op).finished.toNat →
      ∃ r, (g.core op).outcomes = [r] ∧ (g.core op).answers = [])
    (hdead : f = .destroying op → (g.core op).driven ≠ .idle → (g.core op).answers ≠ []) :
    Told (g'.core op) := by
  have hupdate : ∀ x (c : Core O V E), (x = op → Told c) →
      Told (Function.update g.core x c op) := fun _ _ => Core.of_update hc
  have hpos : 0 < if op = op then 1 else 0 := by simp
  have hclaim : (g.core op).driven = .idle → (g.core op).failure = none →
      ∀ (c : Core O V E), c.outcomes = (g.core op).outcomes → c.answers = (g.core op).answers →
      c.value = (g.core op).value → c.failure = (g.core op).failure →
      c.reports = (g.core op).reports → c.onFailure ≠ .moved → Told c := by
    intro hidle hclean c ho ha hv hf hr hh
    obtain ⟨hout, hans, hvalue⟩ := hc.idle hidle
    exact .of_nothing c (ho.trans hout) (ha.trans hans) (hv.trans hvalue) (fun _ => hf.trans hclean)
      (hr.trans (hc.untold hans).1) hh
  cases h with
  | block _ _ x _ _ _ _ undriven =>
    refine hupdate x _ ?_
    rintro rfl
    exact hclaim undriven (hok.clean _ rfl) _ rfl rfl rfl rfl rfl
      (hc.untold (hc.idle undriven).2.1).2
  | start _ _ x _ handler _ given _ _ undriven =>
    refine hupdate x _ ?_
    rintro rfl
    exact hclaim undriven (hok.clean _ rfl) _ rfl rfl rfl rfl rfl given
  | coAwait _ x parent _ _ _ undriven =>
    refine hupdate x _ ?_
    rintro rfl
    exact hclaim undriven (hok.clean _ rfl) _ rfl rfl rfl rfl rfl
      (hc.untold (hc.idle undriven).2.1).2
  | startAgain _ _ x =>
    refine hupdate x _ ?_
    rintro rfl
    exact absurd rfl hok.once
  | awaitAgain _ x =>
    refine hupdate x _ ?_
    rintro rfl
    exact absurd rfl hok.once
  | rethrow _ x =>
    refine hupdate x _ ?_
    rintro rfl
    obtain ⟨hout, hans, hd⟩ := hbefore hpos
    obtain ⟨hreports, hmoved⟩ := hc.untold hans
    exact .of_nothing _ hout hans (hc.fresh hd hout).2 (fun hidle => absurd rfl hidle) hreports hmoved
  | failAwait _ x =>
    refine hupdate x _ ?_
    rintro rfl
    obtain ⟨hout, hans, hd⟩ := hbefore hpos
    obtain ⟨hreports, hmoved⟩ := hc.untold hans
    exact .of_nothing _ hout hans (hc.fresh hd hout).2 (fun hidle => absurd rfl hidle) hreports hmoved
  | submitThrows _ x error =>
    refine hupdate x _ ?_
    rintro rfl
    obtain ⟨hout, hans, hd⟩ := hbefore hpos
    have hfail := hc.fail hd hout hans error
    exact ⟨hfail.idle, hfail.fresh, hfail.result, hfail.answers, hfail.untold, hfail.told,
      hfail.others, hfail.failed, hfail.spent⟩
  | returns _ x value =>
    refine hupdate x _ ?_
    rintro rfl
    obtain ⟨hout, hans, hd⟩ := hbefore hpos
    exact hc.returned hd hout hans value
  | throws _ x error =>
    refine hupdate x _ ?_
    rintro rfl
    obtain ⟨hout, hans, hd⟩ := hbefore hpos
    exact hc.fail hd hout hans error
  | answeredAlready _ x =>
    refine hupdate x _ ?_
    rintro rfl
    obtain ⟨hout, hans, hd⟩ := hbefore hpos
    exact hc.returned hd hout hans none
  | callbackReturns _ x =>
    refine hupdate x _ ?_
    rintro rfl
    obtain ⟨hout, hans, hd⟩ := hbefore hpos
    exact hc.returned hd hout hans none
  | callbackThrows _ x error =>
    refine hupdate x _ ?_
    rintro rfl
    obtain ⟨hout, hans, hd⟩ := hbefore hpos
    exact hc.fail hd hout hans error
  | report _ x _ mode =>
    refine hupdate x _ ?_
    rintro rfl
    obtain ⟨r, hout, hans⟩ := hafter (Nat.add_pos_left hpos _)
    exact hc.deliverFailure hout hans mode
  | settleFailure _ x _ _ mode =>
    refine hupdate x _ ?_
    rintro rfl
    obtain ⟨r, hout, hans⟩ := hafter (Nat.add_pos_left hpos _)
    have htold := hc.deliverFailure hout hans mode
    exact ⟨htold.idle, htold.fresh, htold.result, htold.answers, htold.untold, htold.told,
      htold.others, htold.failed, htold.spent⟩
  | settledAlready _ x _ mode =>
    refine hupdate x _ ?_
    rintro rfl
    obtain ⟨r, hout, hans⟩ := hafter (Nat.add_pos_left hpos _)
    exact hc.deliverFailure hout hans mode
  | nothingToReport _ x _ mode =>
    refine hupdate x _ ?_
    rintro rfl
    obtain ⟨r, hout, hans⟩ := hafter (Nat.add_pos_left hpos _)
    exact hc.deliverFailure hout hans mode
  | resume _ x =>
    refine hupdate x _ ?_
    rintro rfl
    obtain ⟨r, hout, hans⟩ := hafter (Nat.add_pos_left hpos _)
    have htold := hc.take hout hans (hmode rfl ▸ nofun)
    exact ⟨htold.idle, htold.fresh, htold.result, htold.answers, htold.untold, htold.told,
      htold.others, htold.failed, htold.spent⟩
  | unpark _ x finished =>
    refine hupdate x _ ?_
    rintro rfl
    obtain ⟨r, hout, hans⟩ := hafter (Nat.add_pos_right _ (by rw [finished]; exact Nat.one_pos))
    have htold := hc.take hout hans (hmode rfl ▸ nofun)
    exact ⟨htold.idle, htold.fresh, htold.result, htold.answers, htold.untold, htold.told,
      htold.others, htold.failed, htold.spent⟩
  | destroyTransaction _ x =>
    refine hupdate x _ ?_
    rintro rfl
    have hanswered := hdead rfl
    refine ⟨fun hd => ?_, fun hd hout => ⟨(hc.fresh hd hout).1, rfl⟩, fun r hout hans => ?_,
      hc.answers, hc.untold, hc.told, hc.others, fun _ => rfl, fun _ _ => rfl⟩
    · exact ⟨(hc.idle hd).1, (hc.idle hd).2.1, rfl⟩
    · exact absurd hans (hanswered (hc.driven_of_outcome hout))
  | _ =>
    first
      | exact hc
      | exact hupdate _ _ (by
          rintro rfl
          exact ⟨hc.idle, hc.fresh, hc.result, hc.answers, hc.untold, hc.told, hc.others,
            hc.failed, hc.spent⟩)

def Frame.Dead (op : O) (c : Core O V E) : Frame O E → Prop
  | destroying x => x = op → c.refs = 0
  | _ => True

/-- Nobody gets hold of a core that nobody holds. -/
theorem Rule.refs_zero (h : Rule kind live f g e fs g') (hzero : (g.core op).refs = 0)
    (hcarries : f.carries op = 0) (htask : (g.core op).task ≠ .held) :
    (g'.core op).refs = 0 := by
  cases h <;> simp_all [Frame.carries, Shared.modify_field Core.refs]
  grind

theorem Rule.dead_new (h : Rule kind live f g e fs g') : ∀ x ∈ fs, x.Dead op (g'.core op) := by
  have huser : f.isUser kind = true → f.Dead op (g'.core op) := by
    cases f <;> simp [Frame.isUser, Frame.Dead]
  cases h <;>
    simp_all [Frame.Dead, or_imp, forall_and, Shared.modify_field Core.refs, Shared.drops] <;> grind

/-- `block` goes on when the result is there. -/
theorem Rule.finished_of_blocked (h : Rule kind live (.driving op .blocked) g e fs g') :
    (g.core op).finished = true := by
  cases h with
  | unpark _ _ finished => exact finished
  | _ => exact absurd ‹Frame.isUser kind (.driving op .blocked) = true› Bool.false_ne_true

/-- A drive action is dated. -/
theorem Rule.since_driven {x : O} {mode : Drive} (h : Rule kind live f g (.drive x mode) fs g') :
    (g.core x).driven = .idle ∧ g'.clock = g.clock + 1 ∧
      (∀ op, (g'.core op).since = if x = op then g.clock + 1 else (g.core op).since) ∧
      ∀ w ∈ g'.awaiting, w ∈ g.awaiting ∨ w.op = x ∧ f = .running w.parent := by
  cases h <;> simp_all [Shared.modify_field Core.since]

theorem Rule.since_kept (h : Rule kind live f g e fs g') (he : ∀ x mode, e ≠ .drive x mode) :
    g'.clock = g.clock ∧ (∀ op, (g'.core op).since = (g.core op).since) ∧
      ∀ w ∈ g'.awaiting, w ∈ g.awaiting := by
  cases h <;> simp_all [Shared.modify_field Core.since] <;> grind

/-- A coroutine was driven before what it awaits. -/
structure Dated (g : Shared O V E) : Prop where
  clock : ∀ op, (g.core op).since ≤ g.clock
  awaits : ∀ w ∈ g.awaiting, (g.core w.parent).since < (g.core w.op).since

theorem Rule.dated (h : Rule kind live f g e fs g') (hg : Dated g)
    (hidle : ∀ op, (g.core op).driven = .idle → ∀ w ∈ g.awaiting, w.op ≠ op ∧ w.parent ≠ op)
    (hrunning : ∀ op, f = .running op → (g.core op).driven ≠ .idle) : Dated g' := by
  by_cases he : ∃ x mode, e = .drive x mode
  · obtain ⟨x, mode, rfl⟩ := he
    obtain ⟨hx, hclock, hsince, hawaiting⟩ := h.since_driven
    constructor
    · intro op
      have hle := hg.clock op
      rw [hclock, hsince]
      split <;> omega
    · intro w hw
      rw [hsince, hsince]
      rcases hawaiting w hw with hold | ⟨hop, hf⟩
      · obtain ⟨hwop, hwparent⟩ := hidle x hx w hold
        rw [if_neg (Ne.symm hwparent), if_neg (Ne.symm hwop)]
        exact hg.awaits w hold
      · have hparent : x ≠ w.parent := by
          rintro rfl
          exact hrunning _ hf hx
        rw [if_neg hparent, if_pos hop.symm]
        exact Nat.lt_succ_of_le (hg.clock _)
  · push Not at he
    obtain ⟨hclock, hsince, hawaiting⟩ := h.since_kept he
    constructor
    · intro op
      rw [hclock, hsince]
      exact hg.clock op
    · intro w hw
      rw [hsince, hsince]
      exact hg.awaits w (hawaiting w hw)

end

section
variable [DecidableEq O] [Fintype T] [DecidableEq T] {s s' : Conf T (Frame O E) (Shared O V E)}
  {a : T × Event O} {op : O}

/-- A task, who asks for it, and what its driver is told. -/
structure Answering (kind : O → Kind) (op : O) (s : Conf T (Frame O E) (Shared O V E)) : Prop where
  claimed : Claimed op s
  told : Told (s.shared.core op)
  dead : s.Everywhere (Frame.Dead op (s.shared.core op))
  offers : (kind op).bound = true →
    s.total (Frame.offers op) + s.shared.accepted.countP (·.op = op) =
      (s.shared.core op).driven.claims

omit [DecidableEq T] in
theorem answering_fresh : Answering kind op (fresh : Conf T (Frame O E) (Shared O V E)) := by
  refine ⟨claimed_fresh, ?_, ?_, fun _ => ?_⟩
  · exact .of_nothing _ rfl rfl rfl (fun hd => absurd rfl hd) rfl nofun
  · simp [Conf.Everywhere, fresh, Frame.Dead]
  · simp [fresh, Conf.total, Frame.offers, Core.new, Drive.claims]

theorem Answering.step (h : Answering kind op s) (hr : (session T kind live).Reachable s)
    (hok : Admitted op s.shared a.2)
    (hkept : kind op = .coroutine → (s.shared.core op).driven = .detached →
      (s.shared.core op).answers = [] → 0 < (s.shared.core op).refs)
    (hs : (session T kind live).step s a s') : Answering kind op s' := by
  have hcarried := h.claimed.carried
  have hheld : (s.shared.core op).driven ≠ .idle → (s.shared.core op).answers = [] →
      0 < (s.shared.core op).refs := by
    intro hd hans
    by_cases hstarted : kind op = .coroutine ∧ (s.shared.core op).driven = .detached
    · exact hkept hstarted.1 hstarted.2 hans
    · exact h.claimed.refs_pos hr hd hans fun hk hdet => hstarted ⟨hk, hdet⟩
  have hs' := hs
  cases hs with
  | @run t f rest fs e g top rule =>
    have hmem : f ∈ s.stack t := top ▸ List.mem_cons_self
    refine ⟨h.claimed.step hok hs', ?_, ?_, fun hb => hcarried.offers_step hok hb (h.offers hb) hs'⟩
    · apply rule.told hok h.told (h.claimed.modes.frames t f hmem) (hcarried.of_before hmem)
      · intro hpos
        have hle := Conf.le_total (Frame.after op) hmem
        exact hcarried.of_after (by omega)
      · rintro rfl hd hans
        have hzero := h.dead t _ hmem rfl
        exact absurd hzero (hheld hd hans).ne'
    · refine h.dead.step hs' ?_ fun _ _ _ _ hrule => hrule.dead_new
      intro i x hx hdead
      cases x with
      | destroying x =>
        intro hop
        have hzero := hdead hop
        have hrefs := (counted kind live hr).refs op
        apply rule.refs_zero hzero
        · by_contra hne
          have hpos := Nat.pos_of_ne_zero hne
          have hrefs := hheld (hcarried.driven_of_pos hmem hpos) (hcarried.answers_of_pos hmem hpos)
          omega
        · intro hheld
          rw [Shared.refs, hheld, Holder.refs] at hrefs
          omega
      | _ => trivial

omit [DecidableEq T] in
/-- Nobody waits for a task that is idle, and it waits for nobody. -/
theorem Claimed.not_awaiting (h : Claimed op s) (hidle : (s.shared.core op).driven = .idle) :
    ∀ w ∈ s.shared.awaiting, w.op ≠ op ∧ w.parent ≠ op := by
  have hcarries := h.carried.carries
  rw [hidle, Drive.claims, Shared.carries] at hcarries
  have hop := List.countP_eq_zero.mp (h.asked.none (by simp [hidle]))
  have hparent : s.shared.awaiting.countP (·.parent = op) = 0 := by omega
  intro w hw
  exact ⟨fun hx => hop w hw (decide_eq_true hx),
    fun hx => List.countP_eq_zero.mp hparent w hw (decide_eq_true hx)⟩

/-- The condition on a step: no task is driven while it is driven, the executor of every operation
of the session is found, no task is driven after a `co_await` of it was refused, and a coroutine that
was started is held until it is over. -/
structure Answerable (kind : O → Kind) (g : Shared O V E) (e : Event O) : Prop where
  admitted : ∀ op, Admitted op g e
  kept : ∀ op, kind op = .coroutine → (g.core op).driven = .detached →
    (g.core op).answers = [] → 0 < (g.core op).refs

theorem answering (kind : O → Kind) (live : V → Bool)
    (h : (session T kind live).Reach (fun s a => Answerable kind s.shared a.2) s) :
    (∀ op, Answering kind op s) ∧ Dated s.shared := by
  apply h.invariant
  · rintro _ rfl
    exact ⟨fun op => answering_fresh, fun _ => le_rfl, nofun⟩
  · intro s a s' hr hi hok hs
    refine ⟨fun op => (hi.1 op).step hr.reachable (hok.admitted op) (hok.kept op) hs, ?_⟩
    cases hs with
    | @run t f rest fs e g top rule =>
      apply rule.dated hi.2
      · exact fun op hidle => (hi.1 op).claimed.not_awaiting hidle
      · rintro op rfl
        apply (hi.1 op).claimed.carried.driven_of_pos (top ▸ List.mem_cons_self)
        simp [Frame.carries]

omit [DecidableEq T] in
/-- A run at rest has told every driver, or has the result ready for a thread that blocks. -/
theorem AtRest.answered (h : AtRest s) (ho : Orderly kind s) (hall : ∀ op, Claimed op s)
    (hdated : Dated s.shared) (op : O) (hd : (s.shared.core op).driven ≠ .idle) :
    (s.shared.core op).finished.toNat + (s.shared.core op).answers.length = 1 := by
  -- a suspended coroutine awaits a task that was driven later: by induction on the time left
  induction hleft : s.shared.clock - (s.shared.core op).since using Nat.strong_induction_on
    generalizing op with
  | _ left ih =>
    have hcount := h.carried ho (hall op).carried hd
    by_cases hsuspended : 0 < s.shared.awaiting.countP (·.parent = op)
    · obtain ⟨w, hw, hparent⟩ := List.countP_pos_iff.mp hsuspended
      have hlater := hdated.awaits w hw
      have hclock := hdated.clock w.op
      rw [of_decide_eq_true hparent] at hlater
      have hasked : 0 < s.shared.awaiting.countP (·.op = w.op) :=
        List.countP_pos_iff.mpr ⟨w, hw, decide_eq_true rfl⟩
      have hawaited : (s.shared.core w.op).driven = .awaited := by
        by_contra hnot
        exact hasked.ne' ((hall w.op).asked.none hnot)
      have hone := (hall w.op).asked.one hawaited
      have hnext := ih _ (by omega) w.op (hawaited ▸ nofun) rfl
      rw [(hall w.op).modes.not_finished (hawaited ▸ nofun), Bool.toNat_false] at hnext
      omega
    · omega

end

end Uniorm.Async
