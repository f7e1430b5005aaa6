import Uniorm.Async.Told
import Uniorm.Async.Barrier

/-! # One visit to `on_done` for each accepted request

A callback request can be answered by its body and by the handler `answer` starts it with. The guard
they share lets the first of them through. A request is driven by `answer` alone, on an executor
that was named, so that whatever else the session is used for one of the two is reached.
-/
namespace Uniorm.Async

open Foundation

variable {T O V E : Type*} {kind : O → Kind} {live : V → Bool}

theorem Kind.ne_coroutine_of_answers {k : Kind} (h : k.answers = true) : k ≠ .coroutine := by
  rintro rfl
  exact Bool.false_ne_true h

section
variable [DecidableEq O] {f : Frame O E} {g g' : Shared O V E} {e : Event O}
  {fs : List (Frame O E)} {op : O}

namespace Frame

/-- `on_done` called from the body. -/
def visiting (op : O) : Frame O E → ℕ
  | callback x => if x = op then 1 else 0
  | _ => 0

/-- What the frames know of a callback request: its body has called `on_done` or it has failed, and
its executor was found. -/
def Settles (op : O) (c : Core O V E) : Frame O E → Prop
  | callback x => x = op → c.settled = true
  | final x _ | finish x _ | finishing x _ | deliver x _ =>
    x = op → c.settled = true ∨ c.failure.isSome = true
  | threw start => start.op ≠ op
  | _ => True

omit [DecidableEq O] in
theorem Settles.mono {c c' : Core O V E} (h : f.Settles op c) (hc : Grows c c') :
    f.Settles op c' := by
  cases f with
  | callback x => exact fun hx => hc.settled (h hx)
  | final x _ => exact fun hx => (h hx).imp hc.settled hc.failure
  | finish x _ => exact fun hx => (h hx).imp hc.settled hc.failure
  | finishing x _ => exact fun hx => (h hx).imp hc.settled hc.failure
  | deliver x _ => exact fun hx => (h hx).imp hc.settled hc.failure
  | threw start => exact h
  | _ => trivial

end Frame

/-- The core of a callback request: `answer` starts it detached, with a handler, and `on_done` has
been called by the time the request is answered. -/
structure Faced (c : Core O V E) : Prop where
  mode : c.driven ≠ .idle → c.driven = .detached
  handler : c.driven ≠ .idle → c.answers = [] → c.onFailure = .held
  failed : ∀ x, c.failure = some x → ∃ error, x = .raised error ∧ c.outcomes = [.error x]
  told : c.answers ≠ [] → c.settled = true
  visits : c.visits.length = c.settled.toNat

theorem Rule.settles_new (h : Rule kind live f g e fs g') (ha : (kind op).answers = true)
    (hrun : (kind op).runOn = true) (hf : f.Settles op (g.core op)) :
    ∀ x ∈ fs, x.Settles op (g'.core op) := by
  have hkept : f.Settles op (g'.core op) := hf.mono (h.grows op)
  have hother : ∀ x, (kind x).answers = false → x ≠ op := by
    rintro x hx rfl
    exact Bool.false_ne_true (hx.symm.trans ha)
  have hunset : ∀ x, (kind x).runOn = false → x ≠ op := by
    rintro x hx rfl
    exact Bool.false_ne_true (hx.symm.trans hrun)
  cases h with
  | returns _ x _ face => simp [Frame.Settles, hother x face]
  | throws _ x _ face => simp [Frame.Settles, hother x face]
  | lookupThrows _ start unset => simp [Frame.Settles, hunset start.op unset]
  | submitThrows _ x error =>
    simp only [List.mem_cons, List.not_mem_nil, or_false]
    rintro _ (rfl | rfl)
    · rintro rfl
      exact .inr (by simp)
    · trivial
  | answeredAlready _ x _ settled =>
    rintro _ (_ | ⟨_, ⟨⟩⟩) rfl
    simp [settled]
  | _ =>
    simp_all [Frame.Settles, or_imp, forall_and, Shared.modify_field Core.settled]

omit [DecidableEq O] in
theorem Faced.clean {c : Core O V E} (h : Faced c) (hout : c.outcomes = []) : c.failure = none := by
  by_contra hsome
  obtain ⟨x, hx⟩ := Option.ne_none_iff_exists'.mp hsome
  obtain ⟨-, -, hfailed⟩ := h.failed x hx
  exact List.cons_ne_nil _ _ (hfailed.symm.trans hout)

omit [DecidableEq O] in
theorem Faced.visits_eq_nil {c : Core O V E} (h : Faced c) (hunsettled : c.settled = false) :
    c.visits = [] := by
  have hlen := h.visits
  rw [hunsettled, Bool.toNat_false] at hlen
  exact List.length_eq_zero_iff.mp hlen

omit [DecidableEq O] in
theorem Faced.returned {c : Core O V E} (h : Faced c) (hout : c.outcomes = []) (v : Option V) :
    Faced (c.returned v) := by
  refine ⟨h.mode, h.handler, fun x hx => ?_, h.told, h.visits⟩
  exact absurd ((h.clean hout).symm.trans hx) nofun

omit [DecidableEq O] in
theorem Faced.fail {c : Core O V E} (h : Faced c) (hout : c.outcomes = []) (error : E) :
    Faced (c.fail error) := by
  refine ⟨h.mode, h.handler, ?_, h.told, h.visits⟩
  rintro _ ⟨⟩
  refine ⟨error, rfl, ?_⟩
  rw [Core.fail, hout]
  rfl

omit [DecidableEq O] in
theorem Faced.delivered {c : Core O V E} (h : Faced c) (hsettled : c.settled = true) :
    Faced c.deliverFailure :=
  ⟨h.mode, fun _ ha => absurd ha (List.append_ne_nil_of_right_ne_nil _ nofun), h.failed,
    fun _ => hsettled, h.visits⟩

theorem Rule.faced (h : Rule kind live f g e fs g') (ha : (kind op).answers = true)
    (hc : Faced (g.core op)) (hf : f.Settles op (g.core op))
    (hmode : f.Moded op (g.core op).driven)
    (hbefore : 0 < f.before op → (g.core op).outcomes = [] ∧ (g.core op).driven ≠ .idle)
    (hafter : 0 < f.after op → (g.core op).answers = [] ∧ (g.core op).driven ≠ .idle) :
    Faced (g'.core op) := by
  have hother : ∀ x, (kind x).answers = false → x ≠ op := by
    rintro x hx rfl
    exact Bool.false_ne_true (hx.symm.trans ha)
  have hpos : 0 < if op = op then 1 else 0 := by simp
  have hupdate : ∀ x (c : Core O V E), (x = op → Faced c) →
      Faced (Function.update g.core x c op) := fun _ _ => Core.of_update hc
  cases h with
  | block _ _ x _ _ face => exact hupdate _ _ fun hx => absurd hx (hother x face)
  | coAwait _ x _ _ face => exact hupdate _ _ fun hx => absurd hx (hother x face)
  | startAgain _ _ x _ _ _ face => exact hupdate _ _ fun hx => absurd hx (hother x face)
  | awaitAgain _ x _ _ face => exact hupdate _ _ fun hx => absurd hx (hother x face)
  | returns _ x _ face => exact hupdate _ _ fun hx => absurd hx (hother x face)
  | throws _ x _ face => exact hupdate _ _ fun hx => absurd hx (hother x face)
  | report _ x _ _ face => exact hupdate _ _ fun hx => absurd hx (hother x face)
  | start _ _ x _ handler _ _ face =>
    refine hupdate _ _ ?_
    rintro rfl
    exact ⟨fun _ => rfl, fun _ _ => (face ha).1, hc.failed, hc.told, hc.visits⟩
  | rethrow _ x =>
    refine hupdate _ _ ?_
    rintro rfl
    exact ⟨fun hd => absurd rfl hd, fun hd => absurd rfl hd, hc.failed, hc.told, hc.visits⟩
  | failAwait _ x =>
    refine hupdate _ _ ?_
    rintro rfl
    have hd := hmode rfl
    exact absurd (hd.symm.trans (hc.mode (hbefore hpos).2)) nofun
  | resume _ x =>
    refine hupdate _ _ ?_
    rintro rfl
    exact absurd ((hmode rfl).symm.trans (hc.mode (hafter hpos).2)) nofun
  | unpark _ x =>
    refine hupdate _ _ ?_
    rintro rfl
    have hd := hmode rfl
    exact absurd (hd.symm.trans (hc.mode (hd ▸ nofun))) nofun
  | submitThrows _ x error =>
    refine hupdate _ _ ?_
    rintro rfl
    exact ⟨hc.mode, hc.handler, (hc.fail (hbefore hpos).1 error).failed, hc.told, hc.visits⟩
  | callbackReturns _ x =>
    refine hupdate _ _ ?_
    rintro rfl
    exact hc.returned (hbefore hpos).1 none
  | callbackThrows _ x error =>
    refine hupdate _ _ ?_
    rintro rfl
    exact hc.fail (hbefore hpos).1 error
  | answeredAlready _ x =>
    refine hupdate _ _ ?_
    rintro rfl
    exact hc.returned (hbefore hpos).1 none
  | answered _ x _ _ unsettled =>
    refine hupdate _ _ ?_
    rintro rfl
    have hnone := hc.visits_eq_nil unsettled
    exact ⟨hc.mode, hc.handler, hc.failed, fun _ => rfl, by simp [hnone]⟩
  | settleFailure _ x _ _ _ _ _ _ unsettled =>
    refine hupdate _ _ ?_
    rintro rfl
    have hnone := hc.visits_eq_nil unsettled
    exact ⟨hc.mode, fun _ ha => absurd ha (List.append_ne_nil_of_right_ne_nil _ nofun), hc.failed,
      fun _ => rfl, by simp [hnone]⟩
  | settledAlready _ x _ _ _ _ settled =>
    refine hupdate _ _ ?_
    rintro rfl
    exact hc.delivered settled
  | nothingToReport _ x _ _ due =>
    refine hupdate _ _ ?_
    rintro rfl
    obtain ⟨hans, hidle⟩ := hafter hpos
    have hheld := hc.handler hidle hans
    apply hc.delivered
    rcases hf rfl with hs | hfail
    · exact hs
    · simp [Core.due, hheld, hfail] at due
  | _ =>
    first
      | exact hc
      | exact hupdate _ _ (by
          rintro rfl
          exact ⟨hc.mode, hc.handler, hc.failed, hc.told, hc.visits⟩)

/-- The guard is up once `on_done` is being called, or once something has come of the request. -/
theorem Rule.visiting_le (h : Rule kind live f g e fs g') (ha : (kind op).answers = true) :
    f.visiting op + (g.core op).outcomes.length ≤
        (fs.map (Frame.visiting op)).sum + (g'.core op).outcomes.length ∧
      ((g'.core op).settled = (g.core op).settled ∨ 0 < (fs.map (Frame.visiting op)).sum ∨
        0 < f.after op) := by
  have hother : ∀ x, (kind x).answers = false → x ≠ op := by
    rintro x hx rfl
    exact Bool.false_ne_true (hx.symm.trans ha)
  cases h <;>
    simp_all [Frame.visiting, Frame.after, Shared.modify_field Core.outcomes,
      Shared.modify_field Core.settled] <;> grind

end

section
variable [DecidableEq O] [Fintype T] [DecidableEq T] {s s' : Conf T (Frame O E) (Shared O V E)}
  {a : T × Event O} {op : O}

/-- A callback request, wherever it is. -/
structure Served (op : O) (s : Conf T (Frame O E) (Shared O V E)) : Prop where
  carried : Carried op s
  modes : Modes op s
  faced : Faced (s.shared.core op)
  frames : s.Everywhere (Frame.Settles op (s.shared.core op))
  settled : (s.shared.core op).settled.toNat ≤
    s.total (Frame.visiting op) + (s.shared.core op).outcomes.length
  offers : s.total (Frame.offers op) + s.shared.accepted.countP (·.op = op) =
    (s.shared.core op).driven.claims

omit [DecidableEq T] in
theorem served_fresh : Served op (fresh : Conf T (Frame O E) (Shared O V E)) := by
  refine ⟨carried_fresh, modes_fresh, ?_, ?_, ?_, ?_⟩
  · constructor <;> simp [fresh, Core.new]
  · simp [Conf.Everywhere, fresh, Frame.Settles]
  · simp [fresh, Core.new]
  · simp [fresh, Conf.total, Frame.offers, Core.new, Drive.claims]

/-- Nobody but `answer` drives a callback request, and it does so once the request is new. -/
theorem Served.admitted (h : Served op s) (ha : (kind op).answers = true)
    (hs : (session T kind live).step s a s') : Admitted op s.shared a.2 := by
  have hface : ∀ {x}, (kind x).answers = false → x ≠ op := by
    rintro x hx rfl
    exact Bool.false_ne_true (hx.symm.trans ha)
  have hnew : (s.shared.core op).driven = .idle → (s.shared.core op).failure = none := by
    intro hidle
    have hbefore := h.carried.before
    rw [hidle, Drive.claims, Shared.before] at hbefore
    exact h.faced.clean (List.length_eq_zero_iff.mp (by omega))
  cases hs with
  | @run t f rest fs e g top rule =>
    have hmem : f ∈ s.stack t := top ▸ List.mem_cons_self
    have hsettles := h.frames t f hmem
    cases rule with
    | block _ _ x _ _ face =>
      refine ⟨by simp, by simp, ?_⟩
      rintro _ ⟨⟩
      exact absurd rfl (hface face)
    | start _ _ x _ _ _ _ _ _ undriven =>
      refine ⟨by simp, by simp, ?_⟩
      rintro _ ⟨⟩
      exact hnew undriven
    | coAwait _ x _ _ face =>
      refine ⟨by simp, by simp, ?_⟩
      rintro _ ⟨⟩
      exact absurd rfl (hface face)
    | startAgain _ _ x _ _ _ face =>
      refine ⟨?_, by simp, by simp⟩
      rintro ⟨⟩
      exact absurd rfl (hface face)
    | awaitAgain _ x _ _ face =>
      refine ⟨?_, by simp, by simp⟩
      rintro ⟨⟩
      exact absurd rfl (hface face)
    | relockThrown _ start =>
      refine ⟨by simp, ?_, by simp⟩
      rintro ⟨⟩
      exact hsettles rfl
    | _ => exact ⟨by simp, by simp, by simp⟩

theorem Served.step (h : Served op s) (ha : (kind op).answers = true)
    (hrun : (kind op).runOn = true) (hs : (session T kind live).step s a s') : Served op s' := by
  have hok := h.admitted ha hs
  have hs' := hs
  cases hs with
  | @run t f rest fs e g top rule =>
    have hmem : f ∈ s.stack t := top ▸ List.mem_cons_self
    have hsettles := h.frames t f hmem
    have hbefore : 0 < f.before op →
        (s.shared.core op).outcomes = [] ∧ (s.shared.core op).driven ≠ .idle := by
      intro hf
      obtain ⟨hout, -, hd⟩ := h.carried.of_before hmem hf
      exact ⟨hout, hd⟩
    have hafter : 0 < f.after op → ∃ r, (s.shared.core op).outcomes = [r] ∧
        (s.shared.core op).answers = [] := by
      intro hf
      have hle := Conf.le_total (Frame.after op) hmem
      exact h.carried.of_after (by omega)
    refine ⟨h.carried.step hok hs', h.modes.step h.carried hok hs', ?_, ?_, ?_, ?_⟩
    · apply rule.faced ha h.faced hsettles (h.modes.frames t f hmem) hbefore
      intro hf
      obtain ⟨-, -, hans⟩ := hafter hf
      have hle := f.after_le_carries op
      exact ⟨hans, h.carried.driven_of_pos hmem (by omega)⟩
    · refine h.frames.step hs' ?_ ?_
      · exact fun _ _ _ hx => hx.mono (rule.grows op)
      · exact fun _ _ _ hx hr => hr.settles_new ha hrun hx
    · obtain ⟨hle, hcases⟩ := rule.visiting_le ha
      have hsum := Conf.total_set (Frame.visiting op) fs g top
      have hown := Conf.le_total (Frame.visiting op) hmem
      have hsettled := h.settled
      have hone := (g.core op).settled.toNat_le
      rw [Conf.set_shared]
      rcases hcases with hsame | hvisiting | hf
      · rw [hsame]
        omega
      · omega
      · obtain ⟨r, hout, -⟩ := hafter hf
        rw [hout, List.length_singleton] at hle
        omega
    · exact h.carried.offers_step hok (Kind.bound_of_answers ha) h.offers hs'

theorem served (kind : O → Kind) (live : V → Bool) (ha : (kind op).answers = true)
    (hrun : (kind op).runOn = true) (h : (session T kind live).Reachable s) : Served op s := by
  apply h.invariant
  · rintro _ rfl
    exact served_fresh
  · exact fun _ _ _ _ hi _ hs => hi.step ha hrun hs

/-- A claimed operation still on its way to its answer: in the queue, with an executor, or in a
call. -/
def OnItsWay (op : O) (s : Conf T (Frame O E) (Shared O V E)) : Prop :=
  (∃ start ∈ s.shared.queue.waiting, start.op = op) ∨ op ∈ s.shared.pending ∨
    ∃ t, ∃ f ∈ s.stack t, 0 < f.carries op

namespace Served

omit [DecidableEq T] in
/-- `on_done` is called for what has been accepted, which happens once. -/
theorem visits_le (h : Served op s) :
    (s.shared.core op).visits.length ≤ s.shared.accepted.countP (·.op = op) ∧
      s.shared.accepted.countP (·.op = op) ≤ 1 := by
  have hsplit : s.total (Frame.offers op) + s.total (Frame.visiting op) ≤
      s.total (Frame.before op) := by
    rw [← Conf.total_add]
    exact Conf.total_mono fun f => by cases f <;> simp [Frame.offers, Frame.visiting, Frame.before]
  have hvisits := h.faced.visits
  have hsettled := h.settled
  have hbefore := h.carried.before
  have hoffers := h.offers
  have hone := (s.shared.core op).driven.claims_le
  rw [Shared.before] at hbefore
  omega

omit [DecidableEq T] in
theorem driven_of_accepted (h : Served op s) (hacc : 0 < s.shared.accepted.countP (·.op = op)) :
    (s.shared.core op).driven = .detached := by
  have hoffers := h.offers
  exact h.faced.mode (Drive.claims_pos.mp (by omega))

omit [DecidableEq T] in
theorem visits_of_answers (h : Served op s) (hans : (s.shared.core op).answers ≠ []) :
    (s.shared.core op).visits.length = 1 := by
  rw [h.faced.visits, h.faced.told hans, Bool.toNat_true]

theorem onItsWay (h : Served op s) (hr : (session T kind live).Reachable s)
    (ha : (kind op).answers = true) (hacc : 0 < s.shared.accepted.countP (·.op = op))
    (hnone : (s.shared.core op).visits = []) : OnItsWay op s := by
  have hd := h.driven_of_accepted hacc
  have hcarries := h.carried.carries
  have hans : (s.shared.core op).answers = [] := by
    by_contra hans
    have hone := h.visits_of_answers hans
    rw [hnone] at hone
    cases hone
  rw [Shared.carries, h.modes.not_resuming (by simp [hd]),
    not_suspended kind live hr (Kind.ne_coroutine_of_answers ha), h.modes.not_finished (by simp [hd]),
    hans, hd] at hcarries
  simp only [Drive.claims, Bool.toNat_false, List.length_nil] at hcarries
  by_cases hwaiting : 0 < s.shared.queue.waiting.countP (·.op = op)
  · obtain ⟨start, hstart, hop⟩ := List.countP_pos_iff.mp hwaiting
    exact .inl ⟨start, hstart, of_decide_eq_true hop⟩
  by_cases hpending : 0 < s.shared.pending.count op
  · exact .inr (.inl (List.count_pos_iff.mp hpending))
  · exact .inr (.inr (Conf.exists_of_total_pos (by omega)))

/-- Nothing that was accepted comes to rest without its visit. -/
theorem visited_at_rest (h : Served op s) (hr : (session T kind live).Reachable s)
    (ha : (kind op).answers = true) (hrest : AtRest s)
    (hacc : 0 < s.shared.accepted.countP (·.op = op)) :
    (s.shared.core op).visits.length = 1 := by
  have hd := h.driven_of_accepted hacc
  have hcount := hrest.carried (orderly kind live hr) h.carried (by simp [hd])
  rw [not_suspended kind live hr (Kind.ne_coroutine_of_answers ha),
    h.modes.not_finished (by simp [hd])] at hcount
  apply h.visits_of_answers
  intro hnil
  rw [hnil] at hcount
  cases hcount

end Served

end

end Uniorm.Async
