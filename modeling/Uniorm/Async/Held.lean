import Uniorm.Async.Answers

/-! # Who holds an operation until it is answered

The thread in `block` holds the task object, a suspended coroutine holds its awaiter, and an
operation that was started is held by the starter or the closure it travels in, under whose frame it
runs. A coroutine that was started is not, once it has been suspended.
-/
namespace Uniorm.Async

open Foundation

variable {T O V E : Type*} {kind : O → Kind} {live : V → Bool}

section
variable [DecidableEq O] {f : Frame O E} {g g' : Shared O V E} {e : Event O}
  {fs : List (Frame O E)} {op : O}

structure Asked (op : O) (awaiting : List (Await O)) (c : Core O V E) : Prop where
  none : c.driven ≠ .awaited → awaiting.countP (·.op = op) = 0
  one : c.driven = .awaited → awaiting.countP (·.op = op) + c.answers.length = 1

theorem Asked.of_count {l l' : List (Await O)} {c : Core O V E} (h : Asked op l c)
    (hcount : l'.countP (·.op = op) = l.countP (·.op = op)) : Asked op l' c := by
  constructor
  · rw [hcount]
    exact h.none
  · rw [hcount]
    exact h.one

theorem Asked.delivered {l : List (Await O)} {c : Core O V E} (h : Asked op l c)
    (hd : c.driven = .detached) : Asked op l c.deliverFailure :=
  ⟨fun _ => h.none (hd ▸ nofun), fun haw => absurd (hd.symm.trans haw) nofun⟩

theorem Rule.asked (h : Rule kind live f g e fs g') (hok : Admitted op g e)
    (ha : Asked op g.awaiting (g.core op)) (hmode : f.Moded op (g.core op).driven)
    (hidle : (g.core op).driven = .idle → (g.core op).answers = []) :
    Asked op g'.awaiting (g'.core op) := by
  have hupdate : ∀ x (c : Core O V E), (x = op → Asked op g.awaiting c) →
      Asked op g.awaiting (Function.update g.core x c op) := fun _ _ => Core.of_update ha
  cases h with
  | block _ _ x _ _ _ _ undriven =>
    refine hupdate x _ ?_
    rintro rfl
    exact ⟨fun _ => ha.none (undriven ▸ nofun), nofun⟩
  | start _ _ x _ _ _ _ _ _ undriven =>
    refine hupdate x _ ?_
    rintro rfl
    exact ⟨fun _ => ha.none (undriven ▸ nofun), nofun⟩
  | coAwait _ x parent _ _ _ undriven =>
    by_cases hx : x = op
    · subst hx
      refine ⟨fun hd => absurd ?_ hd, fun _ => ?_⟩
      · simp
      · have hzero := ha.none (undriven ▸ nofun)
        simp [hzero, hidle undriven]
    · apply (hupdate x _ fun hop => absurd hop hx).of_count
      simp [hx]
  | awaitAgain _ x =>
    refine hupdate x _ ?_
    rintro rfl
    exact absurd rfl hok.once
  | rethrow _ x mode _ call =>
    refine hupdate x _ ?_
    rintro rfl
    exact ⟨fun _ => ha.none ((hmode rfl).trans_ne call), nofun⟩
  | failAwait _ x parent _ before behind _ there =>
    by_cases hx : x = op
    · subst hx
      have hone := ha.one (hmode rfl)
      rw [there, List.countP_append, List.countP_cons_of_pos (by simp)] at hone
      refine ⟨fun _ => ?_, fun hd => ?_⟩
      · rw [List.countP_append]
        omega
      · simp at hd
    · apply (hupdate x _ fun hop => absurd hop hx).of_count
      rw [there]
      simp [hx]
  | report _ x _ mode =>
    refine hupdate x _ ?_
    rintro rfl
    exact ha.delivered mode
  | settleFailure _ x _ _ mode =>
    refine hupdate x _ ?_
    rintro rfl
    exact ⟨(ha.delivered mode).none, (ha.delivered mode).one⟩
  | settledAlready _ x _ mode =>
    refine hupdate x _ ?_
    rintro rfl
    exact ha.delivered mode
  | nothingToReport _ x _ mode =>
    refine hupdate x _ ?_
    rintro rfl
    exact ha.delivered mode
  | resume _ x parent before behind _ there =>
    by_cases hx : x = op
    · subst hx
      have hd := hmode rfl
      have hone := ha.one hd
      rw [there, List.countP_append, List.countP_cons_of_pos (by simp)] at hone
      refine ⟨fun hnot => ?_, fun _ => ?_⟩
      · simp [hd] at hnot
      · simp only [Shared.modify_core_self, Core.take, Core.release, List.countP_append,
          List.length_append, List.length_singleton]
        omega
    · apply (hupdate x _ fun hop => absurd hop hx).of_count
      rw [there]
      simp [hx]
  | unpark _ x =>
    refine hupdate x _ ?_
    rintro rfl
    have hd := hmode rfl
    exact ⟨fun _ => ha.none (hd ▸ nofun), fun haw => absurd (hd.symm.trans haw) nofun⟩
  | _ =>
    first
      | exact ha
      | exact hupdate _ _ (by
          rintro rfl
          exact ⟨ha.none, ha.one⟩)

/-- A thread in `block` stays there until it is told. -/
theorem Rule.acts_of_blocked (h : Rule kind live f g e fs g')
    (hmode : f.Moded op (g.core op).driven) (hd : (g'.core op).driven = .blocked)
    (hans : (g'.core op).answers = []) :
    0 < (fs.map (Frame.acts op)).sum ∨
      (g.core op).driven = .blocked ∧ (g.core op).answers = [] ∧
        f.acts op ≤ (fs.map (Frame.acts op)).sum := by
  cases h with
  | unpark _ x =>
    by_cases hx : x = op
    · subst hx
      simp at hans
    · simp_all [Frame.acts, Shared.modify_field Core.driven, Shared.modify_field Core.answers]
  | _ =>
    simp_all [Frame.acts, Frame.Moded, Shared.modify_field Core.driven,
      Shared.modify_field Core.answers] <;> grind

namespace Frame

/-- What a frame stands on: the caller's own code on nothing, and its calls on it; `begin` on the call
that looked the executor up, an operation on the closure it runs in, unless it is a coroutine of the
caller's, which another one may have resumed, and a closure on the caller's code or, run on the
spot, on what gave it to the executor. -/
def Stands (kind : O → Kind) (f y : Frame O E) : Prop :=
  match f with
  | base => False
  | launch _ mode | push _ mode | pushing _ mode | launched _ mode | refused _ mode _
  | driving _ mode => mode ≠ .awaited → y.isUser kind = true
  | begin op => (∃ start, start.op = op ∧ y = .starting start) ∨ ∃ mode, y = .driving op mode
  | holding op => y.isUser kind = true ∨ (∃ start, start.op = op ∧ y = .starting start) ∨
      (∃ mode, y = .driving op mode) ∨ y = .holding op ∨ ∃ mode failure, y = .refused op mode failure
  | running op | callback op | final op _ | finish op _ | finishing op _ | deliver op _ =>
    kind op ≠ .coroutine → y = .holding op
  | _ => True

end Frame

theorem Rule.stands (h : Rule kind live f g e fs g') (hp : g.Parents kind) :
    fs.IsChain (Frame.Stands kind) ∧
      ∀ x ∈ fs.getLast?, ∀ y, f.Stands kind y → x.Stands kind y := by
  have hdrops : ∀ op (x : Frame O E), (g.drops op ++ [x]).IsChain (Frame.Stands kind) := by
    intro op x
    unfold Shared.drops
    split <;> simp [Frame.Stands]
  cases h with
  | failAwait _ op parent _ _ _ parked =>
    simp_all [Frame.Stands, hp op parent parked]
  | resume _ op parent _ _ parked =>
    simp_all [Frame.Stands, hp op parent parked]
  | letGo _ op =>
    rw [Shared.drops]
    split <;> simp [Frame.Stands]
  | submitInline _ op =>
    refine ⟨by simp [Frame.Stands], ?_⟩
    rintro _ ⟨⟩ y hy
    exact .inr (hy.imp_right .inl)
  | submitThrows _ op =>
    refine ⟨by simp [Frame.Stands], ?_⟩
    rintro _ ⟨⟩ y hy
    exact .inr (hy.imp_right .inl)
  | handOverInline _ op _ named =>
    have hop : kind op ≠ .coroutine := by
      rintro hc
      rw [hc] at named
      cases named
    refine ⟨by simp [Frame.Stands], ?_⟩
    rintro _ ⟨⟩ y hy
    exact .inr (.inr (.inr (.inl (hy hop))))
  | dropTask _ _ op => simp [hdrops op f]
  | launched _ op mode => simp [hdrops op, Frame.Stands]
  | destroyStarter _ start => simp [hdrops start.op, Frame.Stands]
  | _ =>
    clear hdrops hp
    first
      | refine ⟨List.isChain_singleton _, ?_⟩
        rintro _ ⟨⟩ _ hy
        first | exact hy | trivial
      | refine ⟨List.isChain_nil, ?_⟩
        rintro _ ⟨⟩
      | simp_all [Frame.Stands]

theorem Rule.bottom (h : Rule kind live .base g e fs g') : fs.getLast? = some .base := by
  cases h <;> simp

end

section
variable [DecidableEq O] [Fintype T] [DecidableEq T] {s s' : Conf T (Frame O E) (Shared O V E)}
  {a : T × Event O} {op : O}

theorem stands (kind : O → Kind) (live : V → Bool) (h : (session T kind live).Reachable s) :
    s.Chained (Frame.Stands kind) ∧ s.Bottom .base := by
  apply h.invariant
  · rintro _ rfl
    exact ⟨fun _ => List.isChain_singleton _, fun _ => rfl⟩
  · intro s a s' hr hi _ hs
    have hp := (orderly kind live hr).parents
    exact ⟨hi.1.step hs fun _ _ _ hrule => hrule.stands hp, hi.2.step hs fun _ _ => Rule.bottom⟩

omit [DecidableEq T] in
/-- A task whose `block` or `start` is under way is held by its task object. -/
theorem Counted.refs_of_calls (h : Counted s) {t : T} {f : Frame O E} (hf : f ∈ s.stack t)
    (hcalls : 0 < f.calls op) : 0 < (s.shared.core op).refs := by
  have hle := Conf.le_total (Frame.calls op) hf
  have hrefs := h.refs op
  rw [h.calls op] at hle
  have htask : (s.shared.core op).task.calls ≤ (s.shared.core op).task.refs := by
    cases (s.shared.core op).task <;> simp [Holder.calls, Holder.refs]
  rw [Shared.refs] at hrefs
  omega

omit [DecidableEq T] in
theorem Counted.refs_of_frame (h : Counted s) {t : T} {f : Frame O E} (hf : f ∈ s.stack t)
    (hpos : 0 < f.refs op) : 0 < (s.shared.core op).refs := by
  have hle := Conf.le_total (Frame.refs op) hf
  have hrefs := h.refs op
  omega

/-- Who a driven task is asked for by, as long as it has not been answered. -/
structure Claimed (op : O) (s : Conf T (Frame O E) (Shared O V E)) : Prop where
  carried : Carried op s
  modes : Modes op s
  asked : Asked op s.shared.awaiting (s.shared.core op)
  blocked : (s.shared.core op).driven = .blocked → (s.shared.core op).answers = [] →
    0 < s.total (Frame.acts op)

omit [DecidableEq T] in
theorem claimed_fresh : Claimed op (fresh : Conf T (Frame O E) (Shared O V E)) := by
  refine ⟨carried_fresh, modes_fresh, ⟨fun _ => rfl, ?_⟩, ?_⟩ <;> simp [fresh, Core.new]

theorem Claimed.step (h : Claimed op s) (hok : Admitted op s.shared a.2)
    (hs : (session T kind live).step s a s') : Claimed op s' := by
  have hs' := hs
  cases hs with
  | @run t f rest fs e g top rule =>
    have hmem : f ∈ s.stack t := top ▸ List.mem_cons_self
    have hmode := h.modes.frames t f hmem
    refine ⟨h.carried.step hok hs', h.modes.step h.carried hok hs', ?_, ?_⟩
    · apply rule.asked hok h.asked hmode
      intro hidle
      have hcarries := h.carried.carries
      rw [hidle, Drive.claims, Shared.carries] at hcarries
      exact List.length_eq_zero_iff.mp (by omega)
    · intro hd hans
      have hsum := Conf.total_set (Frame.acts op) fs g top
      have hown := Conf.le_total (Frame.acts op) hmem
      rcases rule.acts_of_blocked hmode hd hans with hnew | ⟨hd, hans, hle⟩
      · omega
      · have hold := h.blocked hd hans
        omega

/-- A frame an operation is in that was started holds it, or stands on one that does. -/
theorem Claimed.refs_of_frame (h : Claimed op s) (hr : (session T kind live).Reachable s)
    (hd : (s.shared.core op).driven = .detached) (hk : kind op ≠ .coroutine) {t : T}
    {f : Frame O E} (hf : f ∈ s.stack t) (hpos : 0 < f.carries op) :
    0 < (s.shared.core op).refs := by
  have hcounted := counted kind live hr
  obtain ⟨hchain, hbottom⟩ := stands kind live hr
  have hmode := h.modes.frames t f hf
  have hbase : f ≠ .base := by
    rintro rfl
    exact absurd hpos (lt_irrefl 0)
  obtain ⟨y, hy, hstands⟩ := hchain.below hbottom hf hbase
  have hop : ∀ {x}, 0 < (if x = op then 1 else 0) → x = op := by
    intro x hx
    by_contra hne
    simp [hne] at hx
  have hheld : ∀ {x}, x = op → (kind x ≠ .coroutine → y = .holding x) →
      0 < (s.shared.core op).refs := by
    rintro x rfl hstands
    rw [hstands hk] at hy
    exact hcounted.refs_of_frame hy (by simp [Frame.refs])
  have hcalls : (∀ x mode, .driving x mode ∈ s.stack t → x = op → 0 < (s.shared.core op).refs) := by
    rintro x mode hmem rfl
    have hmoded := (h.modes.frames t _ hmem rfl).symm.trans hd
    exact hcounted.refs_of_calls hmem (by simp [Frame.calls, hmoded])
  cases f with
  | launch start mode =>
    have hx := hop hpos
    have hmoded := (hmode hx).symm.trans hd
    exact hcounted.refs_of_calls hf (by simp [Frame.calls, hx, hmoded])
  | push start mode => exact hcounted.refs_of_frame hf (by simp [Frame.refs, hop hpos])
  | pushing start mode => exact hcounted.refs_of_frame hf (by simp [Frame.refs, hop hpos])
  | refused x mode failure =>
    have hx := hop hpos
    have hmoded := (hmode hx).symm.trans hd
    exact hcounted.refs_of_calls hf (by simp [Frame.calls, hx, hmoded])
  | calling start => exact hcounted.refs_of_frame hf (by simp [Frame.refs, hop hpos])
  | threw start => exact hcounted.refs_of_frame hf (by simp [Frame.refs, hop hpos])
  | begin x =>
    have hx := hop hpos
    rcases hstands with ⟨start, hstart, rfl⟩ | ⟨mode, rfl⟩
    · exact hcounted.refs_of_frame hy (by simp [Frame.refs, hstart, hx])
    · exact hcalls x mode hy hx
  | running x => exact hheld (hop hpos) hstands
  | callback x => exact hheld (hop hpos) hstands
  | final x _ => exact hheld (hop hpos) hstands
  | finish x _ => exact hheld (hop hpos) hstands
  | finishing x _ => exact hheld (hop hpos) hstands
  | deliver x _ => exact hheld (hop hpos) hstands
  | resume x => cases (hmode (hop hpos)).symm.trans hd
  | _ => exact absurd hpos (lt_irrefl 0)

/-- A driven task that has not been answered is held by somebody, unless it is a coroutine that was
started. -/
theorem Claimed.refs_pos (h : Claimed op s) (hr : (session T kind live).Reachable s)
    (hdriven : (s.shared.core op).driven ≠ .idle) (hans : (s.shared.core op).answers = [])
    (hk : kind op = .coroutine → (s.shared.core op).driven ≠ .detached) :
    0 < (s.shared.core op).refs := by
  have hcounted := counted kind live hr
  have hrefs := hcounted.refs op
  rw [Shared.refs] at hrefs
  cases hd : (s.shared.core op).driven with
  | idle => exact absurd hd hdriven
  | blocked =>
    obtain ⟨t, f, hf, hpos⟩ := Conf.exists_of_total_pos (h.blocked hd hans)
    apply hcounted.refs_of_calls hf
    have hmode := h.modes.frames t f hf
    rw [hd] at hmode
    cases f <;> simp_all [Frame.acts, Frame.calls, Frame.Moded] <;> grind
  | awaited =>
    have hone := h.asked.one hd
    rw [hans, List.length_nil] at hone
    omega
  | detached =>
    have hcarries := h.carried.carries
    have hnot : kind op ≠ .coroutine := fun hc => hk hc hd
    rw [Shared.carries, h.modes.not_resuming (by simp [hd]), not_suspended kind live hr hnot,
      h.modes.not_finished (by simp [hd]), hans, hd] at hcarries
    simp only [Drive.claims, Bool.toNat_false, List.length_nil] at hcarries
    by_cases hframes : 0 < s.total (Frame.carries op)
    · obtain ⟨t, f, hf, hpos⟩ := Conf.exists_of_total_pos hframes
      exact h.refs_of_frame hr hd hnot hf hpos
    · omega

end

end Uniorm.Async
