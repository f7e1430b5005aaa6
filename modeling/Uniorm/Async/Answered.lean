import Uniorm.Async.Progress

/-! # Each accepted operation is answered once

A driven task is told what came of it at most once and of nothing else, a session at rest has told
everybody, and as long as somebody has not been told something goes on, which comes to an end.
-/
namespace Uniorm.Async

open Foundation

variable {T O V E : Type*} {kind : O → Kind} {live : V → Bool}

section
variable [DecidableEq O] [Fintype T] [DecidableEq T] {s s' : Conf T (Frame O E) (Shared O V E)}
  {a : T × Event O} {op : O}

/-- What is promised of one task. -/
structure AnsweredOnce (kind : O → Kind) (live : V → Bool) (op : O)
    (s : Conf T (Frame O E) (Shared O V E)) : Prop where
  /-- a driven task is in one place, its answer being the last of them -/
  place : s.total (Frame.carries op) + s.shared.carries op = (s.shared.core op).driven.claims
  /-- the driver is told what came of the operation, and that once -/
  answer : (s.shared.core op).answers ≠ [] →
    ∃ r, (s.shared.core op).outcomes = [r] ∧ (s.shared.core op).answers = [r]
  /-- `on_failure` is called once for an operation that failed, and not at all otherwise -/
  report : ∀ r, (s.shared.core op).answers = [r] → (s.shared.core op).driven = .detached →
    (s.shared.core op).onFailure ≠ .empty → (s.shared.core op).reports = failures r
  noReport : (s.shared.core op).answers = [] ∨ (s.shared.core op).driven ≠ .detached →
    (s.shared.core op).reports = []
  /-- an operation of the session has given its turn back once by then -/
  turn : (kind op).bound = true → (s.shared.core op).turns ≤ 1 ∧
    ((s.shared.core op).answers ≠ [] → (s.shared.core op).turns = 1)
  /-- nothing comes to rest but answered tasks, a thread in `block` having its result ready -/
  rest : AtRest s → (s.shared.core op).driven ≠ .idle →
    (s.shared.core op).finished.toNat + (s.shared.core op).answers.length = 1 ∧
      ((kind op).bound = true → (s.shared.core op).turns = 1)
  /-- while a driven task has not been answered something goes on by itself -/
  proceeds : Tended kind s → (s.shared.core op).driven ≠ .idle → (s.shared.core op).answers = [] →
    ∃ t e s', (session T kind live).step s (t, e) s' ∧ e.own = true
  /-- and what goes on by itself comes to an end -/
  ends : ∀ t e s', (session T kind live).step s (t, e) s' → e.own = true → workLeft s' < workLeft s

omit [DecidableEq T] in
theorem Turned.of_answers (h : Turned op s) (hc : Carried op s)
    (hdone : 0 < (s.shared.core op).finished.toNat + (s.shared.core op).answers.length) :
    (s.shared.core op).turns = 1 := by
  have hcarries := hc.carries
  have hone := (s.shared.core op).driven.claims_le
  have hoffers := h.offers
  have howes := h.owes
  have hsplit : s.total (Frame.offers op) + s.total (Frame.owes op) ≤
      s.total (Frame.carries op) := by
    rw [← Conf.total_add]
    exact Conf.total_mono fun f => by cases f <;> simp [Frame.offers, Frame.owes, Frame.carries]
  rw [Shared.carries] at hcarries
  rw [Shared.owes] at howes
  omega

omit [Fintype T] in
/-- A thread in `block` does not move until the result is there. -/
theorem blocked_until_finished {t : T} {rest : List (Frame O E)}
    (htop : s.stack t = .driving op .blocked :: rest)
    (hnot : (s.shared.core op).finished = false) {e : Event O} :
    ¬ (session T kind live).step s (t, e) s' := by
  intro hs
  cases hs with
  | run _ top rule =>
    obtain ⟨rfl, -⟩ := List.cons.inj (htop.symm.trans top)
    exact Bool.false_ne_true (hnot.symm.trans rule.finished_of_blocked)

/-- In every run whose steps meet the condition, every drive action that is accepted is answered
once, with what came of the operation, and its turn is given back once. -/
theorem each_operation_answered_once [Inhabited V] (kind : O → Kind) (live : V → Bool)
    (h : (session T kind live).Reach (Unhindered kind) s) (op : O) :
    AnsweredOnce kind live op s := by
  obtain ⟨hall, hdated⟩ := answering kind live (h.weaken fun _ _ => And.left)
  have htold := (hall op).told
  have hcarried := (hall op).claimed.carried
  have hturned : (kind op).bound = true → Turned op s :=
    fun hb => ⟨owes_counted kind live h.reachable hb, (hall op).offers hb⟩
  refine ⟨hcarried.carries, fun hne => ?_, htold.told, fun hor => ?_, fun hb => ⟨?_, fun hne => ?_⟩,
    fun hrest hd => ?_, fun ht => goes_on_until_answered kind live h ht op, fun _ _ _ => workLeft_lt⟩
  · have hans := htold.answers hne
    have hbefore := hcarried.before
    have hone := (s.shared.core op).driven.claims_le
    rw [Shared.before, ← hans] at hbefore
    have hlen : (s.shared.core op).answers.length = 1 := by
      have hpos := List.length_pos_iff.mpr hne
      omega
    obtain ⟨r, hr⟩ := List.length_eq_one_iff.mp hlen
    exact ⟨r, hans.symm.trans hr, hr⟩
  · exact hor.elim (fun hnil => (htold.untold hnil).1) htold.others
  · exact (hturned hb).turns_le.trans (s.shared.core op).driven.claims_le
  · exact (hturned hb).of_answers hcarried (Nat.add_pos_right _ (List.length_pos_iff.mpr hne))
  · have hanswered := hrest.answered (orderly kind live h.reachable)
      (fun x => (hall x).claimed) hdated op hd
    exact ⟨hanswered, fun hb => (hturned hb).of_answers hcarried (hanswered ▸ Nat.one_pos)⟩

end

/-- A thread blocks on an operation that throws, run on the spot. -/
theorem throwing_operation_answered_once :
    ∃ s : Conf Unit (Frame Unit Unit) (Shared Unit ℕ Unit),
      (session Unit (fun _ => .session true false) fun _ => false).Reachable s ∧ AtRest s ∧
      (s.shared.core ()).answers = [.error (.raised ())] ∧
      AnsweredOnce (fun _ => .session true false) (fun _ => false) () s := by
  let kind : Unit → Kind := fun _ => .session true false
  let live : ℕ → Bool := fun _ => false
  have hsilent : ∀ s : Conf Unit (Frame Unit Unit) (Shared Unit ℕ Unit),
      Unhindered kind s ((), .silent) := fun _ => ⟨⟨fun _ => ⟨nofun, nofun, nofun⟩, nofun⟩, nofun⟩
  have h0 : (session Unit (E := Unit) kind live).Reach (Unhindered kind) fresh := .start rfl
  have h1 := Machine.reach_run h0 () rfl (.block .base _ () false rfl rfl rfl rfl)
    ⟨⟨fun _ => ⟨nofun, nofun, fun _ _ => rfl⟩, nofun⟩, nofun⟩
  have h2 := Machine.reach_run h1 () rfl (.launchBound _ _ _ rfl) (hsilent _)
  have h3 := Machine.reach_run h2 () rfl (.lockPush _ _ _ rfl) (hsilent _)
  have h4 := Machine.reach_run h3 () rfl (.queuedWalks _ _ _ rfl rfl)
    ⟨⟨fun _ => ⟨nofun, nofun, nofun⟩, nofun⟩, nofun⟩
  have h5 := Machine.reach_run h4 () rfl (.next _ _ _ rfl) (hsilent _)
  have h6 := Machine.reach_run h5 () rfl (.found _ _) (hsilent _)
  have h7 := Machine.reach_run h6 () rfl (.submitInline _ _ rfl) (hsilent _)
  have h8 := Machine.reach_run h7 () rfl (.throws _ _ () rfl) (hsilent _)
  have h9 := Machine.reach_run h8 () rfl (.finalBound _ _ _ rfl) (hsilent _)
  have h10 := Machine.reach_run h9 () rfl (.lockFinish _ _ _ rfl) (hsilent _)
  have h11 := Machine.reach_run h10 () rfl (.finish _ _ _ rfl)
    ⟨⟨fun _ => ⟨nofun, nofun, nofun⟩, nofun⟩, nofun⟩
  have h12 := Machine.reach_run h11 () rfl (.wake _ _ _ rfl) (hsilent _)
  have h13 := Machine.reach_run h12 () rfl (.letGo _ _) (hsilent _)
  have h14 := Machine.reach_run h13 () rfl (.relock _ _ rfl) (hsilent _)
  have h15 := Machine.reach_run h14 () rfl (.destroyStarter _ _ _)
    ⟨⟨fun _ => ⟨nofun, nofun, nofun⟩, nofun⟩, fun _ _ => .inl nofun⟩
  have h16 := Machine.reach_run h15 () rfl (.walkOn _ _ (.inr rfl)) (hsilent _)
  have h17 := Machine.reach_run h16 () rfl (.drained _ rfl) (hsilent _)
  have h18 := Machine.reach_run h17 () rfl (.launched _ _ _) (hsilent _)
  have h19 := Machine.reach_run h18 () rfl (.unpark _ _ rfl) (hsilent _)
  refine ⟨_, h19.reachable, ⟨rfl, rfl, ?_⟩, rfl, each_operation_answered_once kind live h19 ()⟩
  rintro _ _ (_ | ⟨_, ⟨⟩⟩)
  trivial

/-- A thread blocks on an operation of a session without an executor, and the lookup of the default
one throws. The queue takes the turn back, nobody is told, and nothing can move any more. -/
theorem block_waits_forever_for_a_lost_lookup :
    ∃ s : Conf Unit (Frame Unit Unit) (Shared Unit ℕ Unit),
      (session Unit (fun _ => .session false false) fun _ => false).Reachable s ∧ AtRest s ∧
      s.shared.accepted = [⟨(), false⟩] ∧ (s.shared.core ()).driven = .blocked ∧
      (s.shared.core ()).answers = [] ∧
      (∀ a s', ¬ (session Unit (fun _ => .session false false) fun _ => false).step s a s') ∧
      ¬ AnsweredOnce (fun _ => .session false false) (fun _ => false) () s := by
  let kind : Unit → Kind := fun _ => .session false false
  have h0 : (session Unit (E := Unit) kind fun _ : ℕ => false).Reachable fresh := .start rfl
  have h1 := Machine.reach_run h0 () rfl (.block .base _ () false rfl rfl rfl rfl) trivial
  have h2 := Machine.reach_run h1 () rfl (.launchBound _ _ _ rfl) trivial
  have h3 := Machine.reach_run h2 () rfl (.lockPush _ _ _ rfl) trivial
  have h4 := Machine.reach_run h3 () rfl (.queuedWalks _ _ _ rfl rfl) trivial
  have h5 := Machine.reach_run h4 () rfl (.next _ _ _ rfl) trivial
  have h6 := Machine.reach_run h5 () rfl (.lookupThrows _ _ rfl rfl) trivial
  have h7 := Machine.reach_run h6 () rfl (.relockThrown _ _ rfl) trivial
  have h8 := Machine.reach_run h7 () rfl (.destroyStarter _ _ _) trivial
  have h9 := Machine.reach_run h8 () rfl (.walkOn _ _ (.inl rfl)) trivial
  have h10 := Machine.reach_run h9 () rfl (.drained _ rfl) trivial
  have h11 := Machine.reach_run h10 () rfl (.launched _ _ _) trivial
  have hparked : ∀ f ∈ ([.driving () .blocked, .base] : List (Frame Unit Unit)), f.Parked := by
    rintro _ (_ | ⟨_, _ | ⟨_, ⟨⟩⟩⟩) <;> trivial
  refine ⟨_, h11, ⟨rfl, rfl, fun _ => hparked⟩, rfl, rfl, rfl, ?_, fun h => ?_⟩
  · exact fun a s' => blocked_until_finished rfl rfl
  · exact absurd (h.rest ⟨rfl, rfl, fun _ => hparked⟩ nofun).1 nofun

end Uniorm.Async
