import Uniorm.Async.Turns

/-! # What has been answered when `wait_idle` returns

The turn of an operation goes back to the queue before its failure is delivered. A wait that is over
by then covers a handler or a callback that has not run yet. Where no turn is given back with one of
them due, none of them runs behind a wait.
-/
namespace Uniorm.Async

open Foundation

variable {T O V E : Type*} {kind : O → Kind} {live : V → Bool}

theorem Kind.bound_of_answers {k : Kind} (h : k.answers = true) : k.bound = true := by
  cases k <;> simp_all [answers, bound]

/-- An operation whose caller has yet to be told of a failure: through the handler it was started
with, or in the callback face through `on_done`. -/
def Owing (kind : O → Kind) (op : O) (c : Core O V E) : Prop :=
  c.driven = .detached ∧ c.due = true ∧ ((kind op).answers = true → c.settled = false)

/-- What is known of an operation of the session that has given its turn back: `on_done` has been
called, or there is no failure to tell a handler of. -/
def Settled (kind : O → Kind) (op : O) (c : Core O V E) : Prop :=
  ((kind op).answers = true → c.settled = true) ∧
    ((kind op).answers = false → c.driven = .detached → c.onFailure = .empty ∨ c.failure = none)

/-- The two faces of an operation of the session, before and after its turn. -/
structure Face (kind : O → Kind) (op : O) (c : Core O V E) : Prop where
  callback : (kind op).answers = true → c.driven ≠ .idle → c.driven = .detached ∧
    c.onFailure ≠ .empty
  before : (kind op).bound = true → c.turns = 0 → c.onFailure ≠ .moved
  behind : (kind op).bound = true → c.turns ≠ 0 → Settled kind op c
  visits : c.visits.length = c.settled.toNat

def Frame.Knows (kind : O → Kind) (core : O → Core O V E) : Frame O E → Prop
  | callback op => (core op).settled = true
  | final op _ | finish op _ | finishing op _ =>
    (kind op).answers = true → (core op).settled = true ∨ (core op).failure.isSome = true
  | deliver op _ => (kind op).bound = true → (core op).turns ≠ 0
  | handler op => (kind op).bound = false
  | _ => True

/-- What is never taken back. -/
structure Grows (c c' : Core O V E) : Prop where
  settled : c.settled = true → c'.settled = true
  failure : c.failure.isSome = true → c'.failure.isSome = true
  turns : c.turns ≤ c'.turns

theorem Grows.refl (c : Core O V E) : Grows c c := ⟨id, id, le_rfl⟩

section
variable [DecidableEq O] {f : Frame O E} {g g' : Shared O V E} {e : Event O}
  {fs : List (Frame O E)}

theorem grows_update {core : O → Core O V E} {x : O} {c : Core O V E} (h : Grows (core x) c)
    (op : O) : Grows (core op) (Function.update core x c op) := by
  by_cases hx : op = x
  · subst hx
    rw [Function.update_self]
    exact h
  · rw [Function.update_of_ne hx]
    exact .refl _

theorem Rule.grows (h : Rule kind live f g e fs g') (op : O) : Grows (g.core op) (g'.core op) := by
  cases h <;>
    first
      | exact .refl _
      | refine grows_update ?_ op
        first
          | exact ⟨id, id, le_rfl⟩
          | exact ⟨id, fun _ => rfl, le_rfl⟩
          | exact ⟨fun _ => rfl, id, le_rfl⟩
          | exact ⟨id, id, Nat.le_succ _⟩

omit [DecidableEq O] in
theorem Frame.Knows.mono {core core' : O → Core O V E} (h : ∀ op, Grows (core op) (core' op))
    (hf : f.Knows kind core) : f.Knows kind core' := by
  have hor : ∀ op, ((kind op).answers = true → (core op).settled = true ∨
      (core op).failure.isSome = true) → (kind op).answers = true → (core' op).settled = true ∨
      (core' op).failure.isSome = true :=
    fun op hold ha => (hold ha).imp (h op).settled (h op).failure
  cases f with
  | callback op => exact (h op).settled hf
  | final op _ => exact hor op hf
  | finish op _ => exact hor op hf
  | finishing op _ => exact hor op hf
  | deliver op _ =>
    intro hb
    have hpos := hf hb
    have hle := (h op).turns
    omega
  | handler op => exact hf
  | _ => trivial

/-- The condition: a driven task is not driven again, and when a turn is given back its operation
owes its caller nothing. -/
structure SettlesFirst (kind : O → Kind) (g : Shared O V E) (e : Event O) : Prop where
  once : ∀ op, e ≠ .redrive op
  finish : ∀ op, e = .finish op → ¬ Owing kind op (g.core op)
  giveUp : ∀ op, e = .giveUp op → (g.core op).driven = .detached → (g.core op).onFailure = .empty

omit [DecidableEq O] in
/-- `deliver_failure` moves the handler out, behind the turn. -/
theorem Face.delivered {op : O} {c : Core O V E} (h : Face kind op c)
    (hturns : (kind op).bound = true → c.turns ≠ 0) : Face kind op c.deliverFailure := by
  have hmoved : c.onFailure ≠ .empty → c.deliverFailure.onFailure ≠ .empty := by
    cases hh : c.onFailure <;> simp [hh]
  refine ⟨fun ha hd => (h.callback ha hd).imp id hmoved, fun hb ht => absurd ht (hturns hb),
    fun hb ht => ⟨(h.behind hb ht).1, fun ha hd => ?_⟩, h.visits⟩
  refine ((h.behind hb ht).2 ha hd).imp_left fun hempty => ?_
  simp [hempty]

omit [DecidableEq O] in
/-- The callback of a callback request has been called by the time its turn is given back. -/
theorem settled_of_finish (hface : Cores (Face kind) g.core) {op : O} {refused : Bool}
    (hknows : (Frame.finishing op refused : Frame O E).Knows kind g.core)
    (hturns : (g.core op).turns = 0) (hdriven : (g.core op).driven ≠ .idle)
    (hok : ¬ Owing kind op (g.core op)) (hb : (kind op).bound = true) :
    Settled kind op (g.core op) := by
  have hmoved := (hface op).before hb hturns
  have hdue : ∀ f, (g.core op).onFailure = .held → (g.core op).failure = some f →
      (g.core op).due = true := by
    intro f hheld hfail
    simp [Core.due, hheld, hfail]
  constructor
  · intro ha
    by_contra hs
    obtain ⟨hdet, hgiven⟩ := (hface op).callback ha hdriven
    obtain ⟨f, hfail⟩ := Option.isSome_iff_exists.mp ((hknows ha).resolve_left hs)
    have hheld : (g.core op).onFailure = .held := by
      cases hh : (g.core op).onFailure with
      | empty => exact absurd hh hgiven
      | held => rfl
      | moved => exact absurd hh hmoved
    exact hok ⟨hdet, hdue f hheld hfail, fun _ => Bool.eq_false_iff.mpr hs⟩
  · intro ha hdet
    cases hh : (g.core op).onFailure with
    | empty => exact .inl rfl
    | moved => exact absurd hh hmoved
    | held =>
      cases hfail : (g.core op).failure with
      | none => exact .inr rfl
      | some f =>
        refine absurd ⟨hdet, hdue f hh hfail, ?_⟩ hok
        rw [ha]
        exact nofun

theorem Rule.face (h : Rule kind live f g e fs g') (hface : Cores (Face kind) g.core)
    (hknows : f.Knows kind g.core) (hok : SettlesFirst kind g e)
    (hidle : ∀ op, (kind op).bound = true → (g.core op).driven = .idle → (g.core op).turns = 0)
    (hturns : ∀ op, (kind op).bound = true → 0 < f.offers op + f.owes op →
      (g.core op).turns = 0 ∧ (g.core op).driven ≠ .idle) :
    Cores (Face kind) g'.core := by
  have hone : ∀ x : O, 0 < if x = x then 1 else 0 := by
    intro x
    rw [if_pos rfl]
    exact Nat.one_pos
  cases h with
  | block _ _ x _ _ face _ undriven =>
    refine Cores.update hface ⟨fun ha => absurd (face.symm.trans ha) Bool.false_ne_true,
      (hface x).before, fun hb ht => absurd (hidle x hb undriven) ht, (hface x).visits⟩
  | start _ _ x _ handler _ given face _ undriven =>
    refine Cores.update hface ⟨fun ha _ => ⟨rfl, ?_⟩, fun _ _ => given,
      fun hb ht => absurd (hidle x hb undriven) ht, (hface x).visits⟩
    rw [(face ha).1]
    exact nofun
  | coAwait _ x parent _ face _ undriven =>
    refine Cores.update hface ⟨fun ha => absurd (face.symm.trans ha) Bool.false_ne_true,
      (hface x).before, fun hb ht => absurd (hidle x hb undriven) ht, (hface x).visits⟩
  | startAgain _ _ x => exact absurd rfl (hok.once x)
  | awaitAgain _ x => exact absurd rfl (hok.once x)
  | rethrow _ x =>
    refine Cores.update hface ⟨fun _ hd => absurd rfl hd, (hface x).before, fun hb ht => ?_,
      (hface x).visits⟩
    exact absurd (hturns x hb (Nat.add_pos_left (hone x) _)).1 ht
  | failAwait _ x =>
    refine Cores.update hface ⟨fun _ hd => absurd rfl hd, (hface x).before, fun hb ht => ?_,
      (hface x).visits⟩
    exact absurd (hturns x hb (Nat.add_pos_left (hone x) _)).1 ht
  | relockThrown _ start =>
    refine Cores.update hface ⟨(hface _).callback, nofun, fun hb _ => ⟨fun ha => ?_, fun _ hd => ?_⟩,
      (hface _).visits⟩
    · have hd := (hturns start.op hb (Nat.add_pos_right _ (hone _))).2
      obtain ⟨hdet, hgiven⟩ := (hface start.op).callback ha hd
      exact absurd (hok.giveUp _ rfl hdet) hgiven
    · exact .inl (hok.giveUp _ rfl hd)
  | finish _ x refused =>
    refine Cores.update hface ⟨(hface x).callback, nofun, fun hb _ => ?_, (hface x).visits⟩
    obtain ⟨ht, hd⟩ := hturns x hb (Nat.add_pos_right _ (hone x))
    exact settled_of_finish hface hknows ht hd (hok.finish x rfl) hb
  | finishWalks _ x refused =>
    refine Cores.update hface ⟨(hface x).callback, nofun, fun hb _ => ?_, (hface x).visits⟩
    obtain ⟨ht, hd⟩ := hturns x hb (Nat.add_pos_right _ (hone x))
    exact settled_of_finish hface hknows ht hd (hok.finish x rfl) hb
  | submitThrows _ x =>
    refine Cores.update hface ⟨(hface x).callback, (hface x).before, fun hb ht => ?_,
      (hface x).visits⟩
    exact absurd (hturns x hb (Nat.add_pos_right _ (hone x))).1 ht
  | throws _ x =>
    refine Cores.update hface ⟨(hface x).callback, (hface x).before, fun hb ht => ?_,
      (hface x).visits⟩
    exact absurd (hturns x hb (Nat.add_pos_right _ (hone x))).1 ht
  | callbackThrows _ x =>
    refine Cores.update hface ⟨(hface x).callback, (hface x).before, fun hb ht => ?_,
      (hface x).visits⟩
    exact absurd (hturns x hb (Nat.add_pos_right _ (hone x))).1 ht
  | answered _ x work face unsettled =>
    have hvisits := (hface x).visits
    rw [unsettled] at hvisits
    refine Cores.update hface ⟨(hface x).callback, (hface x).before, fun hb ht => ?_, ?_⟩
    · exact absurd (hturns x hb (Nat.add_pos_right _ (hone x))).1 ht
    · simpa using hvisits
  | settleFailure _ x _ _ _ face _ _ unsettled =>
    have hb := Kind.bound_of_answers face
    have hs := ((hface x).behind hb (hknows hb)).1 face
    exact absurd (unsettled.symm.trans hs) Bool.false_ne_true
  | report _ x => exact Cores.update hface ((hface x).delivered hknows)
  | settledAlready _ x => exact Cores.update hface ((hface x).delivered hknows)
  | nothingToReport _ x => exact Cores.update hface ((hface x).delivered hknows)
  | _ =>
    first
      | exact hface
      | exact Cores.update hface
          ⟨(hface _).callback, (hface _).before, (hface _).behind, (hface _).visits⟩

omit [DecidableEq O] in
/-- A handler of an operation of the session would find it owing. -/
theorem Rule.no_handler (hface : Cores (Face kind) g.core) {op : O}
    (hknows : (kind op).bound = true → (g.core op).turns ≠ 0) (ha : (kind op).answers = false)
    (hd : (g.core op).driven = .detached) (hdue : (g.core op).due = true) :
    (kind op).bound = false := by
  by_contra hb
  rw [Bool.not_eq_false] at hb
  simp only [Core.due, Bool.and_eq_true, beq_iff_eq] at hdue
  rcases ((hface op).behind hb (hknows hb)).2 ha hd with hempty | hnone
  · rw [hempty] at hdue
    exact Handler.noConfusion hdue.1
  · rw [hnone] at hdue
    exact absurd hdue.2 Bool.false_ne_true

theorem Rule.knows_new (h : Rule kind live f g e fs g') (hface : Cores (Face kind) g.core)
    (hknows : f.Knows kind g.core) : ∀ x ∈ fs, x.Knows kind g'.core := by
  have hkept : f.Knows kind g'.core := hknows.mono h.grows
  cases h with
  | report _ x _ mode face due =>
    simpa [Frame.Knows] using Rule.no_handler hface hknows face mode due
  | settleFailure _ x _ _ _ face _ _ unsettled =>
    have hb := Kind.bound_of_answers face
    have hs := ((hface x).behind hb (hknows hb)).1 face
    exact absurd (unsettled.symm.trans hs) Bool.false_ne_true
  | _ =>
    simp_all [Frame.Knows, or_imp, forall_and, Shared.modify_field Core.settled,
      Shared.modify_field Core.turns]

theorem Rule.covered_cases (h : Rule kind live f g e fs g') :
    g'.covered = g.covered ∨
      g'.covered = g.accepted ∧ g.queue.idle = true ∧ g'.core = g.core := by
  cases h with
  | waitReturns _ _ idle => exact .inr ⟨rfl, idle, rfl⟩
  | _ => exact .inl rfl

end

section
variable [DecidableEq O] [Fintype T] [DecidableEq T] {s s' : Conf T (Frame O E) (Shared O V E)}
  {a : T × Event O}

/-- What holds of the operations, of the frames, and of what a wait has covered. -/
structure Kept (kind : O → Kind) (s : Conf T (Frame O E) (Shared O V E)) : Prop where
  faces : Cores (Face kind) s.shared.core
  frames : s.Everywhere (Frame.Knows kind s.shared.core)
  covered : ∀ st ∈ s.shared.covered,
    (kind st.op).bound = true ∧ (s.shared.core st.op).turns ≠ 0

omit [DecidableEq O] [Fintype T] [DecidableEq T] in
theorem kept_fresh : Kept kind (fresh : Conf T (Frame O E) (Shared O V E)) := by
  constructor
  · intro op
    constructor <;> simp [fresh, Core.new]
  · simp [Conf.Everywhere, fresh, Frame.Knows]
  · simp [fresh]

theorem Kept.step (h : Kept kind s) (ho : Orderly kind s)
    (ht : ∀ op, (kind op).bound = true → Turned op s) (hok : SettlesFirst kind s.shared a.2)
    (hs : (session T kind live).step s a s') : Kept kind s' := by
  have hs' := hs
  cases hs with
  | @run t f rest fs e g top rule =>
    have hmem : f ∈ s.stack t := top ▸ List.mem_cons_self
    have hknows := h.frames t f hmem
    constructor
    · apply rule.face h.faces hknows hok
      · intro op hb hidle
        have hle := (ht op hb).turns_le
        rw [hidle] at hle
        exact Nat.le_zero.mp hle
      · intro op hb hpos
        exact ⟨(ht op hb).turns_eq_zero hmem hpos, (ht op hb).driven_of_pos hmem hpos⟩
    · refine h.frames.step hs' ?_ ?_
      · exact fun _ _ _ hf => hf.mono rule.grows
      · exact fun _ _ _ hf hr => hr.knows_new h.faces hf
    · intro st hst
      rcases rule.covered_cases with hsame | ⟨hacc, hidle, hcore⟩
      · obtain ⟨hb, hpos⟩ := h.covered st (hsame ▸ hst)
        have hle := (rule.grows st.op).turns
        refine ⟨hb, ?_⟩
        rw [Conf.set_shared]
        omega
      · have hst' : st ∈ s.shared.accepted := hacc ▸ hst
        have hb := ho.requests st hst'
        refine ⟨hb, ?_⟩
        rw [Conf.set_shared, hcore, (ht st.op hb).turns_of_idle ho hb hidle ⟨st, hst', rfl⟩]
        exact Nat.one_ne_zero

/-- Where every turn is given back with nothing owed, an operation that a wait has covered is not
inside a callback or a handler, then or later: its `on_done` has been called in the callback face,
and otherwise there is no failure that a handler was to be told of. -/
theorem barrier_covers_every_answer (kind : O → Kind) (live : V → Bool)
    (h : (session T kind live).Reach (fun s a => SettlesFirst kind s.shared a.2) s) :
    ∀ st ∈ s.shared.covered,
      (∀ t, .callback st.op ∉ s.stack t ∧ .handler st.op ∉ s.stack t) ∧
      ((kind st.op).answers = true → (s.shared.core st.op).visits.length = 1) ∧
      ((kind st.op).answers = false → (s.shared.core st.op).driven = .detached →
        (s.shared.core st.op).onFailure = .empty ∨ (s.shared.core st.op).failure = none) := by
  have honce : ∀ {s : Conf T (Frame O E) (Shared O V E)},
      (session T kind live).Reach (fun s a => SettlesFirst kind s.shared a.2) s →
      ∀ op, (kind op).bound = true → Turned op s :=
    fun hr _ hb => turned kind live (hr.weaken fun _ _ hok => hok.once) hb
  have hkept : Kept kind s := by
    apply h.invariant
    · rintro _ rfl
      exact kept_fresh
    · exact fun _ _ _ hr hi hok hs =>
        hi.step (orderly kind live hr.reachable) (honce hr) hok hs
  intro st hst
  obtain ⟨hb, hturns⟩ := hkept.covered st hst
  have hsettled := (hkept.faces st.op).behind hb hturns
  refine ⟨fun t => ⟨fun hc => ?_, fun hh => ?_⟩, fun ha => ?_, hsettled.2⟩
  · apply hturns
    apply (honce h st.op hb).turns_eq_zero hc
    simp [Frame.owes]
  · exact absurd ((hkept.frames t _ hh).symm.trans hb) Bool.false_ne_true
  · rw [(hkept.faces st.op).visits, hsettled.1 ha, Bool.toNat_true]

end

/-- A callback request that succeeds has had its callback when the wait is over. -/
theorem callback_answered_before_the_barrier :
    ∃ s : Conf Bool (Frame Unit Unit) (Shared Unit Unit Unit),
      (session Bool (fun _ => .callback true false) fun _ => false).Reachable s ∧
      s.shared.covered = [⟨(), false⟩] ∧ (s.shared.core ()).visits.length = 1 := by
  let kind : Unit → Kind := fun _ => .callback true false
  let live : Unit → Bool := fun _ => false
  have h0 : (session Bool (E := Unit) kind live).Reach
      (fun s a => SettlesFirst kind s.shared a.2) fresh := .start rfl
  have h1 := Machine.reach_run h0 false rfl
    (.start .base _ () false .held rfl (by decide) (by decide) rfl rfl) ⟨nofun, nofun, nofun⟩
  have h2 := Machine.reach_run h1 false rfl (.launchBound _ _ _ rfl) ⟨nofun, nofun, nofun⟩
  have h3 := Machine.reach_run h2 false rfl (.lockPush _ _ _ rfl) ⟨nofun, nofun, nofun⟩
  have h4 := Machine.reach_run h3 false rfl (.queuedWalks _ _ _ rfl rfl) ⟨nofun, nofun, nofun⟩
  have h5 := Machine.reach_run h4 false rfl (.next _ _ _ rfl) ⟨nofun, nofun, nofun⟩
  have h6 := Machine.reach_run h5 false rfl (.found _ _) ⟨nofun, nofun, nofun⟩
  have h7 := Machine.reach_run h6 false rfl (.submit _ _) ⟨nofun, nofun, nofun⟩
  have h8 := Machine.reach_run h7 false rfl (.relock _ _ rfl) ⟨nofun, nofun, nofun⟩
  have h9 := Machine.reach_run h8 false rfl (.destroyStarter _ _ _) ⟨nofun, nofun, nofun⟩
  have h10 := Machine.reach_run h9 false rfl (.stillRunning _ rfl) ⟨nofun, nofun, nofun⟩
  have h11 := Machine.reach_run h10 false rfl (.launched _ _ _) ⟨nofun, nofun, nofun⟩
  have h12 := Machine.reach_run h11 false rfl (.detached _ _) ⟨nofun, nofun, nofun⟩
  have h13 := Machine.reach_run h12 true rfl
    (.runBody .base _ () [] [] rfl rfl rfl) ⟨nofun, nofun, nofun⟩
  have h14 := Machine.reach_run h13 true rfl (.answered _ _ (.ok ()) rfl rfl) ⟨nofun, nofun, nofun⟩
  have h15 := Machine.reach_run h14 true rfl (.callbackReturns _ _) ⟨nofun, nofun, nofun⟩
  have h16 := Machine.reach_run h15 true rfl (.finalBound _ _ _ rfl) ⟨nofun, nofun, nofun⟩
  have h17 := Machine.reach_run h16 true rfl (.lockFinish _ _ _ rfl) ⟨nofun, nofun, nofun⟩
  have h18 := Machine.reach_run h17 true rfl
    (.finishWalks _ _ _ rfl) ⟨nofun, fun _ _ h => Bool.false_ne_true h.2.1, nofun⟩
  have h19 := Machine.reach_run h18 true rfl (.drained _ rfl) ⟨nofun, nofun, nofun⟩
  have h20 := Machine.reach_run h19 false rfl (.waitAllOperations .base _ rfl) ⟨nofun, nofun, nofun⟩
  have h21 := Machine.reach_run h20 false rfl (.waitReturns _ rfl rfl) ⟨nofun, nofun, nofun⟩
  have hcovered := barrier_covers_every_answer kind live h21 ⟨(), false⟩ List.mem_cons_self
  exact ⟨_, h21.reachable, rfl, hcovered.2.1 rfl⟩

/-- An operation started with a handler throws. Its turn is given back, a wait of the driving thread
returns, and then the handler is called. -/
theorem handler_runs_behind_the_barrier :
    ∃ s : Conf Bool (Frame Unit Unit) (Shared Unit Unit Unit),
      (session Bool (fun _ => .session true false) fun _ => false).Reachable s ∧
      s.stack false = [.base] ∧ s.shared.covered = [⟨(), false⟩] ∧ .handler () ∈ s.stack true := by
  let kind : Unit → Kind := fun _ => .session true false
  have h0 : (session Bool (E := Unit) kind fun _ : Unit => false).Reachable fresh := .start rfl
  -- the driving thread starts an operation with a handler and hands it to the executor
  have h1 := Machine.reach_run h0 false rfl
    (.start .base _ () false .held rfl (by decide) (by decide) rfl rfl) trivial
  have h2 := Machine.reach_run h1 false rfl (.launchBound _ _ _ rfl) trivial
  have h3 := Machine.reach_run h2 false rfl (.lockPush _ _ _ rfl) trivial
  have h4 := Machine.reach_run h3 false rfl (.queuedWalks _ _ _ rfl rfl) trivial
  have h5 := Machine.reach_run h4 false rfl (.next _ _ _ rfl) trivial
  have h6 := Machine.reach_run h5 false rfl (.found _ _) trivial
  have h7 := Machine.reach_run h6 false rfl (.submit _ _) trivial
  have h8 := Machine.reach_run h7 false rfl (.relock _ _ rfl) trivial
  have h9 := Machine.reach_run h8 false rfl (.destroyStarter _ _ _) trivial
  have h10 := Machine.reach_run h9 false rfl (.stillRunning _ rfl) trivial
  have h11 := Machine.reach_run h10 false rfl (.launched _ _ _) trivial
  have h12 := Machine.reach_run h11 false rfl (.detached _ _) trivial
  -- a worker runs it, it throws, and the turn goes back
  have h13 := Machine.reach_run h12 true rfl (.runBody .base _ () [] [] rfl rfl rfl) trivial
  have h14 := Machine.reach_run h13 true rfl (.throws _ _ () rfl) trivial
  have h15 := Machine.reach_run h14 true rfl (.finalBound _ _ _ rfl) trivial
  have h16 := Machine.reach_run h15 true rfl (.lockFinish _ _ _ rfl) trivial
  have h17 := Machine.reach_run h16 true rfl (.finishWalks _ _ _ rfl) trivial
  have h18 := Machine.reach_run h17 true rfl (.drained _ rfl) trivial
  -- the driving thread waits, and its wait is over before the handler is called
  have h19 := Machine.reach_run h18 false rfl (.waitAllOperations .base _ rfl) trivial
  have h20 := Machine.reach_run h19 false rfl (.waitReturns _ rfl rfl) trivial
  have h21 := Machine.reach_run h20 true rfl (.report _ _ _ rfl rfl rfl) trivial
  exact ⟨_, h21, rfl, rfl, List.mem_cons_self⟩

end Uniorm.Async
