import Uniorm.Async.Callback
import Uniorm.Async.Progress
import Uniorm.Async.Wedged

/-! # The calls of the callback face

A session together with the calls of `answer`: the check of `on_done`, the task that is made and
started, what the call comes to, and what the wrapped call came to in the body. `on_done` is called
once for a call that returns and not at all for one that throws.
-/
namespace Uniorm.Async

open Foundation

variable {T O V E : Type*} {kind : O → Kind} {live : V → Bool}

/-- What a call of the callback face throws: that `on_done` is empty, or what `start` threw. -/
inductive CallError (E : Type*) where
  | emptyCallback
  | refused (failure : Failure E)

/-- A call of the callback face: not made yet, under way, back, or left with an exception. -/
inductive Call (E : Type*) where
  | unmade
  | inside
  | returned
  | threw (error : CallError E)

/-- The call of a request, and what the wrapped call came to. -/
structure Request (V E : Type*) where
  call : Call E
  work : List (Except E V)

/-- A session and the requests made of its callback face. -/
structure Facade (T O V E : Type*) where
  conf : Conf T (Frame O E) (Shared O V E)
  request : O → Request V E

section
variable [DecidableEq O]

/-- A step of the session seen from the call of one request: `answer` starts its task, and leaves
as `start` does. -/
def Call.next (op : O) (f : Frame O E) (e : Event O) (call : Call E) : Call E :=
  match e, f with
  | .drive x _, _ => if x = op then .inside else call
  | _, .refused x _ failure => if x = op then .threw (.refused failure) else call
  | _, .driving x _ => if x = op then .returned else call
  | _, _ => call

def Facade.worked (s : Facade T O V E) (op : O) (work : Except E V) : O → Request V E :=
  Function.update s.request op
    { s.request op with work := (s.request op).work ++ [work] }

theorem Facade.worked_of_ne (s : Facade T O V E) {x op : O} (hx : op ≠ x) (work : Except E V) :
    s.worked x work op = s.request op := Function.update_of_ne hx ..

theorem Facade.worked_call (s : Facade T O V E) (x op : O) (work : Except E V) :
    (s.worked x work op).call = (s.request op).call := by
  by_cases hx : op = x
  · subst hx
    rw [worked, Function.update_self]
  · rw [s.worked_of_ne hx]

variable [DecidableEq T]

/-- One step of a session with its callback face. Every call of the face has a task of its own. -/
inductive Facade.Moves (kind : O → Kind) (live : V → Bool) :
    Facade T O V E → T × Event O → Facade T O V E → Prop where
  /-- `answer` with an empty `on_done` throws before it makes anything -/
  | empty (s : Facade T O V E) (t : T) (op : O) {f : Frame O E} {rest : List (Frame O E)}
      (top : s.conf.stack t = f :: rest) (user : f.isUser kind = true)
      (face : (kind op).answers = true) (unmade : (s.request op).call = .unmade) :
      Moves kind live s (t, .user)
        { s with
          request := Function.update s.request op
            { s.request op with call := .threw .emptyCallback } }
  /-- the wrapped call ends, and its body goes on to `settle` -/
  | answered (s : Facade T O V E) (t : T) (op : O) (work : Except E V) {rest : List (Frame O E)}
      (top : s.conf.stack t = .running op :: rest) (face : (kind op).answers = true)
      (unsettled : (s.conf.shared.core op).settled = false) :
      Moves kind live s (t, .silent)
        ⟨s.conf.set t ([.callback op] ++ rest)
          (s.conf.shared.modify op fun c => c.settle (work.mapError Failure.raised)),
          s.worked op work⟩
  | answeredAlready (s : Facade T O V E) (t : T) (op : O) (work : Except E V)
      {rest : List (Frame O E)} (top : s.conf.stack t = .running op :: rest)
      (face : (kind op).answers = true) (settled : (s.conf.shared.core op).settled = true) :
      Moves kind live s (t, .silent)
        ⟨s.conf.set t ([.final op false] ++ rest)
          (s.conf.shared.modify op fun c => c.returned none), s.worked op work⟩
  /-- any other step of the session -/
  | other (s : Facade T O V E) (t : T) {f : Frame O E} {rest fs : List (Frame O E)} {e : Event O}
      {g : Shared O V E} (top : s.conf.stack t = f :: rest)
      (rule : Rule kind live f s.conf.shared e fs g)
      (body : ∀ op, f = .running op → (kind op).answers = false)
      (unmade : ∀ op mode, e = .drive op mode → (kind op).answers = true →
        (s.request op).call = .unmade) :
      Moves kind live s (t, e)
        ⟨s.conf.set t (fs ++ rest) g,
          fun op => { s.request op with call := (s.request op).call.next op f e }⟩

/-- The runs of a session with its callback face, from a new session on which no call was made. -/
def callbackFace (T : Type*) {O V E : Type*} [DecidableEq T] [DecidableEq O] (kind : O → Kind)
    (live : V → Bool) : System (Facade T O V E) (T × Event O) :=
  ⟨(· = ⟨fresh, fun _ => ⟨.unmade, []⟩⟩), Facade.Moves kind live⟩

variable {s s' : Facade T O V E} {a : T × Event O} {op : O}

theorem Facade.Moves.session_step (h : Facade.Moves kind live s a s') :
    s'.conf = s.conf ∨ (session T kind live).step s.conf a s'.conf := by
  cases h with
  | empty => exact .inl rfl
  | answered _ op work top face unsettled =>
    exact .inr (.run s.conf _ top (.answered _ op work face unsettled))
  | answeredAlready _ op work top face settled =>
    exact .inr (.run s.conf _ top (.answeredAlready _ op face settled))
  | other _ top rule => exact .inr (.run s.conf _ top rule)

/-- The session of a run with its callback face is one of a run of the session, under the same
condition on its steps. -/
theorem Facade.reach (ok : Conf T (Frame O E) (Shared O V E) → T × Event O → Prop)
    (h : (callbackFace T kind live).Reach (fun s a => ok s.conf a) s) :
    (session T kind live).Reach ok s.conf := by
  apply h.invariant (I := fun s => (session T kind live).Reach ok s.conf)
  · rintro _ rfl
    exact .start rfl
  · intro s a s' _ hi hok hs
    rcases hs.session_step with hsame | hstep
    · rw [hsame]
      exact hi
    · exact .next hi hok hstep

theorem Facade.reachable (h : (callbackFace T kind live).Reachable s) :
    (session T kind live).Reachable s.conf := Facade.reach (fun _ _ => True) h

/-- Where the session goes on by itself, it does so with its callback face. -/
theorem Facade.moves_of_step [Inhabited V] {t : T} {e : Event O} {conf : Conf T (Frame O E) (Shared O V E)}
    (h : (session T kind live).step s.conf (t, e) conf) (hown : e.own = true) :
    ∃ a s', Facade.Moves kind live s a s' ∧ a.2.own = true := by
  cases h with
  | @run _ f rest fs _ g top rule =>
    by_cases hbody : ∃ op, f = .running op ∧ (kind op).answers = true
    · obtain ⟨op, rfl, face⟩ := hbody
      cases hsettled : (s.conf.shared.core op).settled with
      | false => exact ⟨_, _, .answered s t op (.ok default) top face hsettled, rfl⟩
      | true => exact ⟨_, _, .answeredAlready s t op (.ok default) top face hsettled, rfl⟩
    · refine ⟨_, _, .other s t top rule (fun op hf => ?_) (fun op mode he => ?_), hown⟩
      · exact Bool.eq_false_iff.mpr fun face => hbody ⟨op, hf, face⟩
      · rw [he] at hown
        cases hown

end

section
variable [DecidableEq O] {f : Frame O E} {g g' : Shared O V E} {e : Event O}
  {fs : List (Frame O E)} {op : O}

def Frame.working (op : O) : Frame O E → ℕ
  | running x => if x = op then 1 else 0
  | _ => 0

/-- A drive action whose `launch` has returned. -/
def Frame.returning (op : O) : Frame O E → ℕ
  | driving x _ => if x = op then 1 else 0
  | _ => 0

/-- For an operation of the session `start` throws `submit_overflow` and nothing else. -/
def Frame.Overflows (kind : O → Kind) : Frame O E → Prop
  | refused x _ failure => (kind x).bound = true → failure = .submitOverflow
  | _ => True

theorem Rule.overflows_new (h : Rule kind live f g e fs g') (hf : f.Overflows kind) :
    ∀ x ∈ fs, x.Overflows kind := by
  cases h <;> simp_all [Frame.Overflows, or_imp, forall_and]

theorem Rule.stays_idle (h : Rule kind live f g e fs g') (hidle : (g.core op).driven = .idle)
    (he : ∀ mode, e ≠ .drive op mode) : (g'.core op).driven = .idle := by
  cases h <;> simp_all [Shared.modify_field Core.driven]

theorem Rule.accepted_mono (h : Rule kind live f g e fs g') (op : O) :
    g.accepted.countP (·.op = op) ≤ g'.accepted.countP (·.op = op) := by
  cases h <;> simp

/-- Something comes of an operation in its body or where its executor throws. -/
theorem Rule.outcomes_kept (h : Rule kind live f g e fs g') (hf : f.before op = 0) :
    (g'.core op).outcomes = (g.core op).outcomes := by
  cases h <;> simp_all [Frame.before, Shared.modify_field Core.outcomes]

/-- Outside the body `on_done` is called by the handler, with the failure of the operation. -/
theorem Rule.visits_cases (h : Rule kind live f g e fs g') (op : O)
    (hbody : ∀ op, f = .running op → (kind op).answers = false) :
    (g'.core op).visits = (g.core op).visits ∨
      ∃ failure, (g.core op).failure = some failure ∧ (g.core op).settled = false ∧
        f.before op = 0 ∧ (g'.core op).visits = (g.core op).visits ++ [.error failure] := by
  cases h <;> simp_all [Shared.modify_field Core.visits, Frame.before]
  grind

/-- Code of the caller's changes nothing about a call but by making it. -/
theorem Call.next_of_user (huser : f.isUser kind = true) (call : Call E) :
    call.next op f e =
      match e with
      | .drive x _ => if x = op then .inside else call
      | _ => call := by
  cases f <;> first | exact absurd huser Bool.false_ne_true | cases e <;> rfl

/-- What a step comes to for the call of a request. -/
theorem Rule.call_cases (h : Rule kind live f g e fs g') (op : O) (call : Call E) :
    ((∃ mode, e = .drive op mode) ∧ 0 < (fs.map (Frame.acts op)).sum ∧
        call.next op f e = .inside) ∨
      (∀ mode, e ≠ .drive op mode) ∧
        ((∃ mode failure, f = .refused op mode failure ∧ (g'.core op).driven = .idle ∧
            call.next op f e = .threw (.refused failure)) ∨
          (∃ mode, f = .driving op mode ∧ call.next op f e = .returned) ∨
          f.acts op ≤ (fs.map (Frame.acts op)).sum ∧ call.next op f e = call) := by
  by_cases huser : f.isUser kind = true
  · rw [Call.next_of_user huser]
    cases h <;> simp_all [Frame.acts, Frame.isUser] <;> grind
  · cases h <;> simp_all [Call.next, Frame.acts, Shared.modify_field Core.driven] <;> grind

end

section
variable [DecidableEq O] [Fintype T] [DecidableEq T] {s s' : Facade T O V E} {a : T × Event O}
  {op : O}

/-- What `on_done` has been called with: what the wrapped call came to, or where that was never made
what the executor threw. -/
def VisitedWith (work : List (Except E V)) (c : Core O V E) : Prop :=
  c.visits = work.map (·.mapError Failure.raised) ∨
    work = [] ∧ ∃ error, c.outcomes = [.error (.raised error)] ∧
      c.visits = [.error (.raised error)]

omit [Fintype T] [DecidableEq T] [DecidableEq O] in
theorem VisitedWith.work_eq_nil {work : List (Except E V)} {c : Core O V E}
    (h : VisitedWith work c) (hnone : c.visits = []) : work = [] := by
  rcases h with hvisits | ⟨hwork, -⟩
  · exact List.map_eq_nil_iff.mp (hvisits.symm.trans hnone)
  · exact hwork

/-- A request and its call against its operation. -/
structure Recorded (op : O) (s : Facade T O V E) : Prop where
  unmade : (s.request op).call = .unmade → (s.conf.shared.core op).driven = .idle
  threw : ∀ error, (s.request op).call = .threw error →
    (s.conf.shared.core op).driven = .idle ∧
      (error = .emptyCallback ∨ error = .refused .submitOverflow)
  inside : (s.request op).call = .inside → 0 < s.conf.total (Frame.acts op)
  returned : (s.request op).call = .returned →
    0 < s.conf.shared.accepted.countP (·.op = op)
  visits : VisitedWith (s.request op).work (s.conf.shared.core op)

omit [DecidableEq T] in
theorem recorded_new :
    Recorded op (⟨fresh, fun _ => ⟨.unmade, []⟩⟩ : Facade T O V E) := by
  constructor <;> simp [fresh, Core.new, VisitedWith]

omit [DecidableEq T] in
theorem Recorded.of_eq (h : Recorded op s)
    (hcall : (s'.request op).call = (s.request op).call)
    (hdriven : (s'.conf.shared.core op).driven = (s.conf.shared.core op).driven)
    (hacts : s'.conf.total (Frame.acts op) = s.conf.total (Frame.acts op))
    (hacc : s'.conf.shared.accepted = s.conf.shared.accepted)
    (hvisits : VisitedWith (s'.request op).work (s'.conf.shared.core op)) : Recorded op s' := by
  constructor
  · rw [hcall, hdriven]
    exact h.unmade
  · rw [hcall, hdriven]
    exact h.threw
  · rw [hcall, hacts]
    exact h.inside
  · rw [hcall, hacc]
    exact h.returned
  · exact hvisits

omit [DecidableEq T] in
/-- A call that returns has been accepted. -/
theorem accepted_of_driving {s : Conf T (Frame O E) (Shared O V E)} (h : Served op s) {t : T}
    {mode : Drive} (hmem : .driving op mode ∈ s.stack t) :
    0 < s.shared.accepted.countP (·.op = op) := by
  have hsplit : s.total (Frame.offers op) + s.total (Frame.returning op) ≤ s.total (Frame.acts op) := by
    rw [← Conf.total_add]
    exact Conf.total_mono fun f => by cases f <;> simp [Frame.offers, Frame.returning, Frame.acts]
  have hown : 1 ≤ s.total (Frame.returning op) := by
    have hle := Conf.le_total (Frame.returning op) hmem
    simpa [Frame.returning] using hle
  have hacts := h.carried.acts
  have hoffers := h.offers
  omega

omit [Fintype T] in
theorem overflows (kind : O → Kind) (live : V → Bool) {s : Conf T (Frame O E) (Shared O V E)}
    (h : (session T kind live).Reachable s) : s.Everywhere (Frame.Overflows kind) := by
  apply h.invariant
  · rintro _ rfl
    simp [Conf.Everywhere, fresh, Frame.Overflows]
  · intro s a s' _ hi _ hs
    exact hi.step hs (fun _ _ _ hx => hx) fun _ _ _ hx hr => hr.overflows_new hx

omit [Fintype T] [DecidableEq T] in
/-- `on_done` gets what the wrapped call came to, or from the handler the failure of the request. -/
theorem Rule.visits_recorded {f : Frame O E} {g g' : Shared O V E} {e : Event O}
    {fs : List (Frame O E)} (h : Rule kind live f g e fs g')
    (hbody : ∀ op, f = .running op → (kind op).answers = false) (hc : Faced (g.core op))
    (hbefore : 0 < f.before op → (g.core op).outcomes = []) {work : List (Except E V)}
    (hvisits : VisitedWith work (g.core op)) : VisitedWith work (g'.core op) := by
  rcases h.visits_cases op hbody with hsame | ⟨failure, hfail, hunsettled, hf, hnew⟩
  · rw [VisitedWith, hsame]
    refine hvisits.imp_right fun ⟨hwork, error, hout, hvisit⟩ => ⟨hwork, error, ?_, hvisit⟩
    have hended : f.before op = 0 := by
      by_contra hpos
      have hnil := hbefore (Nat.pos_of_ne_zero hpos)
      exact List.cons_ne_nil _ _ (hout.symm.trans hnil)
    rw [h.outcomes_kept hended]
    exact hout
  · obtain ⟨error, rfl, hout⟩ := hc.failed failure hfail
    have hnone := hc.visits_eq_nil hunsettled
    refine .inr ⟨hvisits.work_eq_nil hnone, error, ?_, ?_⟩
    · rw [h.outcomes_kept hf]
      exact hout
    · rw [hnew, hnone]
      rfl

omit [DecidableEq T] in
/-- The guard is down while the wrapped call runs. -/
theorem unsettled_of_running {s : Conf T (Frame O E) (Shared O V E)} (h : Served op s) {t : T}
    (hmem : .running op ∈ s.stack t) : (s.shared.core op).settled = false := by
  obtain ⟨hout, -, -⟩ := h.carried.of_before hmem (by simp [Frame.before])
  have hsplit : s.total (Frame.working op) + s.total (Frame.visiting op) ≤
      s.total (Frame.before op) := by
    rw [← Conf.total_add]
    exact Conf.total_mono fun f => by cases f <;> simp [Frame.working, Frame.visiting, Frame.before]
  have hown : 1 ≤ s.total (Frame.working op) := by
    have hle := Conf.le_total (Frame.working op) hmem
    simpa [Frame.working] using hle
  have hbefore := h.carried.before
  have hone := (s.shared.core op).driven.claims_le
  have hsettled := h.settled
  rw [hout, List.length_nil] at hsettled
  rw [← Bool.toNat_eq_zero]
  omega

theorem Recorded.step (h : Recorded op s) (hserved : Served op s.conf)
    (hover : s.conf.Everywhere (Frame.Overflows kind)) (ha : (kind op).answers = true)
    (hs : Facade.Moves kind live s a s') : Recorded op s' := by
  cases hs with
  | empty t x top user face unmade =>
    by_cases hx : x = op
    · subst hx
      constructor <;> simp [Function.update_self, h.unmade unmade, h.visits]
    · have hsame := Function.update_of_ne (Ne.symm hx)
        { s.request x with call := .threw .emptyCallback } s.request
      exact h.of_eq (congrArg Request.call hsame) rfl rfl rfl
        ((congrArg (VisitedWith · _) (congrArg Request.work hsame)).mpr h.visits)
  | @answered t x work rest top face unsettled =>
    have hsum := Conf.total_set (Frame.acts op) [.callback x]
      (s.conf.shared.modify x fun c => c.settle (work.mapError Failure.raised)) top
    refine h.of_eq ?_ ?_ (by simpa [Frame.acts] using hsum) rfl ?_
    · exact s.worked_call x op work
    · rw [Conf.set_shared, Shared.modify_field Core.driven]
      split <;> rfl
    · by_cases hx : op = x
      · subst hx
        have hnone := hserved.faced.visits_eq_nil unsettled
        have hwork := h.visits.work_eq_nil hnone
        left
        simp [Facade.worked, hnone, hwork]
      · simp only [Conf.set_shared, s.worked_of_ne hx, Shared.modify, Function.update_of_ne hx]
        exact h.visits
  | @answeredAlready t x work rest top face settled =>
    have hsum := Conf.total_set (Frame.acts op) [.final x false]
      (s.conf.shared.modify x fun c => c.returned none) top
    refine h.of_eq ?_ ?_ (by simpa [Frame.acts] using hsum) rfl ?_
    · exact s.worked_call x op work
    · rw [Conf.set_shared, Shared.modify_field Core.driven]
      split <;> rfl
    · have hx : op ≠ x := by
        rintro rfl
        have hdown := unsettled_of_running hserved (top ▸ List.mem_cons_self)
        exact Bool.false_ne_true (hdown.symm.trans settled)
      simp only [Conf.set_shared, s.worked_of_ne hx, Shared.modify, Function.update_of_ne hx]
      exact h.visits
  | @other t f rest fs e g top rule body unmade =>
    have hmem : f ∈ s.conf.stack t := top ▸ List.mem_cons_self
    have hvisits := rule.visits_recorded body hserved.faced
      (fun hf => (hserved.carried.of_before hmem hf).1) h.visits
    have hsum := Conf.total_set (Frame.acts op) fs g top
    have hown := Conf.le_total (Frame.acts op) hmem
    have hmono := rule.accepted_mono op
    rcases rule.call_cases op (s.request op).call with
      ⟨hdrive, hacts, hcall⟩ | ⟨hdrive, ⟨mode, failure, rfl, hidle, hcall⟩ | ⟨mode, rfl, hcall⟩ |
        ⟨hacts, hcall⟩⟩
    · refine ⟨fun hun => ?_, fun _ hth => ?_, fun _ => ?_, fun hret => ?_, hvisits⟩
      · cases hcall.symm.trans hun
      · cases hcall.symm.trans hth
      · change 0 < (s.conf.set t (fs ++ rest) g).total (Frame.acts op)
        omega
      · cases hcall.symm.trans hret
    · have hfailure := hover t _ hmem (Kind.bound_of_answers ha)
      refine ⟨fun hun => ?_, fun _ hth => ?_, fun hin => ?_, fun hret => ?_, hvisits⟩
      · cases hcall.symm.trans hun
      · cases hcall.symm.trans hth
        exact ⟨hidle, .inr (hfailure ▸ rfl)⟩
      · cases hcall.symm.trans hin
      · cases hcall.symm.trans hret
    · refine ⟨fun hun => ?_, fun _ hth => ?_, fun hin => ?_, fun _ => ?_, hvisits⟩
      · cases hcall.symm.trans hun
      · cases hcall.symm.trans hth
      · cases hcall.symm.trans hin
      · exact (accepted_of_driving hserved hmem).trans_le hmono
    · constructor <;> simp only [Conf.set_shared, hcall]
      · exact fun hun => rule.stays_idle (h.unmade hun) hdrive
      · exact fun error hth => (h.threw error hth).imp_left fun hi => rule.stays_idle hi hdrive
      · intro hin
        have hpos := h.inside hin
        omega
      · exact fun hret => (h.returned hret).trans_le hmono
      · exact hvisits

theorem recorded (kind : O → Kind) (live : V → Bool) (ha : (kind op).answers = true)
    (hrun : (kind op).runOn = true) (h : (callbackFace T kind live).Reachable s) :
    Recorded op s := by
  apply h.invariant
  · rintro _ rfl
    exact recorded_new
  · intro s a s' hr hi _ hs
    have hsession := Facade.reachable hr
    exact hi.step (served kind live ha hrun hsession) (overflows kind live hsession) ha hs

/-- What `on_done` is called with. `answered` has `R{}` and no exception until the wrapped call
returns or throws, and `settle_failure` passes `R{}`. -/
def arguments [Inhabited V] : Except (Failure E) V → V × Option (Failure E)
  | .ok value => (value, none)
  | .error failure => (default, some failure)

/-- What the callback face promises of one request. -/
structure OnDoneOnce [Inhabited V] (op : O) (s : Facade T O V E) : Prop where
  atMostOnce : (s.conf.shared.core op).visits.length ≤ 1
  /-- a call that throws has not been accepted: `on_done` was empty, or the queue was full -/
  never : ∀ error, (s.request op).call = .threw error → (s.conf.shared.core op).visits = [] ∧
    (error = .emptyCallback ∨ error = .refused .submitOverflow)
  /-- a call that returns has been answered or is on its way to its answer -/
  onItsWay : (s.request op).call = .returned →
    (s.conf.shared.core op).visits.length = 1 ∨ OnItsWay op s.conf
  /-- nothing comes to rest but answered requests and calls that threw -/
  once : AtRest s.conf → (s.request op).call ≠ .inside ∧
    ((s.request op).call = .returned → (s.conf.shared.core op).visits.length = 1)
  /-- the value of the wrapped call and no exception, or `R{}` and what the call or the executor
  threw -/
  arguments : ∀ visit ∈ (s.conf.shared.core op).visits,
    (∃ value, (s.request op).work = [.ok value] ∧ arguments visit = (value, none)) ∨
    ∃ failure, arguments visit = (default, some failure) ∧
      ((∃ error, (s.request op).work = [.error error] ∧ failure = .raised error) ∨
        (s.request op).work = [] ∧ (s.conf.shared.core op).outcomes = [.error failure])

omit [DecidableEq O] [Fintype T] [DecidableEq T] in
theorem VisitedWith.arguments [Inhabited V] {work : List (Except E V)} {c : Core O V E}
    (h : VisitedWith work c) (hone : c.visits.length ≤ 1) :
    ∀ visit ∈ c.visits,
      (∃ value, work = [.ok value] ∧ Async.arguments visit = (value, none)) ∨
      ∃ failure, Async.arguments visit = (default, some failure) ∧
        ((∃ error, work = [.error error] ∧ failure = .raised error) ∨
          work = [] ∧ c.outcomes = [.error failure]) := by
  intro visit hmem
  rcases h with hvisits | ⟨hwork, error, hout, hvisits⟩
  · rw [hvisits, List.length_map] at hone
    rw [hvisits, List.mem_map] at hmem
    obtain ⟨outcome, hmem, rfl⟩ := hmem
    have hwork : work = [outcome] := by
      match work, hone, hmem with
      | [_], _, hmem => rw [List.mem_singleton.mp hmem]
    cases outcome with
    | ok value => exact .inl ⟨value, hwork, rfl⟩
    | error error => exact .inr ⟨_, rfl, .inl ⟨error, hwork, rfl⟩⟩
  · rw [hvisits, List.mem_singleton] at hmem
    subst hmem
    exact .inr ⟨_, rfl, .inr ⟨hwork, hout⟩⟩

/-- What brings a request to its visit. -/
structure KeepsGoing (kind : O → Kind) (live : V → Bool) (op : O) (s : Facade T O V E) : Prop where
  /-- while its call is under way, or the call is back and the visit is not made, something goes on by
  itself -/
  proceeds : Tended kind s.conf → ((s.request op).call = .inside ∨
      (s.request op).call = .returned ∧ (s.conf.shared.core op).visits = []) →
    ∃ a s', Facade.Moves kind live s a s' ∧ a.2.own = true
  /-- and what goes on by itself comes to an end -/
  ends : ∀ a s', Facade.Moves kind live s a s' → a.2.own = true →
    workLeft s'.conf < workLeft s.conf

theorem OnDoneOnce.of_reachable [Inhabited V] (kind : O → Kind) (live : V → Bool) {resumeOn : Bool}
    (hkind : kind op = .callback true resumeOn) (h : (callbackFace T kind live).Reachable s) :
    OnDoneOnce op s := by
  have ha : (kind op).answers = true := by rw [hkind, Kind.answers]
  have hrun : (kind op).runOn = true := by rw [hkind, Kind.runOn]
  have hsession := Facade.reachable h
  have hserved := served kind live ha hrun hsession
  have hrecorded := recorded kind live ha hrun h
  obtain ⟨hvisits, hone⟩ := hserved.visits_le
  refine ⟨hvisits.trans hone, fun error hthrew => ?_, fun hret => ?_, fun hrest => ⟨?_, ?_⟩,
    hrecorded.visits.arguments (hvisits.trans hone)⟩
  · obtain ⟨hidle, herror⟩ := hrecorded.threw error hthrew
    have hoffers := hserved.offers
    rw [hidle, Drive.claims] at hoffers
    exact ⟨List.length_eq_zero_iff.mp (by omega), herror⟩
  · by_cases hnone : (s.conf.shared.core op).visits = []
    · exact .inr (hserved.onItsWay hsession ha (hrecorded.returned hret) hnone)
    · have hpos := List.length_pos_iff.mpr hnone
      exact .inl (by omega)
  · intro hinside
    obtain ⟨t, f, hmem, hacts⟩ := Conf.exists_of_total_pos (hrecorded.inside hinside)
    obtain ⟨x, rfl⟩ := (hrest.parked t f hmem).of_acts hacts
    have hx : x = op := by
      by_contra hx
      simp [Frame.acts, hx] at hacts
    have hblocked := hserved.modes.frames t _ hmem hx
    cases hblocked.symm.trans (hserved.faced.mode (by simp [hblocked]))
  · exact fun hret => hserved.visited_at_rest hsession ha hrest (hrecorded.returned hret)

omit [Fintype T] in
theorem Facade.Moves.step_of_own {a : T × Event O} (h : Facade.Moves kind live s a s')
    (hown : a.2.own = true) : (session T kind live).step s.conf a s'.conf := by
  cases h with
  | empty => cases hown
  | answered _ op work top face unsettled =>
    exact .run s.conf _ top (.answered _ op work face unsettled)
  | answeredAlready _ op work top face settled =>
    exact .run s.conf _ top (.answeredAlready _ op face settled)
  | other _ top rule => exact .run s.conf _ top rule

/-- On a session whose executor was named, whatever the executor, the wrapped call and `on_done` do
and whatever else the session is used for: `on_done` is called at most once for a callback request,
with what came of it, and never for one that is not accepted. In a run whose steps meet the condition
the session goes on until it has been called. -/
theorem on_done_called_once [Inhabited V] (kind : O → Kind) (live : V → Bool) (op : O)
    {resumeOn : Bool} (hkind : kind op = .callback true resumeOn)
    (h : (callbackFace T kind live).Reachable s) :
    OnDoneOnce op s ∧
      ((callbackFace T kind live).Reach (fun s a => Unhindered kind s.conf a) s →
        KeepsGoing kind live op s) := by
  have honce := OnDoneOnce.of_reachable kind live hkind h
  refine ⟨honce, fun hreach => ⟨fun htended hopen => ?_, fun a s' hs hown => ?_⟩⟩
  · by_contra hno
    have hsession := Facade.reach (Unhindered kind) hreach
    have hstopped := stopped_of_standstill kind live hsession fun t e conf hs =>
      Bool.eq_false_iff.mpr fun hown => hno (Facade.moves_of_step hs hown)
    have hrest := atRest_of_stopped kind live hsession htended hstopped
    obtain ⟨houtside, hvisited⟩ := honce.once hrest
    rcases hopen with hinside | ⟨hreturned, hnone⟩
    · exact houtside hinside
    · have hone := hvisited hreturned
      rw [hnone] at hone
      cases hone
  · exact workLeft_lt (hs.step_of_own hown) hown

omit [DecidableEq T] in
theorem Served.unvisited_of_waiting {s : Conf T (Frame O E) (Shared O V E)} (h : Served op s)
    (hwaiting : 0 < s.shared.queue.waiting.countP (·.op = op)) :
    (s.shared.core op).visits = [] := by
  have hbefore := h.carried.before
  have hone := (s.shared.core op).driven.claims_le
  have hvisits := h.faced.visits
  have hsettled := h.settled
  have hvisiting : s.total (Frame.visiting op) ≤ s.total (Frame.before op) :=
    Conf.total_mono fun f => by cases f <;> simp [Frame.visiting, Frame.before]
  rw [Shared.before] at hbefore
  exact List.length_eq_zero_iff.mp (by omega)

/-- A request behind a wait with the mutex held below it is never answered, whatever happens. -/
theorem unvisited_of_wedged (kind : O → Kind) (live : V → Bool) {resumeOn : Bool} {t : T}
    (hkind : kind op = .callback true resumeOn) (h : (callbackFace T kind live).Reachable s)
    (hwedged : Wedged t s.conf) (hwaiting : 0 < s.conf.shared.queue.waiting.countP (·.op = op))
    (hlater : ((callbackFace T kind live).after s).Reachable s') :
    (s'.conf.shared.core op).visits = [] := by
  obtain ⟨hr, -, hbehind⟩ := h.ever (I := fun s => Wedged t s.conf ∧
    0 < s.conf.shared.queue.waiting.countP (·.op = op)) ⟨hwedged, hwaiting⟩
    (fun r a r' hr hi hs => by
      rcases hs.session_step with hsame | hstep
      · rw [hsame]
        exact hi
      · have horderly := orderly kind live (Facade.reachable hr)
        obtain ⟨hstays, hkept⟩ := hi.1.step horderly hstep
        exact ⟨hstays, hkept ▸ hi.2⟩) hlater
  have ha : (kind op).answers = true := by rw [hkind, Kind.answers]
  have hrun : (kind op).runOn = true := by rw [hkind, Kind.runOn]
  exact (served kind live ha hrun (Facade.reachable hr)).unvisited_of_waiting hbehind

end

/-- An executor runs a request on the spot, and `on_done` throws. -/
theorem throwing_on_done_called_once :
    ∃ s : Facade Unit Unit ℕ Unit,
      (callbackFace Unit (fun _ => .callback true false) fun _ => false).Reachable s ∧
      AtRest s.conf ∧ (s.request ()).call = .returned ∧
      (s.conf.shared.core ()).failure = some (.raised ()) ∧
      (s.conf.shared.core ()).visits = [.ok 7] ∧ OnDoneOnce () s ∧
      KeepsGoing (fun _ => .callback true false) (fun _ => false) () s := by
  let kind : Unit → Kind := fun _ => .callback true false
  have hsilent : ∀ s : Facade Unit Unit ℕ Unit, Unhindered kind s.conf ((), .silent) :=
    fun _ => ⟨⟨fun _ => ⟨nofun, nofun, nofun⟩, nofun⟩, nofun⟩
  have h0 : (callbackFace Unit (E := Unit) kind fun _ : ℕ => false).Reach
      (fun s a => Unhindered kind s.conf a) ⟨fresh, fun _ => ⟨.unmade, []⟩⟩ := .start rfl
  have h1 := h0.andThen (.other _ () rfl
    (.start .base _ () false .held rfl (by decide) (by decide) rfl rfl) nofun
    fun _ _ _ _ => rfl) ⟨⟨fun _ => ⟨nofun, nofun, fun _ _ => rfl⟩, nofun⟩, nofun⟩
  have h2 := h1.andThen (.other _ () rfl (.launchBound _ _ _ rfl) nofun nofun) (hsilent _)
  have h3 := h2.andThen (.other _ () rfl (.lockPush _ _ _ rfl) nofun nofun) (hsilent _)
  have h4 := h3.andThen (.other _ () rfl (.queuedWalks _ _ _ rfl rfl) nofun nofun)
    ⟨⟨fun _ => ⟨nofun, nofun, nofun⟩, nofun⟩, nofun⟩
  have h5 := h4.andThen (.other _ () rfl (.next _ _ _ rfl) nofun nofun) (hsilent _)
  have h6 := h5.andThen (.other _ () rfl (.found _ _) nofun nofun) (hsilent _)
  have h7 := h6.andThen (.other _ () rfl (.submitInline _ _ rfl) nofun nofun) (hsilent _)
  have h8 := h7.andThen (.answered _ () () (.ok 7) rfl rfl rfl) (hsilent _)
  have h9 := h8.andThen (.other _ () rfl (.callbackThrows _ _ ()) nofun nofun) (hsilent _)
  have h10 := h9.andThen (.other _ () rfl (.finalBound _ _ _ rfl) nofun nofun) (hsilent _)
  have h11 := h10.andThen (.other _ () rfl (.lockFinish _ _ _ rfl) nofun nofun) (hsilent _)
  have h12 := h11.andThen (.other _ () rfl (.finish _ _ _ rfl) nofun nofun)
    ⟨⟨fun _ => ⟨nofun, nofun, nofun⟩, nofun⟩, nofun⟩
  have h13 := h12.andThen
    (.other _ () rfl (.settledAlready _ _ _ rfl rfl rfl rfl) nofun nofun) (hsilent _)
  have h14 := h13.andThen (.other _ () rfl (.letGo _ _) nofun nofun) (hsilent _)
  have h15 := h14.andThen (.other _ () rfl (.relock _ _ rfl) nofun nofun) (hsilent _)
  have h16 := h15.andThen (.other _ () rfl (.destroyStarter _ _ _) nofun nofun)
    ⟨⟨fun _ => ⟨nofun, nofun, nofun⟩, nofun⟩, fun _ _ => .inl nofun⟩
  have h17 := h16.andThen (.other _ () rfl (.walkOn _ _ (.inr rfl)) nofun nofun) (hsilent _)
  have h18 := h17.andThen (.other _ () rfl (.drained _ rfl) nofun nofun) (hsilent _)
  have h19 := h18.andThen (.other _ () rfl (.launched _ _ _) nofun nofun) (hsilent _)
  have h20 := h19.andThen (.other _ () rfl (.detached _ _) nofun nofun) (hsilent _)
  have honce := on_done_called_once kind (fun _ : ℕ => false) () rfl h20.reachable
  refine ⟨_, h20.reachable, ⟨rfl, rfl, ?_⟩, rfl, rfl, rfl, honce.1, honce.2 h20⟩
  rintro _ _ (_ | ⟨_, ⟨⟩⟩)
  trivial

/-- A callback request is accepted behind an operation that opens a transaction nobody takes. The
starter of that one is the last that holds it: the worker that destroys it waits, in the destructor of
the transaction, for the mutex it has itself. `on_done` is not called any more, whatever happens. -/
theorem accepted_request_never_answered :
    ∃ s : Facade (Fin 3) (Option Bool) Unit Unit,
      (callbackFace (Fin 3)
        (fun op => op.elim (.callback true false) fun _ => .session true false)
        fun _ => true).Reachable s ∧
      s.conf.shared.accepted.map Starter.op = [some false, some true, none] ∧
      (s.request none).call = .returned ∧
      ∀ s', ((callbackFace (Fin 3)
        (fun op => op.elim (.callback true false) fun _ => .session true false)
        fun _ => true).after s).Reachable s' → (s'.conf.shared.core none).visits = [] := by
  let kind : Option Bool → Kind := fun op => op.elim (.callback true false) fun _ => .session true false
  have h0 : (callbackFace (Fin 3) (E := Unit) kind fun _ : Unit => true).Reachable
      ⟨fresh, fun _ => ⟨.unmade, []⟩⟩ := .start rfl
  -- the first operation goes to the executor, the second waits behind it, its task is let go
  have h1 := h0.andThen
    (.other _ 0 rfl (.start .base _ (some false) false .held rfl (by decide) (by decide) rfl rfl)
      nofun (by rintro _ _ ⟨⟩ ⟨⟩)) trivial
  have h2 := h1.andThen (.other _ 0 rfl (.launchBound _ _ _ rfl) nofun nofun) trivial
  have h3 := h2.andThen (.other _ 0 rfl (.lockPush _ _ _ rfl) nofun nofun) trivial
  have h4 := h3.andThen (.other _ 0 rfl (.queuedWalks _ _ _ rfl rfl) nofun nofun) trivial
  have h5 := h4.andThen (.other _ 0 rfl (.next _ _ _ rfl) nofun nofun) trivial
  have h6 := h5.andThen (.other _ 0 rfl (.found _ _) nofun nofun) trivial
  have h7 := h6.andThen (.other _ 0 rfl (.submit _ _) nofun nofun) trivial
  have h8 := h7.andThen (.other _ 0 rfl (.relock _ _ rfl) nofun nofun) trivial
  have h9 := h8.andThen (.other _ 0 rfl (.destroyStarter _ _ _) nofun nofun) trivial
  have h10 := h9.andThen (.other _ 0 rfl (.stillRunning _ rfl) nofun nofun) trivial
  have h11 := h10.andThen (.other _ 0 rfl (.launched _ _ _) nofun nofun) trivial
  have h12 := h11.andThen (.other _ 0 rfl (.detached _ _) nofun nofun) trivial
  have h13 := h12.andThen
    (.other _ 0 rfl (.start .base _ (some true) false .held rfl (by decide) (by decide) rfl rfl)
      nofun (by rintro _ _ ⟨⟩ ⟨⟩)) trivial
  have h14 := h13.andThen (.other _ 0 rfl (.launchBound _ _ _ rfl) nofun nofun) trivial
  have h15 := h14.andThen (.other _ 0 rfl (.lockPush _ _ _ rfl) nofun nofun) trivial
  have h16 := h15.andThen (.other _ 0 rfl (.queued _ _ _ rfl rfl) nofun nofun) trivial
  have h17 := h16.andThen (.other _ 0 rfl (.launched _ _ _) nofun nofun) trivial
  have h18 := h17.andThen (.other _ 0 rfl (.detached _ _) nofun nofun) trivial
  have h19 := h18.andThen
    (.other _ 0 rfl (.dropTask .base _ (some true) rfl rfl) nofun nofun) trivial
  -- a callback request is accepted behind them
  have h20 := h19.andThen
    (.other _ 0 rfl (.start .base _ none false .held rfl (by decide) (by decide) rfl rfl)
      nofun (by rintro _ _ ⟨⟩ _; rfl)) trivial
  have h21 := h20.andThen (.other _ 0 rfl (.launchBound _ _ _ rfl) nofun nofun) trivial
  have h22 := h21.andThen (.other _ 0 rfl (.lockPush _ _ _ rfl) nofun nofun) trivial
  have h23 := h22.andThen (.other _ 0 rfl (.queued _ _ _ rfl rfl) nofun nofun) trivial
  have h24 := h23.andThen (.other _ 0 rfl (.launched _ _ _) nofun nofun) trivial
  have h25 := h24.andThen (.other _ 0 rfl (.detached _ _) nofun nofun) trivial
  -- one worker runs the first, gives its turn back and hands the second over
  have h26 := h25.andThen
    (.other _ 1 rfl (.runBody .base _ (some false) [] [] rfl rfl rfl) nofun nofun) trivial
  have h27 := h26.andThen
    (.other _ 1 rfl (.returns _ _ none rfl) (by rintro _ ⟨⟩; rfl) nofun) trivial
  have h28 := h27.andThen (.other _ 1 rfl (.finalBound _ _ _ rfl) nofun nofun) trivial
  have h29 := h28.andThen (.other _ 1 rfl (.lockFinish _ _ _ rfl) nofun nofun) trivial
  have h30 := h29.andThen (.other _ 1 rfl (.finishWalks _ _ _ rfl) nofun nofun) trivial
  have h31 := h30.andThen (.other _ 1 rfl (.next _ _ _ rfl) nofun nofun) trivial
  have h32 := h31.andThen (.other _ 1 rfl (.found _ _) nofun nofun) trivial
  have h33 := h32.andThen (.other _ 1 rfl (.submit _ _) nofun nofun) trivial
  -- another runs the second, which opens a transaction nobody takes, and lets it go
  have h34 := h33.andThen
    (.other _ 2 rfl (.runBody .base _ (some true) [] [] rfl rfl rfl) nofun nofun) trivial
  have h35 := h34.andThen
    (.other _ 2 rfl (.returns _ _ (some ()) rfl) (by rintro _ ⟨⟩; rfl) nofun) trivial
  have h36 := h35.andThen (.other _ 2 rfl (.finalBound _ _ _ rfl) nofun nofun) trivial
  have h37 := h36.andThen (.other _ 2 rfl (.lockFinish _ _ _ rfl) nofun nofun) trivial
  have h38 := h37.andThen (.other _ 2 rfl (.finish _ _ _ rfl) nofun nofun) trivial
  have h39 := h38.andThen (.other _ 2 rfl (.nothingToReport _ _ _ rfl rfl) nofun nofun) trivial
  have h40 := h39.andThen (.other _ 2 rfl (.letGo _ _) nofun nofun) trivial
  -- the first worker destroys its starter, and with it the transaction
  have h41 := h40.andThen (.other _ 1 rfl (.relock _ _ rfl) nofun nofun) trivial
  have h42 := h41.andThen (.other _ 1 rfl (.destroyStarter _ _ _) nofun nofun) trivial
  have h43 := h42.andThen (.other _ 1 rfl (.destroyTransaction _ _ () rfl rfl) nofun nofun) trivial
  have hkind : kind none = .callback true false := rfl
  have hlocks : (Frame.walked false : Frame (Option Bool) Unit).Locks := Nat.one_pos
  refine ⟨_, h43, rfl, rfl, fun s' hlater => ?_⟩
  exact unvisited_of_wedged (t := 1) kind (fun _ => true) hkind h43
    ⟨[.rollback, .walked false, .deliver (some false) false, .holding (some false), .base], rfl,
      .walked false, by simp, hlocks⟩ (by decide) hlater

end Uniorm.Async
