import Mathlib.Data.List.Induction
import Uniorm.Async.Operation

/-! # The drive actions of one task

One task as its driver meets it: attempts to drive it, one after the other, the end of its body, and
the delivery of the result. Handlers and continuations are told apart, so that one can say which of
them an attempt replaces. A hand-off is accepted, refused by a full queue, or fails.
-/
namespace Uniorm.Async

universe u v w x

section
variable {H : Type u} {K : Type v} {V : Type w} {E : Type x}

/-- A drive action: `start` with its handler, which may be empty, `co_await` with the coroutine that
waits. -/
inductive Attempt (H : Type u) (K : Type v) where
  | block
  | start (handler : Option H)
  | coAwait (parent : K)

def Attempt.isAwait : Attempt H K → Bool
  | .coAwait _ => true
  | _ => false

/-- What `launch` throws when the queue is full, or when there is no executor to hand the body to. -/
inductive Refusal (E : Type x) where
  | overflow
  | throws (error : E)

def Refusal.failure : Refusal E → Failure E
  | overflow => .submitOverflow
  | throws error => .raised error

/-- What a driver is told: by the return of `block`, by the resumption of a coroutine, or by its
handler. -/
inductive Answer (H : Type u) (K : Type v) (V : Type w) (E : Type x) where
  | unblocked (result : Result V E)
  | resumed (parent : K) (result : Result V E)
  | reported (handler : H) (failure : Failure E)

/-- An `operation_core` with the drivers that wait for it. `launched` counts the bodies handed on,
`running` those that are not over, and `parked` the threads in `finished.acquire()`. `resuming` are
the continuations about to be resumed. -/
structure Task (H : Type u) (K : Type v) (V : Type w) (E : Type x) where
  driven : Drive
  onFailure : Option H
  continuation : Option K
  failure : Option (Failure E)
  value : Option V
  finished : ℕ
  parked : ℕ
  resuming : List K
  launched : ℕ
  running : ℕ
  answers : List (Answer H K V E)

namespace Task
variable (t : Task H K V E)

def new : Task H K V E := ⟨.idle, none, none, none, none, 0, 0, [], 0, 0, []⟩

def launch (mode : Drive) : Task H K V E :=
  { t with driven := mode, launched := t.launched + 1, running := t.running + 1 }

/-- `task::park` up to `acquire`, with what it throws. -/
def park (l : Option (Refusal E)) : Task H K V E × Option (Failure E) :=
  if t.driven = .idle then
    match l with
    | none => ({ t.launch .blocked with parked := t.parked + 1 }, none)
    | some r => ({ t with driven := .idle }, some r.failure)
  else (t, some .drivenTwice)

/-- `task::detach`: the handler is stored before the task is claimed. -/
def detach (handler : Option H) (l : Option (Refusal E)) : Task H K V E × Option (Failure E) :=
  let t := { t with onFailure := handler }
  if t.driven = .idle then
    match l with
    | none => (t.launch .detached, none)
    | some r => ({ t with driven := .idle }, some r.failure)
  else (t, some .drivenTwice)

/-- `task_awaiter::await_suspend`: one `catch` for `claim` and `launch`. What it catches is taken by
the parent from `await_resume`. -/
def awaitSuspend (parent : K) (l : Option (Refusal E)) : Task H K V E × Option (Failure E) :=
  let t := { t with continuation := some parent }
  let refuse (f : Failure E) := ({ t with driven := .idle, failure := some f }, some f)
  if t.driven = .idle then
    match l with
    | none => (t.launch .awaited, none)
    | some r => refuse r.failure
  else refuse .drivenTwice

/-- A drive action, with the exception its caller gets if it is refused. -/
def attempt (a : Attempt H K) (l : Option (Refusal E)) : Task H K V E × Option (Failure E) :=
  match a with
  | .block => t.park l
  | .start handler => t.detach handler l
  | .coAwait parent => t.awaitSuspend parent l

/-- What `take` returns or throws. -/
def result : Result V E :=
  match t.failure with
  | some f => .error f
  | none => .ok t.value

/-- `take` leaves the value where it is when it throws. -/
def taken : Task H K V E :=
  { t with
    value := match t.failure with
      | some _ => t.value
      | none => none }

/-- `deliver_failure`. -/
def deliverFailure : Task H K V E :=
  { t with
    onFailure := none
    answers := match t.onFailure, t.failure with
      | some handler, some f => t.answers ++ [.reported handler f]
      | _, _ => t.answers }

/-- The value or the exception of the body, or what the executor threw instead of running it. -/
def store (r : Except E (Option V)) : Task H K V E :=
  match r with
  | .ok v => { t with value := v }
  | .error e => { t with failure := some (.raised e) }

/-- The end of the operation: the final awaiter, or `fail_before_start`. -/
def conclude : Task H K V E :=
  match t.driven with
  | .blocked => { t with finished := t.finished + 1 }
  | .detached => t.deliverFailure
  | .awaited => { t with resuming := t.resuming ++ t.continuation.toList }
  | .idle => t

/-- What happens to a task: an attempt to drive it, the end of the body it was handed on with, the
return of `acquire`, the resumption of a continuation. -/
inductive Happening (H : Type u) (K : Type v) (V : Type w) (E : Type x) where
  | attempt (a : Attempt H K) (l : Option (Refusal E))
  | land (r : Except E (Option V))
  | wake
  | resume

/-- An event that cannot happen now has no next state. -/
def step : Happening H K V E → Option (Task H K V E)
  | .attempt a l => some (t.attempt a l).1
  | .land r =>
    if t.running = 0 then none else some { (t.store r).conclude with running := t.running - 1 }
  | .wake =>
    if t.finished = 0 ∨ t.parked = 0 then none
    else some { t.taken with
      finished := t.finished - 1
      parked := t.parked - 1
      answers := t.answers ++ [.unblocked t.result] }
  | .resume =>
    match t.resuming with
    | [] => none
    | parent :: rest => some { t.taken with
        resuming := rest
        answers := t.answers ++ [.resumed parent t.result] }

def run : Task H K V E → List (Happening H K V E) → Option (Task H K V E)
  | t, [] => some t
  | t, e :: es => (t.step e).bind (run · es)

def afterRefusals (history : List (Attempt H K × Refusal E)) : Task H K V E :=
  history.foldl (fun t p => (t.attempt p.1 (some p.2)).1) new

variable {t}

theorem run_append (es es' : List (Happening H K V E)) :
    t.run (es ++ es') = (t.run es).bind (run · es') := by
  induction es generalizing t with
  | nil => rfl
  | cons e es ih =>
    rw [List.cons_append, run, run]
    cases t.step e with
    | none => rfl
    | some t' => exact ih

theorem attempt_refused (hidle : t.driven = .idle) (a : Attempt H K) (r : Refusal E) :
    t.attempt a (some r) = (match a with
      | .block => t
      | .start handler => { t with onFailure := handler }
      | .coAwait parent => { t with continuation := some parent, failure := some r.failure },
      some r.failure) := by
  obtain ⟨driven, _⟩ := t
  obtain rfl : driven = .idle := hidle
  cases a <;> rfl

structure Undriven (t : Task H K V E) : Prop where
  driven : t.driven = .idle
  value : t.value = none
  finished : t.finished = 0
  parked : t.parked = 0
  resuming : t.resuming = []
  launched : t.launched = 0
  running : t.running = 0
  answers : t.answers = []

theorem undriven_new : Undriven (new : Task H K V E) := ⟨rfl, rfl, rfl, rfl, rfl, rfl, rfl, rfl⟩

theorem Undriven.refused (h : t.Undriven) (a : Attempt H K) (r : Refusal E) :
    (t.attempt a (some r)).1.Undriven := by
  rw [attempt_refused h.driven]
  cases a <;> exact ⟨h.driven, h.value, h.finished, h.parked, h.resuming, h.launched, h.running, h.answers⟩

theorem undriven_foldl (h : t.Undriven) (history : List (Attempt H K × Refusal E)) :
    (history.foldl (fun t p => (t.attempt p.1 (some p.2)).1) t).Undriven := by
  induction history generalizing t with
  | nil => exact h
  | cons p history ih => exact ih (h.refused p.1 p.2)

theorem undriven_afterRefusals (history : List (Attempt H K × Refusal E)) :
    (afterRefusals history : Task H K V E).Undriven := undriven_foldl undriven_new history

theorem attempt_accepted (h : t.Undriven) (a : Attempt H K) :
    (t.attempt a none).2 = none ∧ (t.attempt a none).1.driven ≠ .idle ∧
      (t.attempt a none).1.launched = 1 := by
  have hidle := h.driven
  have hlaunched := h.launched
  cases a with
  | block => simp [attempt, park, launch, hidle, hlaunched]
  | start handler => simp [attempt, detach, launch, hidle, hlaunched]
  | coAwait parent => simp [attempt, awaitSuspend, launch, hidle, hlaunched]

theorem attempt_again (hdriven : t.driven ≠ .idle) (a : Attempt H K) (l : Option (Refusal E)) :
    t.attempt a l = (match a with
      | .block => t
      | .start handler => { t with onFailure := handler }
      | .coAwait parent =>
        { t with continuation := some parent, driven := .idle, failure := some .drivenTwice },
      some .drivenTwice) := by
  cases a with
  | block => exact if_neg hdriven
  | start handler => exact if_neg hdriven
  | coAwait parent => exact if_neg hdriven

theorem driven_of_drivenTwice {a : Attempt H K} {l : Option (Refusal E)}
    (h : (t.attempt a l).2 = some .drivenTwice) : t.driven ≠ .idle := by
  intro hidle
  cases l with
  | none => cases a <;> simp [attempt, park, detach, awaitSuspend, hidle] at h
  | some r =>
    rw [attempt_refused hidle] at h
    cases r <;> cases h

def Happening.isAttempt : Happening H K V E → Bool
  | .attempt _ _ => true
  | _ => false

def others (es : List (Happening H K V E)) : List (Happening H K V E) :=
  es.filter fun e => !e.isAttempt

/-- Whatever the attempts that follow, each is refused as a second drive, and the task is at every
moment as if none had been made. -/
structure DrivenOnce (t : Task H K V E) (es : List (Happening H K V E)) : Prop where
  refused : ∀ pre a l t', pre ++ [.attempt a l] <+: es → t.run pre = some t' →
    (t'.attempt a l).2 = some .drivenTwice
  same : ∀ pre t', pre <+: es → t.run pre = some t' → t.run (others pre) = some t'
  once : ∀ pre t', pre <+: es → t.run pre = some t' → t'.launched = 1

/-- Every attempt is a `block`, or a `start` with the handler that is stored already. -/
def Harmless (t : Task H K V E) (es : List (Happening H K V E)) : Prop :=
  ∀ pre a l t', pre ++ [.attempt a l] <+: es → t.run pre = some t' →
    a = .block ∨ a = .start t'.onFailure

/-- What is left of the mode and the count of bodies by all that is not an attempt. -/
structure SameDrive (t t' : Task H K V E) : Prop where
  driven : t'.driven = t.driven
  launched : t'.launched = t.launched

theorem sameDrive_store (r : Except E (Option V)) : SameDrive t (t.store r) := by
  cases r <;> exact ⟨rfl, rfl⟩

theorem sameDrive_conclude : SameDrive t t.conclude := by
  unfold conclude
  split <;> exact ⟨rfl, rfl⟩

theorem sameDrive_step {e : Happening H K V E} {t' : Task H K V E} (he : e.isAttempt = false)
    (h : t.step e = some t') : SameDrive t t' := by
  cases e with
  | attempt a l => cases he
  | land r =>
    rw [step] at h
    split at h
    · cases h
    · obtain rfl := Option.some.inj h
      have hstore := sameDrive_store (t := t) r
      have hconclude := sameDrive_conclude (t := t.store r)
      exact ⟨hconclude.driven.trans hstore.driven, hconclude.launched.trans hstore.launched⟩
  | wake =>
    rw [step] at h
    split at h
    · cases h
    · obtain rfl := Option.some.inj h
      exact ⟨rfl, rfl⟩
  | resume =>
    rw [step] at h
    split at h
    · cases h
    · obtain rfl := Option.some.inj h
      exact ⟨rfl, rfl⟩

/-- One more event at the end of a run. -/
theorem run_concat {es : List (Happening H K V E)} {e : Happening H K V E} {t' : Task H K V E} :
    t.run (es ++ [e]) = some t' ↔ ∃ t₁, t.run es = some t₁ ∧ t₁.step e = some t' := by
  rw [run_append, Option.bind_eq_some_iff]
  simp [run]

theorem others_attempt (es : List (Happening H K V E)) (a : Attempt H K) (l : Option (Refusal E)) :
    others (es ++ [.attempt a l]) = others es := by
  simp [others, Happening.isAttempt]

theorem others_event (es : List (Happening H K V E)) {e : Happening H K V E}
    (he : e.isAttempt = false) : others (es ++ [e]) = others es ++ [e] := by
  simp [others, he]

/-- What harmless attempts leave of a driven task, by induction over the run. -/
theorem Harmless.kept {es : List (Happening H K V E)} (h : Harmless t es) (hdriven : t.driven ≠ .idle)
    (pre : List (Happening H K V E)) {t' : Task H K V E} (hpre : pre <+: es)
    (hrun : t.run pre = some t') :
    t'.driven ≠ .idle ∧ t'.launched = t.launched ∧ t.run (others pre) = some t' := by
  induction pre using List.reverseRecOn generalizing t' with
  | nil =>
    obtain rfl := Option.some.inj hrun
    exact ⟨hdriven, rfl, rfl⟩
  | append_singleton pre e ih =>
    obtain ⟨t₁, hfirst, hstep⟩ := run_concat.mp hrun
    have hbefore := (List.prefix_append pre [e]).trans hpre
    obtain ⟨hdriven₁, hlaunched, hothers⟩ := ih hbefore hfirst
    cases he : e.isAttempt with
    | false =>
      have hsame := sameDrive_step he hstep
      refine ⟨hsame.driven ▸ hdriven₁, hsame.launched.trans hlaunched, ?_⟩
      rw [others_event pre he, run_concat]
      exact ⟨t₁, hothers, hstep⟩
    | true =>
      cases e with
      | attempt a l =>
        have hkeeps : t' = t₁ := by
          have hnext : (t₁.attempt a l).1 = t' := Option.some.inj hstep
          rw [← hnext, attempt_again hdriven₁]
          rcases h pre a l t₁ hpre hfirst with rfl | rfl
          · rfl
          · rfl
        subst hkeeps
        rw [others_attempt]
        exact ⟨hdriven₁, hlaunched, hothers⟩
      | _ => cases he

/-- A task is driven once, whatever comes after the accepted attempt, exactly as long as what comes
after it is harmless. -/
theorem driven_once_iff (history : List (Attempt H K × Refusal E)) (a : Attempt H K)
    (es : List (Happening H K V E)) :
    DrivenOnce (attempt (afterRefusals history : Task H K V E) a none).1 es ↔
      Harmless (attempt (afterRefusals history : Task H K V E) a none).1 es := by
  have hundriven : (afterRefusals history : Task H K V E).Undriven := undriven_afterRefusals history
  obtain ⟨-, hdriven, hlaunched⟩ := attempt_accepted hundriven a
  generalize (attempt (afterRefusals history : Task H K V E) a none).1 = t at hdriven hlaunched
  constructor
  · intro honce pre a l t' hpre hrun
    have hbefore := (List.prefix_append pre [.attempt a l]).trans hpre
    have hothers := honce.same pre t' hbefore hrun
    have hafter := honce.same _ (t'.attempt a l).1 hpre (run_concat.mpr ⟨t', hrun, rfl⟩)
    rw [others_attempt, hothers] at hafter
    have hsame : t' = (t'.attempt a l).1 := Option.some.inj hafter
    have hdriven' := driven_of_drivenTwice (honce.refused pre a l t' hpre hrun)
    rw [attempt_again hdriven'] at hsame
    cases a with
    | block => exact .inl rfl
    | start handler => exact .inr (congrArg Attempt.start (congrArg Task.onFailure hsame).symm)
    | coAwait parent => exact absurd (congrArg Task.driven hsame) hdriven'
  · intro hharmless
    refine ⟨?_, ?_, ?_⟩
    · intro pre a l t' hpre hrun
      have hbefore := (List.prefix_append pre [.attempt a l]).trans hpre
      rw [attempt_again (hharmless.kept hdriven pre hbefore hrun).1]
    · intro pre t' hpre hrun
      exact (hharmless.kept hdriven pre hpre hrun).2.2
    · intro pre t' hpre hrun
      exact (hharmless.kept hdriven pre hpre hrun).2.1.trans hlaunched

def completion : Attempt H K → List (Happening H K V E)
  | .block => [.wake]
  | .start _ => []
  | .coAwait _ => [.resume]

/-- What an accepted attempt delivers when its body ends with `r`. -/
def delivered (t : Task H K V E) (a : Attempt H K) (r : Except E (Option V)) :
    Option (List (Answer H K V E)) :=
  (t.run (.attempt a none :: .land r :: completion a)).map Task.answers

def outcome (stale : Option (Failure E)) : Except E (Option V) → Result V E
  | .error e => .error (.raised e)
  | .ok v =>
    match stale with
    | some f => .error f
    | none => .ok v

/-- A driver's answer: the result, or a call of the handler if there is one and the result is a
failure. -/
def told (result : Result V E) : Attempt H K → List (Answer H K V E)
  | .block => [.unblocked result]
  | .coAwait parent => [.resumed parent result]
  | .start none => []
  | .start (some handler) =>
    match result with
    | .error f => [.reported handler f]
    | .ok _ => []

/-- Of an undriven task, only the failure it holds matters. -/
theorem delivered_eq (h : t.Undriven) (a : Attempt H K) (r : Except E (Option V)) :
    delivered t a r = some (told (outcome t.failure r) a) := by
  obtain ⟨driven, onFailure, continuation, failure, value, finished, parked, resuming, launched,
    running, answers⟩ := t
  obtain ⟨hdriven, hvalue, hfinished, hparked, hresuming, hlaunched, hrunning, hanswers⟩ := h
  dsimp only at hdriven hvalue hfinished hparked hresuming hlaunched hrunning hanswers
  subst hdriven hvalue hfinished hparked hresuming hlaunched hrunning hanswers
  cases a with
  | block => cases r <;> cases failure <;> rfl
  | start handler => cases handler <;> cases r <;> cases failure <;> rfl
  | coAwait parent => cases r <;> cases failure <;> rfl

/-- A `co_await` that the full queue refused leaves its exception behind. -/
theorem failure_foldl (h : t.Undriven) (history : List (Attempt H K)) :
    ((history.map fun a => (a, Refusal.overflow)).foldl
      (fun t p => (t.attempt p.1 (some p.2)).1) t).failure =
      if history.any Attempt.isAwait then some .submitOverflow else t.failure := by
  induction history generalizing t with
  | nil => rfl
  | cons a history ih =>
    have hrest := ih (h.refused a .overflow)
    rw [List.map_cons, List.foldl_cons, hrest, attempt_refused h.driven]
    cases a with
    | block => simp [Attempt.isAwait]
    | start handler => simp [Attempt.isAwait]
    | coAwait parent => simp [Attempt.isAwait, Refusal.failure]

/-- After any refusals by a full queue, an accepted attempt delivers what it would have delivered on a
fresh task if no refused attempt was a `co_await`, if the operation fails, or if there is no handler
to tell. -/
theorem retry_delivers_iff (history : List (Attempt H K)) (a : Attempt H K)
    (r : Except E (Option V)) :
    delivered (afterRefusals (history.map fun a => (a, .overflow))) a r = delivered new a r ↔
      history.any Attempt.isAwait = false ∨ (∃ e, r = .error e) ∨ a = .start none := by
  rw [delivered_eq (undriven_afterRefusals _), delivered_eq undriven_new, afterRefusals,
    failure_foldl undriven_new]
  cases hawait : history.any Attempt.isAwait with
  | false => exact iff_of_true rfl (.inl rfl)
  | true =>
    cases r with
    | error e => exact iff_of_true rfl (.inr (.inl ⟨e, rfl⟩))
    | ok v =>
      cases a with
      | block => simp [told, outcome, new]
      | start handler => cases handler <;> simp [told, outcome, new]
      | coAwait parent => simp [told, outcome, new]

/-- A fresh task delivers the value of its body or the exception of its operation. -/
theorem delivered_new (a : Attempt H K) (r : Except E (Option V)) :
    delivered new a r = some (told (r.mapError Failure.raised) a) := by
  rw [delivered_eq undriven_new]
  cases r <;> rfl

end Task

end

namespace Task

/-- A `co_await` after a `block`: the mode is gone, and the end of the body wakes nobody. -/
theorem await_after_block :
    ¬ DrivenOnce ((new : Task Unit Unit Unit Unit).attempt .block none).1
      [.attempt (.coAwait ()) none, .land (.ok (some ()))] := by
  intro h
  have hrefused := h.same _ _ List.prefix_rfl rfl
  exact absurd (congrArg Task.finished (Option.some.inj hrefused)) (by decide)

/-- A refused `co_await`, then a `block` whose body returns: `block` throws the refusal. -/
theorem block_after_refused_await :
    delivered (afterRefusals [(.coAwait (), .overflow)] : Task Unit Unit Unit Unit) .block
        (.ok (some ())) = some [.unblocked (.error .submitOverflow)] ∧
      delivered (afterRefusals [(.coAwait (), .overflow)] : Task Unit Unit Unit Unit) .block
        (.ok (some ())) ≠ delivered new .block (.ok (some ())) :=
  ⟨rfl, nofun⟩

end Task

end Uniorm.Async
