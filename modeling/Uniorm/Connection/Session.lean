import Mathlib.Data.List.Basic
import Mathlib.Tactic.Common

/-! # A connection, its backend and its transactions

The commit mode is kept twice, in `connection::autocommit_` and in the backend, and
uncommitted work is held by the server. Each backend call may fail in several ways;
a failed `set_autocommit` leaves the backend in its mode. Transactions and the orm's
commit mode are sequences of such calls, and no sequence brings the two flags apart
or leaves work pending in autocommit mode.
-/
namespace Uniorm.Connection

inductive Work where
  | lease (statement : ℕ)
  | heartbeat
  deriving DecidableEq, Repr

structure Session where
  /-- `connection::autocommit_` -/
  autocommit : Bool
  /-- The mode the backend is in. -/
  mode : Bool
  /-- The work the server holds uncommitted. -/
  pending : List Work
  deriving DecidableEq, Repr

/-- A session together with the committed work of the server. -/
structure Link where
  session : Session
  durable : List Work
  deriving DecidableEq, Repr

/-- How a backend call fails: it never reached the server, the server dropped the transaction, or
the server did it and the answer was lost. -/
inductive Fault where
  | refused
  | aborted
  | unconfirmed
  deriving DecidableEq, Repr

/-- A call and whether it returned. A call that throws keeps what it did before. -/
abbrev Call := Link → Link × Bool

namespace Link

def setPending (l : Link) (work : List Work) : Link :=
  { l with session := { l.session with pending := work } }

def dropWork (l : Link) : Link := l.setPending []

def commitWork (l : Link) : Link := { l.dropWork with durable := l.durable ++ l.session.pending }

/-- A statement commits by itself in autocommit mode. -/
def runStatement (l : Link) (w : Work) : Link :=
  if l.session.mode then { l with durable := l.durable ++ [w] }
  else l.setPending (l.session.pending ++ [w])

def setMode (l : Link) (enabled : Bool) : Link :=
  { l with session := { l.session with mode := enabled } }

end Link

def serverCall (effect : Link → Link) : Option Fault → Call
  | none, l => (effect l, true)
  | some .refused, l => (l, false)
  | some .aborted, l => (l.dropWork, false)
  | some .unconfirmed, l => (effect l, false)

def backendSetAutocommit (enabled : Bool) : Option Fault → Call
  | none, l => ((if enabled then l.commitWork else l).setMode enabled, true)
  | some f, l => serverCall (fun l => if enabled then l.commitWork else l) (some f) l

def setAutocommit (enabled : Bool) (f : Option Fault) : Call := fun l =>
  let r := backendSetAutocommit enabled f l
  if r.2 then ({ r.1 with session := { r.1.session with autocommit := enabled } }, true) else r

def commit (f : Option Fault) : Call := serverCall Link.commitWork f

def rollback (f : Option Fault) : Call := serverCall Link.dropWork f

def execute (w : Work) (f : Option Fault) : Call := serverCall (·.runStatement w) f

def done : Call := fun l => (l, true)

/-- The second call is made only if the first returned. -/
def andThen (p q : Call) : Call := fun l => if (p l).2 then q (p l).1 else p l

structure Transaction where
  active : Bool
  ownsMode : Bool
  deriving DecidableEq, Repr

/-- The constructor. There is no object if it throws. -/
def beginTransaction (f : Option Fault) (l : Link) : Link × Option Transaction :=
  let r := (if l.session.autocommit then setAutocommit false f else done) l
  (r.1, if r.2 then some ⟨true, l.session.autocommit⟩ else none)

/-- The common body of `commit` and `rollback`: `active_` falls only when both calls returned. -/
def Transaction.finish (tx : Transaction) (ending : Call) (f : Option Fault) (l : Link) :
    Link × Transaction :=
  if tx.active then
    let r := andThen ending (if tx.ownsMode then setAutocommit true f else done) l
    (r.1, { tx with active := !r.2 })
  else (l, tx)

def Transaction.commit (tx : Transaction) (f g : Option Fault) (l : Link) : Link × Transaction :=
  tx.finish (Connection.commit f) g l

def Transaction.rollback (tx : Transaction) (f g : Option Fault) (l : Link) : Link × Transaction :=
  tx.finish (Connection.rollback f) g l

/-- `adopt_connection`: how an orm begins a lease. -/
def adoptConnection (autocommit : Bool) (f g : Option Fault) : Call := fun l =>
  andThen (if l.session.autocommit then done else Connection.rollback f)
    (setAutocommit autocommit g) l

/-- The reset of `connection_pool::release`. -/
def resetLease (f g : Option Fault) : Call := fun l =>
  (if l.session.autocommit then done
    else andThen (Connection.rollback f) (setAutocommit true g)) l

/-- The two flags agree, and in autocommit mode nothing is pending. -/
structure Sound (s : Session) : Prop where
  agree : s.autocommit = s.mode
  settled : s.mode = true → s.pending = []

/-- In autocommit mode on both sides and with nothing pending. -/
def clean : Session := ⟨true, true, []⟩

theorem Sound.eq_clean {s : Session} (h : Sound s) (hauto : s.autocommit = true) : s = clean := by
  obtain ⟨autocommit, mode, pending⟩ := s
  obtain rfl : autocommit = true := hauto
  obtain rfl : mode = true := h.agree.symm
  obtain rfl : pending = [] := h.settled rfl
  rfl

theorem sound_clean : Sound clean := ⟨rfl, fun _ => rfl⟩

/-- A call after which the flags agree and autocommit mode has nothing pending. -/
def Keeps (p : Call) : Prop := ∀ l, Sound l.session → Sound (p l).1.session

theorem sound_dropWork {l : Link} (h : Sound l.session) : Sound l.dropWork.session :=
  ⟨h.agree, fun _ => rfl⟩

theorem sound_commitWork {l : Link} (h : Sound l.session) : Sound l.commitWork.session :=
  sound_dropWork h

theorem keeps_serverCall {effect : Link → Link}
    (heffect : ∀ l, Sound l.session → Sound (effect l).session) (f : Option Fault) :
    Keeps (serverCall effect f) := by
  intro l h
  rcases f with _ | f
  · exact heffect l h
  · cases f with
    | refused => exact h
    | aborted => exact sound_dropWork h
    | unconfirmed => exact heffect l h

theorem keeps_commit (f : Option Fault) : Keeps (commit f) :=
  keeps_serverCall (fun _ => sound_commitWork) f

theorem keeps_rollback (f : Option Fault) : Keeps (rollback f) :=
  keeps_serverCall (fun _ => sound_dropWork) f

theorem keeps_execute (w : Work) (f : Option Fault) : Keeps (execute w f) := by
  refine keeps_serverCall (fun l h => ?_) f
  unfold Link.runStatement
  split
  · exact h
  · rename_i hmode
    exact ⟨h.agree, fun hm => absurd hm hmode⟩

theorem keeps_setAutocommit (enabled : Bool) (f : Option Fault) :
    Keeps (setAutocommit enabled f) := by
  intro l h
  rcases f with _ | f
  · cases enabled with
    | true => exact ⟨rfl, fun _ => rfl⟩
    | false => exact ⟨rfl, fun hm => Bool.noConfusion hm⟩
  · have hfails : setAutocommit enabled (some f) l =
        serverCall (fun l => if enabled then l.commitWork else l) (some f) l := by
      cases f <;> rfl
    rw [hfails]
    refine keeps_serverCall (fun l h => ?_) (some f) l h
    cases enabled with
    | true => exact sound_commitWork h
    | false => exact h

theorem keeps_done : Keeps done := fun _ h => h

theorem keeps_andThen {p q : Call} (hp : Keeps p) (hq : Keeps q) : Keeps (andThen p q) := by
  intro l h
  unfold andThen
  split
  · exact hq _ (hp l h)
  · exact hp l h

theorem keeps_adoptConnection (autocommit : Bool) (f g : Option Fault) :
    Keeps (adoptConnection autocommit f g) := by
  intro l h
  refine keeps_andThen ?_ (keeps_setAutocommit autocommit g) l h
  split
  · exact keeps_done
  · exact keeps_rollback f

theorem sound_beginTransaction (f : Option Fault) {l : Link} (h : Sound l.session) :
    Sound (beginTransaction f l).1.session := by
  unfold beginTransaction
  dsimp only
  split
  · exact keeps_setAutocommit false f l h
  · exact h

theorem Transaction.sound_finish (tx : Transaction) {ending : Call} (hending : Keeps ending)
    (f : Option Fault) {l : Link} (h : Sound l.session) :
    Sound (tx.finish ending f l).1.session := by
  unfold Transaction.finish
  split
  · refine keeps_andThen hending ?_ l h
    split
    · exact keeps_setAutocommit true f
    · exact keeps_done
  · exact h

/-- The reset commits nothing, and a connection it accepts is clean. -/
theorem resetLease_spec (f g : Option Fault) {l : Link} (h : Sound l.session) :
    Sound (resetLease f g l).1.session ∧ (resetLease f g l).1.durable = l.durable ∧
      ((resetLease f g l).2 = true → (resetLease f g l).1.session = clean) := by
  unfold resetLease
  cases hauto : l.session.autocommit with
  | true => exact ⟨h, rfl, fun _ => h.eq_clean hauto⟩
  | false =>
    have hkeeps := keeps_andThen (keeps_rollback f) (keeps_setAutocommit true g) l h
    refine ⟨hkeeps, ?_, ?_⟩
    -- Nothing is pending any more when autocommit is switched on, so the switch commits nothing.
    · rcases f with _ | ⟨_ | _ | _⟩ <;> rcases g with _ | ⟨_ | _ | _⟩ <;>
        simp [andThen, rollback, serverCall, setAutocommit, backendSetAutocommit, Link.dropWork,
          Link.setPending, Link.commitWork, Link.setMode]
    · intro hok
      refine hkeeps.eq_clean ?_
      rcases f with _ | ⟨_ | _ | _⟩ <;> rcases g with _ | ⟨_ | _ | _⟩ <;>
        simp [andThen, rollback, serverCall, setAutocommit, backendSetAutocommit] at hok ⊢

/-- A heartbeat leaves an idle connection clean. -/
theorem execute_clean (w : Work) (f : Option Fault) {l : Link} (h : l.session = clean) :
    (execute w f l).1.session = clean ∧
      ((execute w f l).1.durable = l.durable ∨ (execute w f l).1.durable = l.durable ++ [w]) := by
  obtain ⟨session, durable⟩ := l
  obtain rfl : session = clean := h
  rcases f with _ | ⟨_ | _ | _⟩
  · exact ⟨rfl, .inr rfl⟩
  · exact ⟨rfl, .inl rfl⟩
  · exact ⟨rfl, .inl rfl⟩
  · exact ⟨rfl, .inr rfl⟩

end Uniorm.Connection
