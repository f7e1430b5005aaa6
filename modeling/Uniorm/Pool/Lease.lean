import Uniorm.Connection.Session
import Uniorm.Pool.Accounting

/-! # Leases and the work done on them

The pool's steps together with what happens on the connections: leases are used
through connections, transactions and orm objects, `release` resets a connection
before it is put back, and maintenance sends heartbeats. Whoever uses a lease and
whatever fails, `acquire` hands out a connection in autocommit mode with nothing
pending, and handing it over commits nothing.
-/
namespace Uniorm.Pool
open Foundation Connection

/-- A call a lease can be used for, with the failures of the backend calls it makes. -/
inductive ApiCall where
  | setAutocommit (enabled : Bool) (f : Option Fault)
  | commit (f : Option Fault)
  | rollback (f : Option Fault)
  | execute (statement : ℕ) (f : Option Fault)
  /-- An orm takes the lease over in its commit mode. -/
  | adopt (autocommit : Bool) (f g : Option Fault)

def ApiCall.run : ApiCall → Call
  | .setAutocommit enabled f => Connection.setAutocommit enabled f
  | .commit f => Connection.commit f
  | .rollback f => Connection.rollback f
  | .execute statement f => Connection.execute (.lease statement) f
  | .adopt autocommit f g => adoptConnection autocommit f g

/-- How a transaction is ended. Its destructor rolls back and swallows the failure. -/
inductive Ending where
  | commit (f g : Option Fault)
  | rollback (f g : Option Fault)
  | destroy (f g : Option Fault)

/-- A pool, the sessions of its connections, the committed work of the server, and the transaction
objects with the handle whose connection they point to. -/
structure World (T H X : Type*) where
  pool : State T H
  session : Conn → Session
  durable : List Work
  tx : X → Option (H × Transaction)

inductive Label (T H X : Type*) where
  | pool (e : Event T H)
  | call (h : H) (a : ApiCall)
  | beginTransaction (x : X) (h : H)
  | endTransaction (x : X) (how : Ending)
  | dropTransaction (x : X)
  | moveTransaction (target source : X)

section
variable {T H X : Type*} [DecidableEq T] [DecidableEq H] [DecidableEq X]

namespace World

def link (s : World T H X) (c : Conn) : Link := ⟨s.session c, s.durable⟩

def setLink (s : World T H X) (c : Conn) (l : Link) : World T H X :=
  { s with session := Function.update s.session c l.session, durable := l.durable }

def setTx (s : World T H X) (x : X) (t : Option (H × Transaction)) : World T H X :=
  { s with tx := Function.update s.tx x t }

end World

/-- The steps of the pool that touch no connection. -/
def Event.plain : Event T H → Bool
  | .opened _ _ _ => false
  | .reset _ _ _ => false
  | .heartbeat _ _ _ => false
  | _ => true

def Ending.run (tr : Transaction) : Ending → Link → Link × Transaction
  | .commit f g => tr.commit f g
  | .rollback f g => tr.rollback f g
  | .destroy f g => tr.rollback f g

def Ending.leaves {H : Type*} (h : H) (tr : Transaction) : Ending → Option (H × Transaction)
  | .destroy _ _ => none
  | _ => some (h, tr)

inductive LeaseStep (size : ℕ) : World T H X → Label T H X → World T H X → Prop where
  | plain (s : World T H X) (e : Event T H) (p : State T H) (hs : Step size s.pool e p)
      (he : e.plain = true) : LeaseStep size s (.pool e) { s with pool := p }
  /-- A new connection is in autocommit mode. -/
  | opened (s : World T H X) (t : T) (h : H) (c : Conn) (p : State T H)
      (hs : Step size s.pool (.opened t h c) p) :
      LeaseStep size s (.pool (.opened t h c))
        { s.setLink c ⟨clean, s.durable⟩ with pool := p }
  /-- A lease comes back and is reset. -/
  | reset (s : World T H X) (t : T) (c : Conn) (f g : Option Fault) (p : State T H)
      (hs : Step size s.pool (.reset t c (resetLease f g (s.link c)).2) p) :
      LeaseStep size s (.pool (.reset t c (resetLease f g (s.link c)).2))
        { s.setLink c (resetLease f g (s.link c)).1 with pool := p }
  | heartbeat (s : World T H X) (t : T) (c : Conn) (f : Option Fault) (p : State T H)
      (hs : Step size s.pool (.heartbeat t c (execute .heartbeat f (s.link c)).2) p) :
      LeaseStep size s (.pool (.heartbeat t c (execute .heartbeat f (s.link c)).2))
        { s.setLink c (execute .heartbeat f (s.link c)).1 with pool := p }
  | call (s : World T H X) (h : H) (c : Conn) (a : ApiCall) (hh : s.pool.handle h = .holds c) :
      LeaseStep size s (.call h a) (s.setLink c (a.run (s.link c)).1)
  | beginTransaction (s : World T H X) (x : X) (h : H) (c : Conn) (f : Option Fault)
      (hx : s.tx x = none) (hh : s.pool.handle h = .holds c) :
      LeaseStep size s (.beginTransaction x h)
        ((s.setLink c (Connection.beginTransaction f (s.link c)).1).setTx x
          ((Connection.beginTransaction f (s.link c)).2.map (h, ·)))
  | endTransaction (s : World T H X) (x : X) (h : H) (tr : Transaction) (c : Conn) (how : Ending)
      (hx : s.tx x = some (h, tr)) (hh : s.pool.handle h = .holds c) :
      LeaseStep size s (.endTransaction x how)
        ((s.setLink c (how.run tr (s.link c)).1).setTx x
          (how.leaves h (how.run tr (s.link c)).2))
  /-- An inactive transaction goes away without touching its connection. -/
  | dropTransaction (s : World T H X) (x : X) (h : H) (tr : Transaction)
      (hx : s.tx x = some (h, tr)) (hinactive : tr.active = false) :
      LeaseStep size s (.dropTransaction x) (s.setTx x none)
  | moveTransaction (s : World T H X) (target source : X) (hne : target ≠ source)
      (hx : s.tx target = none) :
      LeaseStep size s (.moveTransaction target source)
        ((s.setTx target (s.tx source)).setTx source none)

def leaseSystem (size : ℕ) : System (World T H X) (Label T H X) where
  init s := s = ⟨start, fun _ => clean, [], fun _ => none⟩
  step := LeaseStep size

/-- The connections in a thread's hands that go to the next lease as they are. -/
def PC.parked {H : Type*} : PC H → List Conn
  | .returning c true _ => [c]
  | .checking entries => entries
  | .verdict e _ entries => e :: entries
  | _ => []

def Parked (s : State T H) (c : Conn) : Prop := c ∈ s.idle ∨ ∃ t, c ∈ (s.pc t).parked

omit [DecidableEq H] in
theorem Parked.cases_setPC {s s' : State T H} {t : T} {p : PC H} {c : Conn} (h : Parked s' c)
    (hpc' : s'.pc = (s.setPC t p).pc) :
    c ∈ s'.idle ∨ c ∈ p.parked ∨ ∃ i ≠ t, c ∈ (s.pc i).parked := by
  rcases h with hidle | ⟨i, hi⟩
  · exact .inl hidle
  · rw [hpc'] at hi
    by_cases hit : i = t
    · subst hit
      rw [s.setPC_pc_self] at hi
      exact .inr (.inl hi)
    · rw [s.setPC_pc_of_ne hit] at hi
      exact .inr (.inr ⟨i, hit, hi⟩)

omit [DecidableEq H] in
/-- A step after which the parked connections are those it found parked, or one that its thread
had in its hands. -/
theorem Parked.of_setPC {s s' : State T H} {t : T} {p q : PC H} {c : Conn} (h : Parked s' c)
    (hpc : s.pc t = q) (hpc' : s'.pc = (s.setPC t p).pc)
    (hidle : c ∈ s'.idle → c ∈ s.idle ∨ c ∈ q.parked)
    (hp : c ∈ p.parked → c ∈ s.idle ∨ c ∈ q.parked) : Parked s c := by
  have hmine : c ∈ s.idle ∨ c ∈ q.parked → Parked s c := by
    rintro (hc | hc)
    · exact .inl hc
    · exact .inr ⟨t, by rwa [hpc]⟩
  rcases h.cases_setPC hpc' with hc | hc | ⟨i, -, hi⟩
  · exact hmine (hidle hc)
  · exact hmine (hp hc)
  · exact .inr ⟨i, hi⟩

/-- Only a reset that succeeded makes a connection wait for its next lease. -/
theorem parked_step {size : ℕ} {s s' : State T H} {e : Event T H} {c : Conn}
    (hs : Step size s e s') (h : Parked s' c) : Parked s c ∨ ∃ t, e = .reset t c true := by
  have hnone {p : PC H} {P : Prop} (hp : p.parked = []) : c ∈ p.parked → P := by simp [hp]
  cases hs with
  | reset t c' assigns reusable hpc =>
    cases reusable with
    | true =>
      rcases h.cases_setPC rfl with hc | hc | ⟨i, -, hi⟩
      · exact .inl (.inl hc)
      · obtain rfl := List.mem_singleton.mp hc
        exact .inr ⟨t, rfl⟩
      · exact .inl (.inr ⟨i, hi⟩)
    | false => exact .inl (h.of_setPC hpc rfl .inl (hnone rfl))
  | reuse t k rest c' hpc hidle =>
    refine .inl (h.of_setPC (p := .rest) hpc rfl (fun hc => .inl ?_) (hnone rfl))
    rw [hidle]
    exact List.mem_append_left _ hc
  | popExpired t rest c' hpc hidle =>
    refine .inl (h.of_setPC (p := .acqLoop false) hpc rfl (fun hc => .inl ?_) (hnone rfl))
    rw [hidle]
    exact List.mem_append_left _ hc
  | popUnowned t rest c' expired hpc hidle =>
    refine .inl (h.of_setPC (p := .rest) hpc rfl (fun hc => .inl ?_) (hnone rfl))
    rw [hidle]
    exact List.mem_append_left _ hc
  | release t c' reusable assigns hpc =>
    have hafter : (PC.afterRelease assigns).parked = [] := by cases assigns <;> rfl
    refine .inl (h.of_setPC (p := .afterRelease assigns) hpc rfl (fun hc => ?_)
      (hnone hafter))
    cases reusable with
    | true => exact (List.mem_append.mp hc).imp id id
    | false => exact .inl hc
  | takeOut t expired hpc =>
    refine .inl (h.of_setPC hpc rfl (fun hc => ?_) (fun hc => .inl ?_))
    · cases hc
    · exact List.mem_of_mem_filter hc
  | heartbeat t e entries alive hpc =>
    exact .inl (h.of_setPC (p := .verdict e alive entries) hpc rfl .inl .inr)
  | judge t e alive entries hpc =>
    refine .inl (h.of_setPC (p := .checking entries) hpc rfl (fun hc => ?_)
      (fun hc => .inr (List.mem_cons_of_mem e hc)))
    cases alive with
    | true =>
      refine (List.mem_append.mp hc).imp id fun hmem => ?_
      rw [List.mem_singleton.mp hmem]
      exact List.mem_cons_self
    | false => exact .inl hc
  | move => exact .inl h
  | call t hpc => exact .inl (h.of_setPC hpc rfl .inl (hnone rfl))
  | lock t hpc => exact .inl (h.of_setPC (p := .acqLoop true) hpc rfl .inl (hnone rfl))
  | reserve t hpc => exact .inl (h.of_setPC (p := .acqOpening) hpc rfl .inl (hnone rfl))
  | opened t k hpc => exact .inl (h.of_setPC (p := .rest) hpc rfl .inl (hnone rfl))
  | openFails t hpc => exact .inl (h.of_setPC hpc rfl .inl (hnone rfl))
  | undoReserve t hpc => exact .inl (h.of_setPC (p := .rest) hpc rfl .inl (hnone rfl))
  | wait t hpc => exact .inl (h.of_setPC (p := .acqWaiting) hpc rfl .inl (hnone rfl))
  | wake t hpc => exact .inl (h.of_setPC (p := .acqLoop true) hpc rfl .inl (hnone rfl))
  | timeout t hpc => exact .inl (h.of_setPC (p := .rest) hpc rfl .inl (hnone rfl))
  | reserveUnowned t hpc => exact .inl (h.of_setPC (p := .rest) hpc rfl .inl (hnone rfl))
  | waitUnowned t hpc => exact .inl (h.of_setPC (p := .stuck) hpc rfl .inl (hnone rfl))
  | destroy t k c' hpc =>
    exact .inl (h.of_setPC (p := .resetting c' none) hpc rfl .inl (hnone rfl))
  | assign t target source c' hpc =>
    exact .inl (h.of_setPC (p := .resetting c' (some (target, source))) hpc rfl .inl
      (hnone rfl))
  | finishAssign t target source hpc =>
    exact .inl (h.of_setPC (p := .rest) hpc rfl .inl (hnone rfl))
  | beginMaintenance t hpc => exact .inl (h.of_setPC hpc rfl .inl (hnone rfl))
  | endMaintenance t hpc => exact .inl (h.of_setPC hpc rfl .inl (hnone rfl))

theorem PC.mem_held_of_parked {H : Type*} {p : PC H} {c : Conn} (h : c ∈ p.parked) :
    c ∈ p.held := by
  cases p with
  | returning c' reusable assigns =>
    cases reusable with
    | true => exact Multiset.mem_singleton.mpr (List.mem_singleton.mp h)
    | false => cases h
  | checking entries => exact Multiset.mem_coe.mpr h
  | verdict e alive entries =>
    exact Multiset.mem_cons.mpr ((List.mem_cons.mp h).imp id Multiset.mem_coe.mpr)
  | _ => cases h

variable [Fintype T] [Fintype H]

omit [DecidableEq T] [DecidableEq H] in
theorem Apart.not_parked_of_handle {s : State T H} (ha : Apart s) {k : H} {c : Conn}
    (hk : s.handle k = .holds c) : ¬ Parked s c := by
  have hmem : c ∈ ∑ k, (s.handle k).held :=
    Multiset.mem_sum.mpr ⟨k, Finset.mem_univ k, by simp [hk, Handle.held]⟩
  have hdisjoint := (Multiset.nodup_add.mp ha.nodup).2.2
  rintro (hidle | ⟨t, ht⟩)
  · exact Multiset.disjoint_left.mp hdisjoint
      (Multiset.mem_add.mpr (.inl (Multiset.mem_coe.mpr hidle))) hmem
  · refine Multiset.disjoint_left.mp hdisjoint (Multiset.mem_add.mpr (.inr ?_)) hmem
    exact Multiset.mem_sum.mpr ⟨t, Finset.mem_univ t, PC.mem_held_of_parked ht⟩

omit [DecidableEq H] in
theorem Apart.not_parked_of_resetting {s : State T H} (ha : Apart s) {t : T} {c : Conn}
    {assigns : Option (H × H)} (ht : s.pc t = .resetting c assigns) : ¬ Parked s c := by
  have hthreads := (Multiset.nodup_add.mp (Multiset.nodup_add.mp ha.nodup).1).2
  have hmem : c ∈ (s.pc t).held := by simp [ht, PC.held]
  rintro (hidle | ⟨i, hi⟩)
  · exact Multiset.disjoint_left.mp hthreads.2 (Multiset.mem_coe.mpr hidle)
      (Multiset.mem_sum.mpr ⟨t, Finset.mem_univ t, hmem⟩)
  · have hne : i ≠ t := by
      rintro rfl
      rw [ht] at hi
      cases hi
    have hsplit := hthreads.1
    rw [← Finset.add_sum_erase Finset.univ _ (Finset.mem_univ t)] at hsplit
    refine Multiset.disjoint_left.mp (Multiset.nodup_add.mp hsplit).2.2 hmem ?_
    exact Multiset.mem_sum.mpr ⟨i, Finset.mem_erase.mpr ⟨hne, Finset.mem_univ i⟩,
      PC.mem_held_of_parked hi⟩

omit [DecidableEq T] [DecidableEq H] [DecidableEq X] in
/-- Sessions are sound, and a connection that waits for its next lease is in autocommit mode. -/
structure Ready (s : World T H X) : Prop where
  apart : Apart s.pool
  sound : ∀ c, Sound (s.session c)
  parked : ∀ c, Parked s.pool c → (s.session c).autocommit = true

omit [DecidableEq T] [DecidableEq H] [DecidableEq X] [Fintype T] [Fintype H] in
theorem sound_setLink {s : World T H X} (h : ∀ c, Sound (s.session c)) {c : Conn} {l : Link}
    (hl : Sound l.session) (i : Conn) : Sound ((s.setLink c l).session i) := by
  by_cases hic : i = c
  · subst hic
    simpa [World.setLink] using hl
  · simpa [World.setLink, Function.update_of_ne hic] using h i

omit [DecidableEq T] [DecidableEq H] [DecidableEq X] in
/-- A call on a connection that is leased. -/
theorem Ready.setLink {s : World T H X} (h : Ready s) {c : Conn} {l : Link}
    (hc : ¬ Parked s.pool c) (hl : Sound l.session) : Ready (s.setLink c l) := by
  refine ⟨h.apart, sound_setLink h.sound hl, fun i hi => ?_⟩
  have hic : i ≠ c := by
    rintro rfl
    exact hc hi
  simpa [World.setLink, Function.update_of_ne hic] using h.parked i hi

omit [DecidableEq X] in
theorem Ready.poolStep {size : ℕ} {s : World T H X} (h : Ready s) {e : Event T H}
    {p : State T H} (hs : Step size s.pool e p) {c : Conn} {l : Link} (hl : Sound l.session)
    (hc : Parked p c → l.session = clean) (hreset : ∀ t i, e = .reset t i true → i = c) :
    Ready { s.setLink c l with pool := p } := by
  refine ⟨h.apart.step hs, sound_setLink h.sound hl, fun i hi => ?_⟩
  by_cases hic : i = c
  · subst hic
    simp [World.setLink, hc hi, clean]
  · rcases parked_step hs hi with hbefore | ⟨t, ht⟩
    · simpa [World.setLink, Function.update_of_ne hic] using h.parked i hbefore
    · exact absurd (hreset t i ht) hic

omit [DecidableEq X] in
theorem Ready.clean_of_heartbeat {size : ℕ} {s : World T H X} (h : Ready s) {t : T} {c : Conn}
    {alive : Bool} {p : State T H} (hs : Step size s.pool (.heartbeat t c alive) p) :
    s.session c = clean := by
  refine (h.sound c).eq_clean (h.parked c (.inr ⟨t, ?_⟩))
  cases hs with
  | heartbeat _ _ entries _ hpc =>
    rw [hpc]
    exact List.mem_cons_self

theorem Ready.step {size : ℕ} {s s' : World T H X} {a : Label T H X} (h : Ready s)
    (hs : LeaseStep size s a s') : Ready s' := by
  cases hs with
  | plain e p hp he =>
    refine ⟨h.apart.step hp, h.sound, fun c hc => ?_⟩
    rcases parked_step hp hc with hbefore | ⟨t, rfl⟩
    · exact h.parked c hbefore
    · cases he
  | opened t k c p hp =>
    exact h.poolStep hp sound_clean (fun _ => rfl) fun _ _ he => by cases he
  | reset t c f g p hp =>
    have hspec := resetLease_spec f g (l := s.link c) (h.sound c)
    refine h.poolStep hp hspec.1 (fun hc => hspec.2.2 ?_) fun _ _ he => ?_
    · rcases parked_step hp hc with hbefore | ⟨i, hi⟩
      · cases hp with
        | reset _ _ assigns _ hpc => exact absurd hbefore (h.apart.not_parked_of_resetting hpc)
      · injection hi
    · injection he with _ hcc
      exact hcc.symm
  | heartbeat t c f p hp =>
    have hspec := execute_clean .heartbeat f (l := s.link c) (h.clean_of_heartbeat hp)
    refine h.poolStep hp ?_ (fun _ => hspec.1) fun _ _ he => by cases he
    rw [hspec.1]
    exact sound_clean
  | call k c a hk =>
    refine h.setLink (h.apart.not_parked_of_handle hk) ?_
    cases a with
    | setAutocommit enabled f => exact keeps_setAutocommit enabled f _ (h.sound c)
    | commit f => exact keeps_commit f _ (h.sound c)
    | rollback f => exact keeps_rollback f _ (h.sound c)
    | execute statement f => exact keeps_execute _ f _ (h.sound c)
    | adopt autocommit f g => exact keeps_adoptConnection autocommit f g _ (h.sound c)
  | beginTransaction x k c f hx hk =>
    have hset := h.setLink (h.apart.not_parked_of_handle hk)
      (sound_beginTransaction f (l := s.link c) (h.sound c))
    exact ⟨hset.apart, hset.sound, hset.parked⟩
  | endTransaction x k tr c how hx hk =>
    have hsound : Sound (how.run tr (s.link c)).1.session := by
      cases how with
      | commit f g => exact tr.sound_finish (keeps_commit f) g (h.sound c)
      | rollback f g => exact tr.sound_finish (keeps_rollback f) g (h.sound c)
      | destroy f g => exact tr.sound_finish (keeps_rollback f) g (h.sound c)
    have hset := h.setLink (h.apart.not_parked_of_handle hk) hsound
    exact ⟨hset.apart, hset.sound, hset.parked⟩
  | dropTransaction => exact ⟨h.apart, h.sound, h.parked⟩
  | moveTransaction => exact ⟨h.apart, h.sound, h.parked⟩

theorem ready_of_reachable {size : ℕ} {s : World T H X} (h : (leaseSystem size).Reachable s) :
    Ready s := by
  refine h.invariant (I := Ready) ?_ fun s a s' _ hready _ hs => hready.step hs
  rintro s rfl
  refine ⟨apart_start, fun _ => sound_clean, fun c hc => rfl⟩

def leaseWork (durable : List Work) : List Work := durable.filter (· ≠ .heartbeat)

/-- Whatever was done on earlier leases, `acquire` returns a connection in autocommit mode on both
sides with nothing pending, and no step of the pool commits a lease's work. -/
theorem acquire_returns_clean_connections (size : ℕ) {s s' : World T H X} {a : Label T H X}
    (h : (leaseSystem size).Reachable s) (hs : LeaseStep size s a s') :
    (∀ t k c, a = .pool (.reuse t k c) ∨ a = .pool (.opened t k c) →
      s'.pool.handle k = .holds c ∧ s'.session c = clean) ∧
    (∀ e, a = .pool e → leaseWork s'.durable = leaseWork s.durable) := by
  have hready := ready_of_reachable h
  have hready' := hready.step hs
  constructor
  · rintro t k c (rfl | rfl)
    · cases hs with
      | plain _ p hp =>
        cases hp with
        | reuse _ _ rest _ hpc hidle =>
          refine ⟨Function.update_self _ _ _, (hready.sound c).eq_clean (hready.parked c (.inl ?_))⟩
          rw [hidle]
          exact List.mem_append_right _ (List.mem_singleton.mpr rfl)
    · cases hs with
      | plain _ p hp he => cases he
      | opened _ _ _ p hp =>
        cases hp with
        | opened => exact ⟨Function.update_self _ _ _, Function.update_self _ _ _⟩
  · rintro e rfl
    cases hs with
    | plain => rfl
    | opened => rfl
    | reset t c f g p hp =>
      exact congrArg leaseWork (resetLease_spec f g (l := s.link c) (hready.sound c)).2.1
    | heartbeat t c f p hp =>
      rcases (execute_clean .heartbeat f (l := s.link c) (hready.clean_of_heartbeat hp)).2 with
        hsame | hmore
      · exact congrArg leaseWork hsame
      · refine (congrArg leaseWork hmore).trans ?_
        rw [leaseWork, List.filter_append]
        exact List.append_nil _

end

/-- A lease is given up in manual mode with work pending; the next one finds the connection clean,
and the work is lost. -/
theorem dirty_lease_comes_back_clean : ∃ s s' : World Unit Unit Unit,
    (leaseSystem 1).Reachable s ∧ LeaseStep 1 s (.pool (.reuse () () 0)) s' ∧
      s'.session 0 = clean ∧ leaseWork s'.durable = [] := by
  have hstart : (leaseSystem 1).Reachable
      (⟨start, fun _ => clean, [], fun _ => none⟩ : World Unit Unit Unit) := .start rfl
  have hleased := (((hstart.andThen (.plain _ _ _ (.call _ () rfl) rfl) trivial).andThen
    (.plain _ _ _ (.lock _ () rfl rfl) rfl) trivial).andThen
    (.plain _ _ _ (.reserve _ () rfl rfl (by decide)) rfl) trivial).andThen
    (.opened _ () () 0 _ (.opened _ () () rfl rfl)) trivial
  have hdirty := (hleased.andThen (.call _ () 0 (.setAutocommit false none) rfl) trivial).andThen
    (.call _ () 0 (.execute 7 none) rfl) trivial
  have hreturned := ((hdirty.andThen (.plain _ _ _ (.destroy _ () () 0 rfl rfl) rfl) trivial).andThen
    (.reset _ () 0 none none _ (.reset _ () 0 none true rfl)) trivial).andThen
    (.plain _ _ _ (.release _ () 0 true none rfl rfl) rfl) trivial
  have hagain := (hreturned.andThen (.plain _ _ _ (.call _ () rfl) rfl) trivial).andThen
    (.plain _ _ _ (.lock _ () rfl rfl) rfl) trivial
  obtain ⟨s, hreach, hpc, hidle, hhandle, hdurable⟩ : ∃ s : World Unit Unit Unit,
      (leaseSystem 1).Reachable s ∧ s.pool.pc () = .acqLoop true ∧ s.pool.idle = [] ++ [0] ∧
      s.pool.handle () = .empty ∧ leaseWork s.durable = [] := ⟨_, hagain, rfl, rfl, rfl, rfl⟩
  have hpopped : Step 1 s.pool (.reuse () () 0) _ := .reuse _ () () [] 0 hpc hidle hhandle
  have hreuse := LeaseStep.plain s _ _ hpopped rfl
  have hclean := acquire_returns_clean_connections 1 hreach hreuse
  exact ⟨s, _, hreach, hreuse, (hclean.1 () () 0 (.inl rfl)).2, (hclean.2 _ rfl).trans hdurable⟩

end Uniorm.Pool
