import Uniorm.Pool.Accounting

/-! # Calls whose deadline has passed

A call of `acquire` that waited too long has the mutex again and looks at the idle entries only. The
slots are counted by the steps of the run: those that were reserved, and those that were given back
by an expired entry, a failed open, a retired release, an eviction or a dead heartbeat. A slot that
was given back while the call waited is not seen.
-/
namespace Uniorm.Pool
open Foundation

section
variable {T H : Type*}

def Event.reserves : Event T H → ℕ
  | .reserve _ => 1
  | .reserveUnowned _ => 1
  | _ => 0

def Event.givesBack : Event T H → ℕ
  | .popExpired _ _ => 1
  | .popUnowned _ _ expired => expired.toNat
  | .undoReserve _ => 1
  | .release _ _ reusable => (!reusable).toNat
  | .takeOut _ evicted => evicted.length
  | .judge _ _ alive => (!alive).toNat
  | _ => 0

variable [DecidableEq T] [DecidableEq H]

/-- The runs of a pool from its start, each with its steps, the last one first. -/
inductive Run (size : ℕ) : List (Event T H) → State T H → Prop where
  | start : Run size [] start
  | next {es : List (Event T H)} {s s' : State T H} {e : Event T H} (h : Run size es s)
      (hs : Step size s e s') : Run size (e :: es) s'

variable [Fintype T] [Fintype H]

omit [DecidableEq T] [DecidableEq H] in
/-- Every connection and every open in progress has a slot. -/
def Backed (s : State T H) : Prop := Multiset.card (places s) + ∑ t, (s.pc t).opens ≤ s.created

omit [DecidableEq T] [DecidableEq H] in
theorem backed_start : Backed (start : State T H) := by
  rw [Backed, places_start]
  simp [start, PC.opens]

omit [DecidableEq H] in
/-- A step of one thread that counts nothing, and closes a connection at most. -/
theorem Backed.moved {s s' : State T H} (h : Backed s) {t : T} {p q : PC H} {closed : ℕ}
    (hpc : s.pc t = q) (hpc' : s'.pc = (s.setPC t p).pc)
    (hcard : Multiset.card (places s') + closed = Multiset.card (places s))
    (hcreated : s'.created = s.created) (hopens : p.opens = q.opens) :
    s'.created + 0 = s.created + 0 ∧ Backed s' := by
  refine ⟨congrArg (· + 0) hcreated, ?_⟩
  rw [Backed] at h ⊢
  rw [hcreated, hpc', sum_setPC_eq PC.opens hpc hopens]
  omega

omit [DecidableEq H] in
/-- A step that gives the slot of a connection back. -/
theorem Backed.closeOne {s s' : State T H} (h : Backed s) {t : T} {p q : PC H}
    (hpc : s.pc t = q) (hpc' : s'.pc = (s.setPC t p).pc)
    (hcard : Multiset.card (places s') + 1 = Multiset.card (places s))
    (hcreated : s'.created = decr s.created) (hopens : p.opens = q.opens) :
    s'.created + 1 = s.created + 0 ∧ Backed s' := by
  rw [Backed] at h ⊢
  rw [decr_of_pos (by omega)] at hcreated
  rw [hcreated, hpc', sum_setPC_eq PC.opens hpc hopens]
  omega

/-- What a step does to the count of the slots. -/
theorem Backed.step {size : ℕ} {s s' : State T H} {e : Event T H} (h : Backed s)
    (hs : Step size s e s') : s'.created + e.givesBack = s.created + e.reserves ∧ Backed s' := by
  have hcard := congrArg Multiset.card (places_step hs)
  rw [Multiset.card_add, Multiset.card_add] at hcard
  have hback := h
  rw [Backed] at hback
  cases hs with
  | popExpired t rest c hpc => exact h.closeOne (p := .acqLoop false) hpc rfl hcard rfl rfl
  | popUnowned t rest c expired hpc =>
    cases expired with
    | true => exact h.closeOne (p := .rest) hpc rfl hcard rfl rfl
    | false => exact h.moved (p := .rest) hpc rfl hcard rfl rfl
  | reserve t hpc =>
    have hopens := sum_setPC PC.opens s t .acqOpening (a := 0) (b := 1) (congrArg PC.opens hpc) rfl
    refine ⟨rfl, ?_⟩
    change _ + ∑ i, ((s.setPC t .acqOpening).pc i).opens ≤ s.created + 1
    exact (Nat.add_le_add (le_of_eq hcard) (le_of_eq hopens)).trans (Nat.succ_le_succ hback)
  | reserveUnowned t hpc =>
    have hopens := sum_setPC_eq PC.opens (p := .rest) hpc rfl
    refine ⟨rfl, ?_⟩
    change _ + ∑ i, ((s.setPC t .rest).pc i).opens ≤ s.created + 1
    rw [hopens]
    exact ((Nat.add_le_add_right (le_of_eq hcard) _).trans hback).trans (Nat.le_succ _)
  | opened t k hpc =>
    have hopens := sum_setPC PC.opens s t .rest (a := 1) (b := 0) (congrArg PC.opens hpc) rfl
    refine ⟨rfl, ?_⟩
    change _ + ∑ i, ((s.setPC t .rest).pc i).opens ≤ s.created
    have hone : Multiset.card (Event.opened (T := T) t k s.opened).opens = 1 := rfl
    have hnone : Multiset.card (Event.opened (T := T) t k s.opened).closes = 0 := rfl
    omega
  | undoReserve t hpc =>
    have hopens := sum_setPC PC.opens s t .rest (a := 1) (b := 0) (congrArg PC.opens hpc) rfl
    have hdecr : decr s.created = s.created - 1 := decr_of_pos (by omega)
    constructor
    · change decr s.created + 1 = s.created + 0
      omega
    · have hle : _ ≤ Multiset.card (places s) := Nat.le.intro hcard
      refine le_trans (Nat.add_le_add_right hle _) (le_trans ?_ hdecr.ge)
      change _ + ∑ i, ((s.setPC t .rest).pc i).opens ≤ _
      omega
  | release t c reusable assigns hpc =>
    have hnone : (PC.afterRelease assigns).opens = 0 := by
      cases assigns <;> rfl
    cases reusable with
    | true => exact h.moved (p := .afterRelease assigns) hpc rfl hcard rfl hnone
    | false => exact h.closeOne (p := .afterRelease assigns) hpc rfl hcard rfl hnone
  | takeOut t expired hpc =>
    have hopens := sum_setPC_eq PC.opens
      (p := .checking (s.idle.filter fun c => !expired c)) hpc rfl
    have hle : (s.idle.filter expired).length ≤ s.created := by
      have hclosed : Multiset.card (Event.takeOut (H := H) t (s.idle.filter expired)).closes =
        (s.idle.filter expired).length := rfl
      have hnone : Multiset.card (Event.takeOut (H := H) t (s.idle.filter expired)).opens = 0 := rfl
      omega
    have hdecr := iterate_decr hle
    have hplaces : _ = Multiset.card (places s) - (s.idle.filter expired).length :=
      Nat.eq_sub_of_add_eq hcard
    constructor
    · change decr^[(s.idle.filter expired).length] s.created + _ = s.created + 0
      rw [hdecr]
      exact Nat.sub_add_cancel hle
    · refine le_trans (Nat.add_le_add (le_of_eq hplaces) (le_of_eq hopens))
        (le_trans ?_ hdecr.ge)
      have hclosed : (s.idle.filter expired).length ≤ Multiset.card (places s) :=
        Nat.le.intro ((Nat.add_comm _ _).trans hcard)
      omega
  | judge t c alive entries hpc =>
    cases alive with
    | true => exact h.moved (p := .checking entries) hpc rfl hcard rfl rfl
    | false => exact h.closeOne (p := .checking entries) hpc rfl hcard rfl rfl
  | reuse t k rest c hpc => exact h.moved (p := .rest) hpc rfl hcard rfl rfl
  | lock t hpc => exact h.moved (p := .acqLoop true) hpc rfl hcard rfl rfl
  | wait t hpc => exact h.moved (p := .acqWaiting) hpc rfl hcard rfl rfl
  | waitUnowned t hpc => exact h.moved (p := .stuck) hpc rfl hcard rfl rfl
  | wake t hpc => exact h.moved (p := .acqLoop true) hpc rfl hcard rfl rfl
  | timeout t hpc => exact h.moved (p := .rest) hpc rfl hcard rfl rfl
  | finishAssign t target source hpc => exact h.moved (p := .rest) hpc rfl hcard rfl rfl
  | destroy t k c hpc => exact h.moved (p := .resetting c none) hpc rfl hcard rfl rfl
  | assign t target source c hpc =>
    exact h.moved (p := .resetting c (some (target, source))) hpc rfl hcard rfl rfl
  | call t hpc => exact h.moved (p := .acqEnter) hpc rfl hcard rfl rfl
  | openFails t hpc => exact h.moved (p := .acqOpenFailed) hpc rfl hcard rfl rfl
  | reset t c assigns reusable hpc =>
    exact h.moved (p := .returning c reusable assigns) hpc rfl hcard rfl rfl
  | beginMaintenance t hpc => exact h.moved (p := .maintEnter) hpc rfl hcard rfl rfl
  | heartbeat t e entries alive hpc =>
    exact h.moved (p := .verdict e alive entries) hpc rfl hcard rfl rfl
  | endMaintenance t hpc => exact h.moved (p := .rest) hpc rfl hcard rfl rfl
  | move => exact ⟨rfl, (le_of_eq (congrArg (· + _) hcard)).trans hback⟩

/-- What `created` says is what was reserved and not given back. -/
theorem Run.created {size : ℕ} {es : List (Event T H)} {s : State T H} (h : Run size es s) :
    s.created + (es.map Event.givesBack).sum = (es.map Event.reserves).sum ∧ Backed s := by
  induction h with
  | start => exact ⟨rfl, backed_start⟩
  | next _ hs ih =>
    obtain ⟨hcount, hbacked⟩ := ih.2.step hs
    refine ⟨?_, hbacked⟩
    have hsum := ih.1
    simp only [List.map_cons, List.sum_cons]
    omega

def Event.Takes (t : T) : Event T H → Prop
  | .reuse i _ _ => i = t
  | .popExpired i _ => i = t
  | .reserve i => i = t
  | _ => False

omit [Fintype T] [Fintype H] in
/-- What is meant to happen to a waiting call that has the mutex again after its deadline: it throws
only when no entry is idle and no slot is free, and goes on to take what there is. -/
structure MeetsDeadline (size : ℕ) (s : State T H) (t : T) : Prop where
  throws : ∀ s', Step size s (.timeout t) s' → s.idle = [] ∧ size ≤ s.created
  takes : s.idle ≠ [] ∨ s.created < size → (∀ s', ¬ Step size s (.timeout t) s') ∧
    ∀ s', Step size s (.wake t) s' → s'.mutex = some t ∧
      ∀ e s'', Step size s' e s'' → s''.pc t ≠ s'.pc t → e.Takes t

omit [Fintype T] [Fintype H] in
theorem timeout_idle {size : ℕ} {s s' : State T H} {t : T} (h : Step size s (.timeout t) s') :
    s.idle = [] := by
  cases h with
  | timeout _ _ _ hidle => exact hidle

omit [Fintype T] [Fintype H] in
theorem takes_of_available {size : ℕ} {s s' : State T H} {t : T} {e : Event T H}
    (hpc : s.pc t = .acqLoop true) (havailable : s.idle ≠ [] ∨ s.created < size)
    (hs : Step size s e s') (hmoved : s'.pc t ≠ s.pc t) : e.Takes t := by
  have hother {i : T} {p : PC H} (h : t ≠ i) : Function.update s.pc i p t = s.pc t :=
    Function.update_of_ne h p s.pc
  have hstill {i : T} {p q : PC H} (hi : s.pc i = q) (hq : q ≠ .acqLoop true) :
      Function.update s.pc i p t = s.pc t := by
    apply hother
    rintro rfl
    exact hq (hi.symm.trans hpc)
  cases hs with
  | reuse i => exact not_not.mp fun h => hmoved (hother (Ne.symm h))
  | popExpired i => exact not_not.mp fun h => hmoved (hother (Ne.symm h))
  | reserve i => exact not_not.mp fun h => hmoved (hother (Ne.symm h))
  | wait i _ hidle hfull =>
    rcases havailable with hentry | hroom
    · exact absurd hidle hentry
    · exact absurd hroom hfull
  | move => exact absurd rfl hmoved
  | call i hi => exact absurd (hstill hi (by simp)) hmoved
  | lock i hi => exact absurd (hstill hi (by simp)) hmoved
  | opened i _ hi => exact absurd (hstill hi (by simp)) hmoved
  | openFails i hi => exact absurd (hstill hi (by simp)) hmoved
  | undoReserve i hi => exact absurd (hstill hi (by simp)) hmoved
  | wake i hi => exact absurd (hstill hi (by simp)) hmoved
  | timeout i hi => exact absurd (hstill hi (by simp)) hmoved
  | popUnowned i _ _ _ hi => exact absurd (hstill hi (by simp)) hmoved
  | reserveUnowned i hi => exact absurd (hstill hi (by simp)) hmoved
  | waitUnowned i hi => exact absurd (hstill hi (by simp)) hmoved
  | destroy i _ _ hi => exact absurd (hstill hi (by simp)) hmoved
  | assign i _ _ _ hi => exact absurd (hstill hi (by simp)) hmoved
  | reset i _ _ _ hi => exact absurd (hstill hi (by simp)) hmoved
  | release i _ _ _ hi => exact absurd (hstill hi (by simp)) hmoved
  | finishAssign i _ _ hi => exact absurd (hstill hi (by simp)) hmoved
  | beginMaintenance i hi => exact absurd (hstill hi (by simp)) hmoved
  | takeOut i _ hi => exact absurd (hstill hi (by simp)) hmoved
  | heartbeat i _ _ _ hi => exact absurd (hstill hi (by simp)) hmoved
  | judge i _ _ _ hi => exact absurd (hstill hi (by simp)) hmoved
  | endMaintenance i hi => exact absurd (hstill hi (by simp)) hmoved

/-- A waiting call whose deadline has passed does what it is meant to do exactly if an entry is
idle, or the slots that were reserved in the run exceed those that were given back by `size`. -/
theorem pool_timeout_iff (size : ℕ) {es : List (Event T H)} {s : State T H} (h : Run size es s)
    {t : T} (hpc : s.pc t = .acqWaiting) (hfree : s.mutex = none) :
    MeetsDeadline size s t ↔
      s.idle ≠ [] ∨ size + (es.map Event.givesBack).sum ≤ (es.map Event.reserves).sum := by
  have hcreated := h.created.1
  have hcount : size + (es.map Event.givesBack).sum ≤ (es.map Event.reserves).sum ↔
      size ≤ s.created := by omega
  rw [hcount]
  constructor
  · intro hmeets
    by_cases hidle : s.idle = []
    · exact .inr (hmeets.throws _ (.timeout s t hpc hfree hidle)).2
    · exact .inl hidle
  · intro hcond
    constructor
    · intro s' hs
      have hidle := timeout_idle hs
      exact ⟨hidle, hcond.resolve_left fun hne => hne hidle⟩
    · intro havailable
      have hentry : s.idle ≠ [] := havailable.elim id fun hroom =>
        hcond.resolve_right (Nat.not_le_of_lt hroom)
      refine ⟨fun s' hs => hentry (timeout_idle hs), ?_⟩
      intro s' hs
      cases hs with
      | wake =>
        refine ⟨rfl, fun e s'' hnext hmoved => ?_⟩
        exact takes_of_available (s := { s.setPC t (.acqLoop true) with mutex := some t })
          (Function.update_self ..) (.inl hentry) hnext hmoved

end

/-- One thread has the only connection of the pool; another one waits for it. -/
theorem exists_waiting : ∃ s : State Bool Unit, Run 1 [.wait false, .lock false, .call false,
    .opened true () 0, .reserve true, .lock true, .call true] s ∧ s.idle = [] ∧ s.created = 1 ∧
    s.mutex = none ∧ s.pc false = .acqWaiting ∧ s.pc true = .rest ∧ s.handle () = .holds 0 := by
  have hleased := ((((@Run.start Bool Unit _ _ 1).next
    (.call _ true rfl)).next (.lock _ true rfl rfl)).next (.reserve _ true rfl rfl
      (by decide))).next (.opened _ true () rfl rfl)
  have hwaits := ((hleased.next (.call _ false rfl)).next (.lock _ false rfl rfl)).next
    (.wait _ false rfl rfl (by decide))
  exact ⟨_, hwaits, rfl, rfl, rfl, rfl, rfl, rfl⟩

/-- The deadline passes while the connection is leased. -/
theorem deadline_while_leased : ∃ s : State Bool Unit, s.created = 1 ∧
    (MeetsDeadline 1 s false ↔ s.idle ≠ [] ∨ 1 + 0 ≤ 1) := by
  obtain ⟨s, hrun, -, hcreated, hfree, hpc, -⟩ := exists_waiting
  exact ⟨s, hcreated, pool_timeout_iff 1 hrun hpc hfree⟩

/-- The connection was given back but could not be reset, and the call throws although the slot is
free. -/
theorem deadline_after_retired : ∃ (es : List (Event Bool Unit)) (s : State Bool Unit),
    Run 1 es s ∧ s.pc false = .acqWaiting ∧ s.mutex = none ∧ s.idle = [] ∧ s.created = 0 ∧
      ¬ MeetsDeadline 1 s false := by
  obtain ⟨s, hrun, hidle, hcreated, hfree, hwaits, hpc, hh⟩ := exists_waiting
  have hretired := ((hrun.next (.destroy s true () 0 hpc hh)).next
    (.reset _ true 0 none false rfl)).next (.release _ true 0 false none rfl hfree)
  have hnone : decr s.created = 0 := by
    rw [hcreated]
    decide
  refine ⟨_, _, hretired, hwaits, hfree, hidle, hnone, fun hmeets => ?_⟩
  have hthrows := hmeets.throws _ (.timeout _ false hwaits hfree hidle)
  have hfull : 1 ≤ decr s.created := hthrows.2
  rw [hnone] at hfull
  exact absurd hfull (by decide)

end Uniorm.Pool
