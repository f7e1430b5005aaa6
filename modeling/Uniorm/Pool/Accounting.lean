import Mathlib.Data.Multiset.Filter
import Uniorm.Pool.Machine

/-! # The accounts of the pool

Every connection the pool has opened and not closed is in exactly one place: idle,
taken out by maintenance, leased, or on its way back. Together with the opens in
progress these places are what `created` counts. The books are kept by every step
except two: an `acquire` that takes an expired entry goes on without its lock, and a
maintenance pass that starts while another has entries out overwrites
`under_maintenance`.
-/
namespace Uniorm.Pool
open Foundation

section
variable {T H : Type*}

def PC.held : PC H → Multiset Conn
  | .resetting c _ => {c}
  | .returning c _ _ => {c}
  | .checking entries => entries
  | .verdict e _ entries => e ::ₘ (entries : Multiset Conn)
  | _ => 0

def PC.opens : PC H → ℕ
  | .acqOpening => 1
  | .acqOpenFailed => 1
  | _ => 0

/-- The entries a maintenance pass has taken out and not yet judged. -/
def PC.out : PC H → ℕ
  | .checking entries => entries.length
  | .verdict _ _ entries => entries.length + 1
  | _ => 0

/-- The leases that are on their way back. -/
def PC.returns : PC H → ℕ
  | .resetting _ _ => 1
  | .returning _ _ _ => 1
  | _ => 0

def Handle.held : Handle → Multiset Conn
  | .holds c => {c}
  | _ => 0

def Handle.leases : Handle → ℕ
  | .holds _ => 1
  | _ => 0

theorem PC.card_held (p : PC H) : Multiset.card p.held = p.out + p.returns := by
  cases p <;> simp [PC.held, PC.out, PC.returns]

theorem Handle.card_held (x : Handle) : Multiset.card x.held = x.leases := by
  cases x <;> simp [Handle.held, Handle.leases]

section Mutex
variable [DecidableEq T] [DecidableEq H]

/-- Every thread at the head of the loop of `acquire` holds the mutex. -/
def Locked (s : State T H) : Prop :=
  ∀ t owns, s.pc t = .acqLoop owns → owns = true ∧ s.mutex = some t

/-- Nothing was touched without the mutex, and `acquire` ended only in its three ways. -/
structure Proper (s : State T H) : Prop where
  quiet : s.raced = false
  ended : ∀ o ∈ s.ended, o = .lease ∨ o = .openError ∨ o = .poolTimeout

/-- The steps under which the books are kept: `acquire` takes no expired entry, and a maintenance
pass starts only when no other one has entries out. -/
def Orderly (s : State T H) : Event T H → Prop
  | .popExpired _ _ => False
  | .takeOut _ _ => ∀ t, (s.pc t).out = 0
  | _ => True

omit [DecidableEq H] in
theorem Locked.setPC {s : State T H} (h : Locked s) {t : T} {p : PC H}
    (hp : ∀ owns, p ≠ .acqLoop owns) : Locked (s.setPC t p) := by
  intro i owns hi
  by_cases hit : i = t
  · subst hit
    rw [s.setPC_pc_self] at hi
    exact absurd hi (hp owns)
  · rw [s.setPC_pc_of_ne hit] at hi
    exact h i owns hi

omit [DecidableEq H] in
/-- A thread that was at the loop and left it may drop the mutex. -/
theorem Locked.leave {s : State T H} (h : Locked s) {t : T} {owns : Bool} {p : PC H}
    (ht : s.pc t = .acqLoop owns) (hp : ∀ owns, p ≠ .acqLoop owns) :
    Locked { s.setPC t p with mutex := none } := by
  intro i owns' hi
  by_cases hit : i = t
  · subst hit
    simp only [State.setPC, Function.update_self] at hi
    exact absurd hi (hp owns')
  · simp only [State.setPC, Function.update_of_ne hit] at hi
    have hmine := (h t owns ht).2
    have htheirs := (h i owns' hi).2
    exact absurd (Option.some.inj (htheirs.symm.trans hmine)) hit

omit [DecidableEq H] in
/-- A free mutex may be taken on the way to the loop. -/
theorem Locked.enter {s : State T H} (h : Locked s) {t : T} (hfree : s.mutex = none) :
    Locked { s.setPC t (.acqLoop true) with mutex := some t } := by
  intro i owns hi
  by_cases hit : i = t
  · subst hit
    simp only [State.setPC, Function.update_self, PC.acqLoop.injEq] at hi
    exact ⟨hi.symm, rfl⟩
  · simp only [State.setPC, Function.update_of_ne hit] at hi
    have htheirs := (h i owns hi).2
    rw [hfree] at htheirs
    cases htheirs

omit [DecidableEq T] [DecidableEq H] in
theorem Locked.congr {s s' : State T H} (h : Locked s) (hpc : s'.pc = s.pc)
    (hmutex : s'.mutex = s.mutex) : Locked s' := by
  intro t owns ht
  rw [hmutex]
  exact h t owns (by rwa [← hpc])

omit [DecidableEq H] in
theorem afterRelease_ne_acqLoop (assigns : Option (H × H)) (owns : Bool) :
    PC.afterRelease assigns ≠ .acqLoop owns := by
  rcases assigns with _ | ⟨target, source⟩ <;> simp [PC.afterRelease]

theorem Locked.step {size : ℕ} {s s' : State T H} {e : Event T H} (h : Locked s)
    (hok : Orderly s e) (hs : Step size s e s') : Locked s' := by
  cases hs with
  | lock t _ hfree => exact h.enter hfree
  | wake t _ hfree => exact h.enter hfree
  | reuse t k rest c hpc => exact (h.leave hpc (p := .rest) (by simp)).congr rfl rfl
  | popExpired => exact absurd hok id
  | reserve t hpc => exact (h.leave hpc (p := .acqOpening) (by simp)).congr rfl rfl
  | wait t hpc => exact h.leave hpc (by simp)
  | popUnowned t rest c expired hpc => exact absurd (h t false hpc).1 (by decide)
  | reserveUnowned t hpc => exact absurd (h t false hpc).1 (by decide)
  | waitUnowned t hpc => exact absurd (h t false hpc).1 (by decide)
  | move => exact h.congr rfl rfl
  | release t c reusable assigns =>
    exact (h.setPC (t := t) (afterRelease_ne_acqLoop assigns)).congr rfl rfl
  | call t => exact h.setPC (by simp)
  | opened t => exact (h.setPC (t := t) (p := .rest) (by simp)).congr rfl rfl
  | openFails t => exact h.setPC (by simp)
  | undoReserve t => exact (h.setPC (t := t) (p := .rest) (by simp)).congr rfl rfl
  | timeout t => exact (h.setPC (t := t) (p := .rest) (by simp)).congr rfl rfl
  | destroy t k c => exact (h.setPC (t := t) (p := .resetting c none) (by simp)).congr rfl rfl
  | assign t target source c =>
    exact (h.setPC (t := t) (p := .resetting c (some (target, source))) (by simp)).congr rfl rfl
  | reset t => exact h.setPC (by simp)
  | finishAssign t => exact (h.setPC (t := t) (p := .rest) (by simp)).congr rfl rfl
  | beginMaintenance t => exact h.setPC (by simp)
  | takeOut t expired =>
    exact (h.setPC (t := t) (p := .checking (s.idle.filter fun c => !expired c))
      (by simp)).congr rfl rfl
  | heartbeat t => exact h.setPC (by simp)
  | judge t e alive entries =>
    exact (h.setPC (t := t) (p := .checking entries) (by simp)).congr rfl rfl
  | endMaintenance t => exact h.setPC (by simp)

theorem Proper.step {size : ℕ} {s s' : State T H} {e : Event T H} (hl : Locked s) (h : Proper s)
    (hs : Step size s e s') : Proper s' := by
  have hmore (o : Outcome) (ho : o = .lease ∨ o = .openError ∨ o = .poolTimeout) :
      ∀ o' ∈ o :: s.ended, o' = .lease ∨ o' = .openError ∨ o' = .poolTimeout :=
    List.forall_mem_cons.mpr ⟨ho, h.ended⟩
  cases hs with
  | reuse => exact ⟨h.quiet, hmore _ (.inl rfl)⟩
  | opened => exact ⟨h.quiet, hmore _ (.inl rfl)⟩
  | undoReserve => exact ⟨h.quiet, hmore _ (.inr (.inl rfl))⟩
  | timeout => exact ⟨h.quiet, hmore _ (.inr (.inr rfl))⟩
  | popUnowned t rest c expired hpc => exact absurd (hl t false hpc).1 (by decide)
  | reserveUnowned t hpc => exact absurd (hl t false hpc).1 (by decide)
  | waitUnowned t hpc => exact absurd (hl t false hpc).1 (by decide)
  | _ => exact ⟨h.quiet, h.ended⟩

end Mutex

variable [Fintype T] [Fintype H]

def places (s : State T H) : Multiset Conn :=
  (s.idle : Multiset Conn) + ∑ t, (s.pc t).held + ∑ h, (s.handle h).held

theorem places_setPC [DecidableEq T] (s : State T H) (t : T) (p : PC H) {A B : Multiset Conn}
    (hA : (s.pc t).held = A) (hB : p.held = B) : places (s.setPC t p) + A = places s + B := by
  subst hA hB
  have hsum := sum_update_add PC.held s.pc t p
  simp only [places, State.setPC]
  calc
    (s.idle : Multiset Conn) + ∑ i, (Function.update s.pc t p i).held +
        ∑ h, (s.handle h).held + (s.pc t).held
      = (s.idle : Multiset Conn) + (∑ i, (Function.update s.pc t p i).held + (s.pc t).held) +
        ∑ h, (s.handle h).held := by abel
    _ = (s.idle : Multiset Conn) + ∑ i, (s.pc i).held + ∑ h, (s.handle h).held + p.held := by
      rw [hsum]
      abel

theorem places_setHandle [DecidableEq H] (s : State T H) (h : H) (x : Handle)
    {A B : Multiset Conn} (hA : (s.handle h).held = A) (hB : x.held = B) :
    places (s.setHandle h x) + A = places s + B := by
  subst hA hB
  have hsum := sum_update_add Handle.held s.handle h x
  simp only [places, State.setHandle]
  calc
    (s.idle : Multiset Conn) + ∑ t, (s.pc t).held +
        ∑ i, (Function.update s.handle h x i).held + (s.handle h).held
      = (s.idle : Multiset Conn) + ∑ t, (s.pc t).held +
        (∑ i, (Function.update s.handle h x i).held + (s.handle h).held) := by abel
    _ = (s.idle : Multiset Conn) + ∑ t, (s.pc t).held + ∑ i, (s.handle i).held + x.held := by
      rw [hsum]
      abel

theorem places_idle (s : State T H) (l : List Conn) :
    places { s with idle := l } + (s.idle : Multiset Conn) = places s + (l : Multiset Conn) := by
  simp only [places]
  abel

omit [Fintype H] in
theorem sum_setPC [DecidableEq T] (w : PC H → ℕ) (s : State T H) (t : T) (p : PC H) {a b : ℕ}
    (ha : w (s.pc t) = a) (hb : w p = b) :
    ∑ i, w ((s.setPC t p).pc i) + a = ∑ i, w (s.pc i) + b := by
  subst ha hb
  exact sum_update_add w s.pc t p

def Event.opens : Event T H → Multiset Conn
  | .opened _ _ c => {c}
  | _ => 0

def Event.closes : Event T H → Multiset Conn
  | .popExpired _ c => {c}
  | .popUnowned _ c _ => {c}
  | .release _ c false => {c}
  | .takeOut _ evicted => evicted
  | .judge _ c false => {c}
  | _ => 0

theorem places_pop {s : State T H} {rest : List Conn} {c : Conn} (h : s.idle = rest ++ [c]) :
    places { s with idle := rest } + {c} = places s := by
  simp only [places, h, ← Multiset.coe_add, Multiset.coe_singleton]
  abel

theorem places_push (s : State T H) (c : Conn) :
    places { s with idle := s.idle ++ [c] } = places s + {c} := by
  simp only [places, ← Multiset.coe_add, Multiset.coe_singleton]
  abel

theorem places_congr {s s' : State T H} (hidle : s'.idle = s.idle) (hpc : s'.pc = s.pc)
    (hhandle : s'.handle = s.handle) : places s' = places s := by
  rw [places, places, hidle, hpc, hhandle]

variable [DecidableEq T] [DecidableEq H]

omit [DecidableEq H] in
theorem places_setPC_eq {s : State T H} {t : T} {p q : PC H} (hpc : s.pc t = q)
    (hheld : p.held = q.held) : places (s.setPC t p) = places s :=
  add_right_cancel (places_setPC s t p (congrArg PC.held hpc) hheld)

omit [DecidableEq T] in
theorem places_move {s : State T H} {target source : H} (hne : target ≠ source)
    (htarget : (s.handle target).held = 0) :
    places ((s.setHandle target (s.handle source)).setHandle source .empty) = places s := by
  have hsame : (s.setHandle target (s.handle source)).handle source = s.handle source :=
    Function.update_of_ne hne.symm _ _
  have hfirst := places_setHandle s target (s.handle source) htarget rfl
  have hsecond := places_setHandle (s.setHandle target (s.handle source)) source .empty
    (congrArg Handle.held hsame) rfl
  rw [add_zero] at hfirst
  rw [hfirst] at hsecond
  exact add_right_cancel (hsecond.trans (add_zero _))

omit [DecidableEq H] in
/-- A thread goes on with what it has in its hands. -/
theorem places_moved {s s' : State T H} {t : T} {p q : PC H} (hpc : s.pc t = q)
    (hheld : p.held = q.held) (hpc' : s'.pc = (s.setPC t p).pc) (hidle : s'.idle = s.idle)
    (hhandle : s'.handle = s.handle) : places s' = places s :=
  (places_congr (s := s.setPC t p) hidle hpc' hhandle).trans (places_setPC_eq hpc hheld)

omit [DecidableEq H] in
/-- A thread takes the last idle connection and closes it. -/
theorem places_drop {s s' : State T H} {t : T} {p q : PC H} {rest : List Conn} {c : Conn}
    (hpc : s.pc t = q) (hidle : s.idle = rest ++ [c]) (hheld : p.held = q.held)
    (hpc' : s'.pc = (s.setPC t p).pc) (hidle' : s'.idle = rest) (hhandle : s'.handle = s.handle) :
    places s' + {c} = places s + 0 := by
  rw [places_moved (s := { s with idle := rest }) hpc hheld hpc' hidle' hhandle, places_pop hidle,
    add_zero]

theorem places_lease {s s' : State T H} {t : T} {k : H} {q : PC H} {c : Conn} (hpc : s.pc t = q)
    (hheld : q.held = 0) (hk : s.handle k = .empty) (hpc' : s'.pc = (s.setPC t .rest).pc)
    (hidle : s'.idle = s.idle) (hhandle : s'.handle = (s.setHandle k (.holds c)).handle) :
    places s' = places s + {c} := by
  have hleased := places_setHandle s k (.holds c) (congrArg Handle.held hk) rfl
  rw [places_moved (s := s.setHandle k (.holds c)) (p := .rest) hpc hheld.symm hpc' hidle hhandle]
  exact (add_zero _).symm.trans hleased

theorem places_giveUp {s : State T H} {t : T} {k : H} {c : Conn} {x : Handle}
    {assigns : Option (H × H)} (hpc : s.pc t = .rest) (hk : s.handle k = .holds c)
    (hx : x.held = 0) :
    places ((s.setHandle k x).setPC t (.resetting c assigns)) = places s := by
  have hhandle := places_setHandle s k x (congrArg Handle.held hk) hx
  have hthread := places_setPC (s.setHandle k x) t (.resetting c assigns) (congrArg PC.held hpc) rfl
  exact (add_zero _).symm.trans (hthread.trans (hhandle.trans (add_zero _)))

omit [DecidableEq H] in
theorem places_putBack {s s' : State T H} {t : T} {p q : PC H} {c : Conn} (kept : Bool)
    (hpc : s.pc t = q) (hheld : q.held = p.held + {c}) (hpc' : s'.pc = (s.setPC t p).pc)
    (hidle : s'.idle = if kept then s.idle ++ [c] else s.idle) (hhandle : s'.handle = s.handle) :
    places s' + (if kept then 0 else {c}) = places s + 0 := by
  rw [add_zero]
  have hplaces := places_setPC s t p ((congrArg PC.held hpc).trans hheld) rfl
  have hdrop : places (s.setPC t p) + {c} = places s := by
    rw [← add_assoc, add_right_comm] at hplaces
    exact add_right_cancel hplaces
  cases kept with
  | true =>
    rw [places_congr (s := { s.setPC t p with idle := s.idle ++ [c] }) hidle hpc' hhandle]
    exact (add_zero _).trans ((places_push (s.setPC t p) c).trans hdrop)
  | false =>
    rw [places_congr (s := s.setPC t p) hidle hpc' hhandle]
    exact hdrop

omit [DecidableEq H] in
theorem places_takeOut {s s' : State T H} {t : T} (expired : Conn → Bool)
    (hpc : s.pc t = .maintEnter) (hidle : s'.idle = [])
    (hpc' : s'.pc = (s.setPC t (.checking (s.idle.filter fun c => !expired c))).pc)
    (hhandle : s'.handle = s.handle) :
    places s' + (s.idle.filter expired : Multiset Conn) = places s + 0 := by
  rw [add_zero]
  generalize hkept : (s.idle.filter fun c => !expired c) = kept at hpc'
  generalize hevicted : s.idle.filter expired = evicted
  have hsplit : (s.idle : Multiset Conn) = (kept : Multiset Conn) + (evicted : Multiset Conn) := by
    have hperm := List.filter_append_perm expired s.idle
    rw [hkept, hevicted] at hperm
    rw [Multiset.coe_add]
    exact Multiset.coe_eq_coe.mpr ((List.perm_append_comm.trans hperm).symm)
  have hplaces := places_setPC s t (.checking kept) (congrArg PC.held hpc) rfl
  have hempty := places_idle (s.setPC t (.checking kept)) []
  rw [places_congr (s := { s.setPC t (.checking kept) with idle := [] }) hidle hpc' hhandle]
  refine add_right_cancel (b := (kept : Multiset Conn)) ?_
  rw [add_assoc, add_comm (evicted : Multiset Conn), ← hsplit]
  exact hempty.trans ((add_zero _).trans ((add_zero _).symm.trans hplaces))

/-- Every step moves connections between places, apart from those it opens and closes. -/
theorem places_step {size : ℕ} {s s' : State T H} {e : Event T H} (hs : Step size s e s') :
    places s' + e.closes = places s + e.opens := by
  cases hs with
  | reuse t k rest c hpc hidle hk =>
    refine congrArg (· + 0) (Eq.trans ?_ (places_pop hidle))
    exact places_lease (s := { s with idle := rest }) hpc rfl hk rfl rfl rfl
  | popExpired t rest c hpc hidle =>
    exact places_drop (p := .acqLoop false) hpc hidle rfl rfl rfl rfl
  | popUnowned t rest c expired hpc hidle =>
    exact places_drop (p := .rest) hpc hidle rfl rfl rfl rfl
  | opened t k hpc hk =>
    exact (add_zero _).trans (places_lease (c := s.opened) hpc rfl hk rfl rfl rfl)
  | move target source hne htarget =>
    exact congrArg (· + 0) (places_move hne (congrArg Handle.held htarget))
  | destroy t k c hpc hk => exact congrArg (· + 0) (places_giveUp hpc hk rfl)
  | assign t target source c hpc hne hk => exact congrArg (· + 0) (places_giveUp hpc hk rfl)
  | release t c reusable assigns hpc =>
    have hheld : (PC.returning c reusable assigns).held = (PC.afterRelease assigns).held + {c} := by
      cases assigns <;> exact (zero_add _).symm
    cases reusable with
    | true => exact places_putBack true hpc hheld rfl rfl rfl
    | false => exact places_putBack false hpc hheld rfl rfl rfl
  | finishAssign t target source hpc hne htarget =>
    have hmove := places_move hne (congrArg Handle.held htarget)
    have hdone := places_setPC_eq
      (s := (s.setHandle target (s.handle source)).setHandle source .empty) (p := .rest) hpc rfl
    exact congrArg (· + 0) (hdone.trans hmove)
  | takeOut t expired hpc =>
    exact places_takeOut expired hpc rfl rfl rfl
  | judge t e alive entries hpc =>
    have hheld : (PC.verdict e alive entries : PC H).held = (PC.checking entries : PC H).held + {e} :=
      (Multiset.singleton_add e (entries : Multiset Conn)).symm.trans (add_comm _ _)
    cases alive with
    | true => exact places_putBack true hpc hheld rfl rfl rfl
    | false => exact places_putBack false hpc hheld rfl rfl rfl
  | call t hpc => exact congrArg (· + 0) (places_moved (p := .acqEnter) hpc rfl rfl rfl rfl)
  | lock t hpc => exact congrArg (· + 0) (places_moved (p := .acqLoop true) hpc rfl rfl rfl rfl)
  | reserve t hpc => exact congrArg (· + 0) (places_moved (p := .acqOpening) hpc rfl rfl rfl rfl)
  | openFails t hpc =>
    exact congrArg (· + 0) (places_moved (p := .acqOpenFailed) hpc rfl rfl rfl rfl)
  | undoReserve t hpc => exact congrArg (· + 0) (places_moved (p := .rest) hpc rfl rfl rfl rfl)
  | wait t hpc => exact congrArg (· + 0) (places_moved (p := .acqWaiting) hpc rfl rfl rfl rfl)
  | wake t hpc => exact congrArg (· + 0) (places_moved (p := .acqLoop true) hpc rfl rfl rfl rfl)
  | timeout t hpc => exact congrArg (· + 0) (places_moved (p := .rest) hpc rfl rfl rfl rfl)
  | reserveUnowned t hpc => exact congrArg (· + 0) (places_moved (p := .rest) hpc rfl rfl rfl rfl)
  | waitUnowned t hpc => exact congrArg (· + 0) (places_moved (p := .stuck) hpc rfl rfl rfl rfl)
  | reset t c assigns reusable hpc =>
    exact congrArg (· + 0) (places_moved (p := .returning c reusable assigns) hpc rfl rfl rfl rfl)
  | beginMaintenance t hpc =>
    exact congrArg (· + 0) (places_moved (p := .maintEnter) hpc rfl rfl rfl rfl)
  | heartbeat t e entries alive hpc =>
    exact congrArg (· + 0) (places_moved (p := .verdict e alive entries) hpc rfl rfl rfl rfl)
  | endMaintenance t hpc => exact congrArg (· + 0) (places_moved (p := .rest) hpc rfl rfl rfl rfl)

/-- No connection is in two places, and all have been opened. -/
structure Apart (s : State T H) : Prop where
  nodup : (places s).Nodup
  named : ∀ c ∈ places s, c < s.opened

/-- Connections stay apart under every step, orderly or not. -/
theorem Apart.step {size : ℕ} {s s' : State T H} {e : Event T H} (h : Apart s)
    (hs : Step size s e s') : Apart s' := by
  have hplaces := places_step hs
  by_cases hopened : ∃ t k, e = .opened t k s.opened
  · obtain ⟨t, k, rfl⟩ := hopened
    have hnew : places s' = s.opened ::ₘ places s :=
      (add_zero _).symm.trans (hplaces.trans ((add_comm _ _).trans (Multiset.singleton_add _ _)))
    have hcount : s'.opened = s.opened + 1 := by
      cases hs
      rfl
    constructor
    · rw [hnew, Multiset.nodup_cons]
      exact ⟨fun hmem => lt_irrefl _ (h.named _ hmem), h.nodup⟩
    · rw [hnew, hcount]
      intro c hc
      rcases Multiset.mem_cons.mp hc with rfl | hmem
      · exact Nat.lt_succ_self _
      · exact Nat.lt_succ_of_lt (h.named c hmem)
  · have hnone : e.opens = 0 ∧ s'.opened = s.opened := by
      cases hs with
      | opened t k => exact absurd ⟨t, k, rfl⟩ hopened
      | _ => exact ⟨rfl, rfl⟩
    rw [hnone.1, add_zero] at hplaces
    have hle : places s' ≤ places s := hplaces ▸ Multiset.le_add_right _ _
    exact ⟨Multiset.nodup_of_le hle h.nodup,
      fun c hc => hnone.2 ▸ h.named c (Multiset.mem_of_le hle hc)⟩

/-- The counters of a pool of `size` connections. -/
structure Ledger (size : ℕ) (s : State T H) : Prop where
  count : s.created = Multiset.card (places s) + ∑ t, (s.pc t).opens
  bound : s.created ≤ size
  under : s.underMaintenance = ∑ t, (s.pc t).out

omit [Fintype T] [Fintype H] [DecidableEq T] [DecidableEq H] in
theorem decr_of_pos {n : ℕ} (h : 0 < n) : decr n = n - 1 := if_neg (by omega)

theorem iterate_decr {k n : ℕ} (h : k ≤ n) : decr^[k] n = n - k := by
  induction k generalizing n with
  | zero => rfl
  | succ k ih =>
    rw [Function.iterate_succ_apply, decr_of_pos (by omega), ih (by omega)]
    omega

omit [Fintype H] [DecidableEq H] in
theorem sum_setPC_eq (w : PC H → ℕ) {s : State T H} {t : T} {p q : PC H} (hpc : s.pc t = q)
    (h : w p = w q) : ∑ i, w ((s.setPC t p).pc i) = ∑ i, w (s.pc i) := by
  have hsum := sum_setPC w s t p (congrArg w hpc) h
  omega

omit [DecidableEq T] [DecidableEq H] in
/-- The counters after a step, from what it did to each. -/
theorem Ledger.next {size : ℕ} {s s' : State T H} (h : Ledger size s) (closed opened : ℕ)
    (hcard : Multiset.card (places s') + closed = Multiset.card (places s) + opened)
    (hcreated : s'.created + closed + ∑ t, (s.pc t).opens =
      s.created + opened + ∑ t, (s'.pc t).opens)
    (hbound : s'.created ≤ size) (hunder : s'.underMaintenance = ∑ t, (s'.pc t).out) :
    Ledger size s' := by
  have hcount := h.count
  exact ⟨by omega, hbound, hunder⟩

omit [DecidableEq H] in
/-- A step of one thread that counts nothing. -/
theorem Ledger.moved {size : ℕ} {s s' : State T H} (h : Ledger size s) {t : T} {p q : PC H}
    (hpc : s.pc t = q) (hpc' : s'.pc = (s.setPC t p).pc)
    (hcard : Multiset.card (places s') = Multiset.card (places s))
    (hcreated : s'.created = s.created) (hunder : s'.underMaintenance = s.underMaintenance)
    (hopens : p.opens = q.opens) (hout : p.out = q.out) : Ledger size s' := by
  refine h.next 0 0 hcard ?_ ?_ ?_
  · rw [hcreated, hpc', sum_setPC_eq PC.opens hpc hopens]
  · rw [hcreated]
    exact h.bound
  · rw [hunder, hpc', sum_setPC_eq PC.out hpc hout]
    exact h.under

omit [DecidableEq T] [DecidableEq H] in
/-- A step that closes one connection and counts it off. -/
theorem Ledger.closeOne {size : ℕ} {s s' : State T H} (h : Ledger size s)
    (hcard : Multiset.card (places s') + 1 = Multiset.card (places s))
    (hcreated : s'.created = decr s.created)
    (hopens : ∑ t, (s'.pc t).opens = ∑ t, (s.pc t).opens)
    (hunder : s'.underMaintenance = ∑ t, (s'.pc t).out) : Ledger size s' := by
  have hcount := h.count
  have hbound := h.bound
  rw [decr_of_pos (by omega)] at hcreated
  exact h.next 1 0 hcard (by omega) (by omega) hunder

theorem Ledger.step {size : ℕ} {s s' : State T H} {e : Event T H} (h : Ledger size s)
    (hl : Locked s) (hok : Orderly s e) (hs : Step size s e s') : Ledger size s' := by
  have hcard := congrArg Multiset.card (places_step hs)
  rw [Multiset.card_add, Multiset.card_add] at hcard
  have hcount := h.count
  have hbound := h.bound
  have hunder := h.under
  cases hs with
  | popExpired => exact absurd hok id
  | popUnowned t rest c expired hpc => exact absurd (hl t false hpc).1 (by decide)
  | reserveUnowned t hpc => exact absurd (hl t false hpc).1 (by decide)
  | waitUnowned t hpc => exact absurd (hl t false hpc).1 (by decide)
  | reserve t hpc hidle hroom =>
    have hopens := sum_setPC PC.opens s t .acqOpening (a := 0) (b := 1) (congrArg PC.opens hpc) rfl
    have hout := sum_setPC_eq PC.out (p := .acqOpening) hpc rfl
    refine h.next 0 0 hcard ?_ hroom (hunder.trans hout.symm)
    change s.created + 1 + 0 + _ = s.created + 0 + ∑ i, ((s.setPC t .acqOpening).pc i).opens
    omega
  | opened t k hpc hk =>
    have hopens := sum_setPC PC.opens s t .rest (a := 1) (b := 0) (congrArg PC.opens hpc) rfl
    have hout := sum_setPC_eq PC.out (p := .rest) hpc rfl
    refine h.next 0 1 hcard ?_ hbound (hunder.trans hout.symm)
    change s.created + 0 + _ = s.created + 1 + ∑ i, ((s.setPC t .rest).pc i).opens
    omega
  | undoReserve t hpc =>
    have hopens := sum_setPC PC.opens s t .rest (a := 1) (b := 0) (congrArg PC.opens hpc) rfl
    have hout := sum_setPC_eq PC.out (p := .rest) hpc rfl
    have hdecr : decr s.created = s.created - 1 := decr_of_pos (by omega)
    refine h.next 0 0 hcard ?_ ?_ (hunder.trans hout.symm)
    · change decr s.created + 0 + _ = s.created + 0 + ∑ i, ((s.setPC t .rest).pc i).opens
      omega
    · change decr s.created ≤ size
      omega
  | release t c reusable assigns hpc =>
    have hnone : (PC.afterRelease assigns).opens = 0 ∧ (PC.afterRelease assigns).out = 0 := by
      cases assigns <;> exact ⟨rfl, rfl⟩
    cases reusable with
    | true => exact h.moved (p := .afterRelease assigns) hpc rfl hcard rfl rfl hnone.1 hnone.2
    | false =>
      exact h.closeOne hcard rfl (sum_setPC_eq PC.opens hpc hnone.1)
        (hunder.trans (sum_setPC_eq PC.out hpc hnone.2).symm)
  | takeOut t expired hpc =>
    have hopens := sum_setPC_eq PC.opens
      (p := .checking (s.idle.filter fun c => !expired c)) hpc rfl
    have hout := sum_setPC PC.out s t (.checking (s.idle.filter fun c => !expired c))
      (congrArg PC.out hpc) rfl
    have hnone : ∑ i, (s.pc i).out = 0 := Finset.sum_eq_zero fun i _ => hok i
    rw [hnone, zero_add] at hout
    have hle : (s.idle.filter expired).length ≤ Multiset.card (places s) := by
      have hclosed : Multiset.card (Event.takeOut (H := H) t (s.idle.filter expired)).closes =
        (s.idle.filter expired).length := rfl
      rw [hclosed] at hcard
      exact le_of_le_of_eq (Nat.le_add_left _ _) hcard
    have hdecr : decr^[(s.idle.filter expired).length] s.created =
        s.created - (s.idle.filter expired).length := iterate_decr (by omega)
    refine h.next (s.idle.filter expired).length 0 hcard ?_ ?_ hout.symm
    · change decr^[(s.idle.filter expired).length] s.created + _ + _ = s.created + 0 +
        ∑ i, ((s.setPC t (.checking (s.idle.filter fun c => !expired c))).pc i).opens
      rw [hopens, hdecr]
      omega
    · change decr^[(s.idle.filter expired).length] s.created ≤ size
      omega
  | judge t e alive entries hpc =>
    have hopens := sum_setPC_eq PC.opens (p := .checking entries) hpc rfl
    have hout := sum_setPC PC.out s t (.checking entries) (congrArg PC.out hpc)
        (b := entries.length) rfl
    rw [PC.out] at hout
    have hdecr : decr s.underMaintenance = ∑ i, ((s.setPC t (.checking entries)).pc i).out := by
      rw [decr_of_pos (by omega)]
      omega
    cases alive with
    | true =>
      refine h.next 0 0 hcard ?_ hbound hdecr
      exact congrArg (s.created + 0 + ·) hopens.symm
    | false => exact h.closeOne hcard rfl hopens hdecr
  | reuse t k rest c hpc => exact h.moved (p := .rest) hpc rfl hcard rfl rfl rfl rfl
  | lock t hpc => exact h.moved (p := .acqLoop true) hpc rfl hcard rfl rfl rfl rfl
  | wait t hpc => exact h.moved (p := .acqWaiting) hpc rfl hcard rfl rfl rfl rfl
  | wake t hpc => exact h.moved (p := .acqLoop true) hpc rfl hcard rfl rfl rfl rfl
  | timeout t hpc => exact h.moved (p := .rest) hpc rfl hcard rfl rfl rfl rfl
  | finishAssign t target source hpc => exact h.moved (p := .rest) hpc rfl hcard rfl rfl rfl rfl
  | destroy t k c hpc => exact h.moved (p := .resetting c none) hpc rfl hcard rfl rfl rfl rfl
  | assign t target source c hpc =>
    exact h.moved (p := .resetting c (some (target, source))) hpc rfl hcard rfl rfl rfl rfl
  | call t hpc => exact h.moved (p := .acqEnter) hpc rfl hcard rfl rfl rfl rfl
  | openFails t hpc => exact h.moved (p := .acqOpenFailed) hpc rfl hcard rfl rfl rfl rfl
  | reset t c assigns reusable hpc =>
    exact h.moved (p := .returning c reusable assigns) hpc rfl hcard rfl rfl rfl rfl
  | beginMaintenance t hpc => exact h.moved (p := .maintEnter) hpc rfl hcard rfl rfl rfl rfl
  | heartbeat t e entries alive hpc =>
    exact h.moved (p := .verdict e alive entries) hpc rfl hcard rfl rfl rfl rfl
  | endMaintenance t hpc => exact h.moved (p := .rest) hpc rfl hcard rfl rfl rfl rfl
  | move => exact h.next 0 0 hcard rfl hbound hunder

omit [DecidableEq T] [DecidableEq H] in
/-- What the books of a pool are meant to say. -/
structure Accounted (size : ℕ) (s : State T H) : Prop where
  created_eq : s.created = s.idle.length + s.underMaintenance +
    (∑ h, (s.handle h).leases + ∑ t, (s.pc t).returns) + ∑ t, (s.pc t).opens
  created_le : s.created ≤ size
  apart : (places s).Nodup
  locked : Locked s
  proper : Proper s

omit [DecidableEq T] [DecidableEq H] in
theorem Ledger.accounted {size : ℕ} {s : State T H} (h : Ledger size s) (ha : Apart s)
    (hl : Locked s) (hp : Proper s) : Accounted size s := by
  refine ⟨?_, h.bound, ha.nodup, hl, hp⟩
  have hcount := h.count
  have hunder := h.under
  have hthreads : Multiset.card (∑ t, (s.pc t).held) =
      ∑ t, (s.pc t).out + ∑ t, (s.pc t).returns := by
    rw [Multiset.card_sum, ← Finset.sum_add_distrib]
    exact Finset.sum_congr rfl fun t _ => (s.pc t).card_held
  have hhandles : Multiset.card (∑ k, (s.handle k).held) = ∑ k, (s.handle k).leases := by
    rw [Multiset.card_sum]
    exact Finset.sum_congr rfl fun k _ => (s.handle k).card_held
  rw [places, Multiset.card_add, Multiset.card_add, Multiset.coe_card, hthreads, hhandles] at hcount
  omega

omit [DecidableEq T] [DecidableEq H] in
theorem places_start : places (start : State T H) = 0 := by
  simp [places, start, PC.held, Handle.held]

omit [DecidableEq T] [DecidableEq H] in
theorem apart_start : Apart (start : State T H) := by
  constructor
  · rw [places_start]
    exact Multiset.nodup_zero
  · simp [places_start]

omit [DecidableEq T] [DecidableEq H] in
theorem ledger_start (size : ℕ) : Ledger size (start : State T H) := by
  refine ⟨?_, Nat.zero_le _, ?_⟩
  · rw [places_start]
    simp [start, PC.opens]
  · simp [start, PC.out]

/-- In every run whose steps are orderly the books of the pool are right in every state. -/
theorem orderly_runs_are_accounted (size : ℕ) {s : State T H}
    (h : (system size).Reach Orderly s) : Accounted size s := by
  have hinv : Ledger size s ∧ Apart s ∧ Locked s ∧ Proper s := by
    refine h.invariant (I := fun s => Ledger size s ∧ Apart s ∧ Locked s ∧ Proper s) ?_ ?_
    · rintro s rfl
      have hlocked : Locked (start : State T H) := fun t owns ht => PC.noConfusion rfl (heq_of_eq ht)
      exact ⟨ledger_start size, apart_start, hlocked, rfl, by simp [start]⟩
    · rintro s e s' - ⟨hledger, hapart, hlocked, hproper⟩ hok hs
      exact ⟨hledger.step hlocked hok hs, hapart.step hs, hlocked.step hok hs,
        hproper.step hlocked hs⟩
  exact hinv.1.accounted hinv.2.1 hinv.2.2.1 hinv.2.2.2

end

/-- A connection was opened, leased and given back, and `acquire` is called again. -/
theorem exists_returned : ∃ s : State Unit Unit, (system 1).Reach Orderly s ∧ s.idle = [0] ∧
    s.created = 1 ∧ s.pc () = .acqLoop true ∧ s.handle () = .empty ∧ s.ended = [.lease] := by
  have hstart : (system 1).Reach Orderly (start : State Unit Unit) := .start rfl
  have hleased := (((hstart.andThen (.call _ () rfl) trivial).andThen (.lock _ () rfl rfl)
    trivial).andThen (.reserve _ () rfl rfl (by decide)) trivial).andThen
    (.opened _ () () rfl rfl) trivial
  have hreturned := ((hleased.andThen (.destroy _ () () 0 rfl rfl) trivial).andThen
    (.reset _ () 0 none true rfl) trivial).andThen (.release _ () 0 true none rfl rfl) trivial
  have hreach := (hreturned.andThen (.call _ () rfl) trivial).andThen (.lock _ () rfl rfl) trivial
  exact ⟨_, hreach, rfl, rfl, rfl, rfl, rfl⟩

theorem accounted_after_reuse :
    ∃ s : State Unit Unit, (system 1).Reach Orderly s ∧ s.handle () = .holds 0 ∧
      s.ended = [.lease, .lease] ∧ Accounted 1 s := by
  obtain ⟨s, hreach, hidle, -, hpc, hh, hended⟩ := exists_returned
  have hnext := hreach.andThen (.reuse s () () [] 0 hpc hidle hh) trivial
  exact ⟨_, hnext, rfl, congrArg (Outcome.lease :: ·) hended, orderly_runs_are_accounted 1 hnext⟩

/-- The connection has expired when it is asked for again: `acquire` ends in a `system_error`, and
its slot is counted for good although no connection is left. -/
theorem expired_entry_leaks_its_slot :
    ∃ s : State Unit Unit, (system 1).Reachable s ∧ s.created = 1 ∧ places s = 0 ∧
      s.pc () = .rest ∧ s.ended = [.systemError, .lease] ∧ s.raced = true ∧ ¬ Accounted 1 s := by
  obtain ⟨s, hreach, hidle, hcreated, hpc, hh, hended⟩ := exists_returned
  have hroom : decr s.created < 1 := by
    rw [hcreated]
    decide
  have hnext := (hreach.reachable.andThen (.popExpired s () [] 0 hpc hidle) trivial).andThen
    (.reserveUnowned _ () rfl rfl hroom) trivial
  refine ⟨_, hnext, ?_, ?_, rfl, congrArg (Outcome.systemError :: ·) hended, rfl, fun h => ?_⟩
  · exact congrArg (decr · + 1) hcreated
  · simp [places, State.finish, State.setPC, PC.held, hh, Handle.held]
  · exact Bool.noConfusion h.proper.quiet

end Uniorm.Pool
