import Uniorm.Async.References

/-! # The turns of one operation

An operation of the session is on its way to the queue, waits there, has the turn, or has given it
back. Counting where it is says that it gets one turn for each time it is accepted, and that it is
accepted once as long as no driven task is driven again.
-/
namespace Uniorm.Async

open Foundation

variable {T O V E : Type*} {kind : O → Kind} {live : V → Bool}

def Drive.claims : Drive → ℕ
  | idle => 0
  | blocked => 1
  | detached => 1
  | awaited => 1

theorem Drive.claims_pos {d : Drive} : 0 < d.claims ↔ d ≠ idle := by
  cases d <;> simp [claims]

theorem Drive.claims_le (d : Drive) : d.claims ≤ 1 := by
  cases d <;> simp [claims]

section
variable [DecidableEq O]

namespace Frame

/-- A drive action that has not been through `push`. -/
def offers (op : O) : Frame O E → ℕ
  | launch start _ | push start _ | pushing start _ => if start.op = op then 1 else 0
  | refused x _ _ => if x = op then 1 else 0
  | _ => 0

/-- An operation between its start and its `finish`. -/
def owes (op : O) : Frame O E → ℕ
  | calling start | threw start => if start.op = op then 1 else 0
  | begin x | running x | callback x => if x = op then 1 else 0
  | final x _ | finish x _ | finishing x _ => if x = op then 1 else 0
  | _ => 0

theorem owes_le_turn {op : O} (hb : (kind op).bound = true) (f : Frame O E) :
    f.owes op ≤ f.turn kind := by
  have hle : ∀ x, (if x = op then 1 else 0) ≤ if (kind x).bound then 1 else 0 := by
    intro x
    by_cases hx : x = op
    · rw [if_pos hx, hx, if_pos hb]
    · rw [if_neg hx]
      exact Nat.zero_le _
  have hone : ∀ x, (if x = op then 1 else 0) ≤ 1 := by
    intro x
    split
    · exact le_rfl
    · exact Nat.zero_le _
  cases f <;> first | exact Nat.zero_le _ | exact hle _ | exact hone _

end Frame

/-- The turns of an operation outside the stacks: not begun, with an executor, and given back. -/
def Shared.owes (op : O) (g : Shared O V E) : ℕ :=
  g.queue.waiting.countP (·.op = op) + g.pending.count op + (g.core op).turns

variable {f : Frame O E} {g g' : Shared O V E} {e : Event O} {fs : List (Frame O E)} {op : O}

theorem Rule.owes_eq (h : Rule kind live f g e fs g') (hp : g.Parents kind)
    (hb : (kind op).bound = true) :
    (fs.map (Frame.owes op)).sum + g'.owes op + g.accepted.countP (·.op = op) =
      f.owes op + g.owes op + g'.accepted.countP (·.op = op) := by
  have hfree : ∀ x, (kind x).bound = false → x ≠ op := by
    rintro x hx rfl
    exact absurd (hx.symm.trans hb) Bool.false_ne_true
  have hcoroutine : ∀ x, kind x = .coroutine → x ≠ op := fun x hx => hfree x (hx ▸ rfl)
  simp only [Shared.owes]
  cases h with
  | failAwait _ x parent _ _ _ parked =>
    simp [Frame.owes, Shared.modify_field Core.turns, hcoroutine parent (hp x parent parked)]
  | resume _ x parent _ _ parked =>
    simp [Frame.owes, Shared.modify_field Core.turns, hcoroutine parent (hp x parent parked)]
  | _ =>
    simp [Frame.owes, Shared.modify_field Core.turns, List.countP_cons, List.count_cons, *] <;>
      (try split_ifs) <;> omega

theorem Rule.offers_eq (h : Rule kind live f g e fs g') (hb : (kind op).bound = true)
    (hno : e ≠ .redrive op) (hclaimed : 0 < f.offers op → (g.core op).driven ≠ .idle) :
    (fs.map (Frame.offers op)).sum + g'.accepted.countP (·.op = op) + (g.core op).driven.claims =
      f.offers op + g.accepted.countP (·.op = op) + (g'.core op).driven.claims := by
  have hone : 0 < f.offers op → (g.core op).driven.claims = 1 := by
    intro hf
    have hpos := Drive.claims_pos.mpr (hclaimed hf)
    have hle := (g.core op).driven.claims_le
    omega
  cases h <;>
    simp [Frame.offers, Drive.claims, Shared.modify_field Core.driven,
      List.countP_cons] at hone ⊢ <;>
    (try split_ifs at hone ⊢) <;> first | omega | simp_all <;> omega

end

section
variable [DecidableEq O] [Fintype T] [DecidableEq T] {s s' : Conf T (Frame O E) (Shared O V E)}
  {a : T × Event O} {op : O}

/-- No `start` or `co_await` of a task that has been driven. -/
def DrivenOnce (_ : Conf T (Frame O E) (Shared O V E)) (a : T × Event O) : Prop :=
  ∀ op, a.2 ≠ .redrive op

theorem owes_counted (kind : O → Kind) (live : V → Bool) (h : (session T kind live).Reachable s)
    (hb : (kind op).bound = true) :
    s.total (Frame.owes op) + s.shared.owes op = s.shared.accepted.countP (·.op = op) := by
  apply h.invariant
    (I := fun s => s.total (Frame.owes op) + s.shared.owes op = s.shared.accepted.countP (·.op = op))
  · rintro _ rfl
    simp [fresh, Conf.total, Frame.owes, Shared.owes, Queue.new, Core.new]
  · intro s a s' hr hi _ hs
    cases hs with
    | @run t f rest fs e g top rule =>
      have hrule := rule.owes_eq (orderly kind live hr).parents hb
      have hsum := Conf.total_set (Frame.owes op) fs g top
      rw [Conf.set_shared]
      omega

theorem offers_counted (kind : O → Kind) (live : V → Bool)
    (h : (session T kind live).Reach DrivenOnce s) (hb : (kind op).bound = true) :
    s.total (Frame.offers op) + s.shared.accepted.countP (·.op = op) =
      (s.shared.core op).driven.claims := by
  apply h.invariant
    (I := fun s => s.total (Frame.offers op) + s.shared.accepted.countP (·.op = op) =
      (s.shared.core op).driven.claims)
  · rintro _ rfl
    simp [fresh, Conf.total, Frame.offers, Core.new, Drive.claims]
  · intro s a s' hr hi hok hs
    cases hs with
    | @run t f rest fs e g top rule =>
      have hmem : f ∈ s.stack t := top ▸ List.mem_cons_self
      have hle := Conf.le_total (Frame.offers op) hmem
      have hrule := rule.offers_eq hb (hok op) fun hf => Drive.claims_pos.mp (by omega)
      have hsum := Conf.total_set (Frame.offers op) fs g top
      rw [Conf.set_shared]
      omega

/-- What the two counts say about one operation of the session. -/
structure Turned (op : O) (s : Conf T (Frame O E) (Shared O V E)) : Prop where
  owes : s.total (Frame.owes op) + s.shared.owes op = s.shared.accepted.countP (·.op = op)
  offers : s.total (Frame.offers op) + s.shared.accepted.countP (·.op = op) =
    (s.shared.core op).driven.claims

theorem turned (kind : O → Kind) (live : V → Bool) (h : (session T kind live).Reach DrivenOnce s)
    (hb : (kind op).bound = true) : Turned op s :=
  ⟨owes_counted kind live h.reachable hb, offers_counted kind live h hb⟩

namespace Turned

omit [DecidableEq T] in
theorem turns_le (h : Turned op s) :
    (s.shared.core op).turns ≤ (s.shared.core op).driven.claims := by
  have howes := h.owes
  have hoffers := h.offers
  unfold Shared.owes at howes
  omega

omit [DecidableEq T] in
/-- An operation whose turn is still to come or has come has not given it back. -/
theorem turns_eq_zero (h : Turned op s) {t : T} {f : Frame O E} (hf : f ∈ s.stack t)
    (hpos : 0 < f.offers op + f.owes op) : (s.shared.core op).turns = 0 := by
  have howes := h.owes
  have hoffers := h.offers
  have hle := Conf.le_total (Frame.offers op) hf
  have hle' := Conf.le_total (Frame.owes op) hf
  have hone := (s.shared.core op).driven.claims_le
  unfold Shared.owes at howes
  omega

omit [DecidableEq T] in
theorem driven_of_pos (h : Turned op s) {t : T} {f : Frame O E} (hf : f ∈ s.stack t)
    (hpos : 0 < f.offers op + f.owes op) : (s.shared.core op).driven ≠ .idle := by
  have howes := h.owes
  have hoffers := h.offers
  have hle := Conf.le_total (Frame.offers op) hf
  have hle' := Conf.le_total (Frame.owes op) hf
  apply Drive.claims_pos.mp
  omega

omit [DecidableEq T] in
theorem turns_of_idle (h : Turned op s) (ho : Orderly kind s) (hb : (kind op).bound = true)
    (hidle : s.shared.queue.idle = true) (hacc : ∃ st ∈ s.shared.accepted, st.op = op) :
    (s.shared.core op).turns = 1 := by
  obtain ⟨hempty, hfree⟩ := (Queue.idle_iff _).mp hidle
  have htn := ho.turn
  rw [hfree, Bool.toNat_false] at htn
  have hframes : s.total (Frame.owes op) ≤ s.total (Frame.turn kind) :=
    Conf.total_mono (Frame.owes_le_turn hb)
  have hpending : s.shared.pending.count op ≤ s.shared.turns kind := by
    apply List.countP_mono_left
    intro x _ hx
    rw [beq_iff_eq.mp hx]
    exact hb
  have hcount : 0 < s.shared.accepted.countP (·.op = op) := by
    obtain ⟨st, hst, hop⟩ := hacc
    exact List.countP_pos_iff.mpr ⟨st, hst, decide_eq_true hop⟩
  have howes := h.owes
  have hoffers := h.offers
  have hone := (s.shared.core op).driven.claims_le
  rw [Shared.owes, hempty, List.countP_nil] at howes
  omega

end Turned
end

end Uniorm.Async
