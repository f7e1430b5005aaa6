import Uniorm.Async.References

/-! # A wait with the mutex held below it

A destructor that runs where a thread holds the mutex of the queue waits for that mutex. The thread
does not move again, and nothing that has not left the queue by then ever leaves it.
-/
namespace Uniorm.Async

open Foundation

variable {T O V E : Type*} {kind : O → Kind} {live : V → Bool}

section
variable [DecidableEq O] {f : Frame O E} {g g' : Shared O V E} {e : Event O}
  {fs : List (Frame O E)}

/-- Nothing leaves the queue but under its mutex. -/
theorem Rule.waiting_kept (h : Rule kind live f g e fs g') (hfree : ¬ f.Locks)
    (hlocked : g.mutex = true) : g'.queue.waiting = g.queue.waiting := by
  cases h <;> simp_all [Frame.Locks, Frame.head, Frame.lock]

/-- A wait is over only once the mutex is free. -/
theorem Rule.unlocked_of_waitIdle (h : Rule kind live .waitIdle g e fs g') : g.mutex = false := by
  cases h with
  | waitReturns _ unlocked => exact unlocked
  | _ => exact absurd ‹Frame.isUser kind .waitIdle = true› Bool.false_ne_true

end

section
variable [DecidableEq O] [Fintype T] [DecidableEq T] {s s' : Conf T (Frame O E) (Shared O V E)}
  {a : T × Event O} {t : T}

/-- A thread waits, with the mutex in one of the calls below. -/
def Wedged (t : T) (s : Conf T (Frame O E) (Shared O V E)) : Prop :=
  ∃ rest, s.stack t = .waitIdle :: rest ∧ ∃ x ∈ rest, x.Locks

omit [DecidableEq O] [DecidableEq T] in
theorem Wedged.locked (h : Wedged t s) (ho : Orderly kind s) : s.shared.mutex = true := by
  obtain ⟨rest, top, x, hx, hlocks⟩ := h
  have hmem : x ∈ s.stack t := top ▸ List.mem_cons_of_mem _ hx
  have hle := Conf.le_total (fun f : Frame O E => f.head + f.lock) hmem
  rw [Conf.total_add, ho.lock] at hle
  exact toNat_pos (hlocks.trans_le hle)

theorem Wedged.step (h : Wedged t s) (ho : Orderly kind s)
    (hs : (session T kind live).step s a s') :
    Wedged t s' ∧ s'.shared.queue.waiting = s.shared.queue.waiting := by
  have hlocked := h.locked ho
  obtain ⟨rest, top, x, hx, hlocks⟩ := h
  cases hs with
  | @run i f below fs e g ftop rule =>
    by_cases hi : t = i
    · subst hi
      obtain ⟨rfl, -⟩ := List.cons.inj (top.symm.trans ftop)
      exact absurd (hlocked.symm.trans rule.unlocked_of_waitIdle) nofun
    · have hmem : x ∈ s.stack t := top ▸ List.mem_cons_of_mem _ hx
      have hpair := Conf.le_total_pair (fun f : Frame O E => f.head + f.lock) ftop (.inl ⟨hi, hmem⟩)
      rw [Conf.total_add, ho.lock, hlocked, Bool.toNat_true] at hpair
      have hfree : ¬ f.Locks := by
        simp only [Frame.Locks] at hlocks ⊢
        omega
      refine ⟨⟨rest, ?_, x, hx, hlocks⟩, rule.waiting_kept hfree hlocked⟩
      rw [Conf.set_stack_of_ne hi]
      exact top

end

end Uniorm.Async
