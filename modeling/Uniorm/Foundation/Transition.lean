import Mathlib.Algebra.BigOperators.Pi
import Mathlib.Tactic.Abel

/-! # Labelled transition systems with guarded runs

A system is an initial predicate and a labelled step relation. A run may be
restricted by a condition on the state before each step and on its label, so
that one invariant rule serves both the unrestricted and the guarded runs.
A run whose steps are functions of the state is a list of inputs; the two rules for it compare what
holds after each step with what each step meets. The last section counts over the threads of an
interleaving.
-/
namespace Uniorm.Foundation

universe u v

/-- A labelled transition system over states `σ` and labels `α`. -/
structure System (σ : Type u) (α : Type v) where
  init : σ → Prop
  step : σ → α → σ → Prop

namespace System
variable {σ : Type u} {α : Type v} {M : System σ α} {ok : σ → α → Prop}

/-- States reached by a run each of whose steps meets `ok` in the state it is taken from. -/
inductive Reach (M : System σ α) (ok : σ → α → Prop) : σ → Prop where
  | start {s : σ} (h : M.init s) : Reach M ok s
  | next {s t : σ} {a : α} (h : Reach M ok s) (guard : ok s a) (hs : M.step s a t) : Reach M ok t

/-- States reached by an unrestricted run. -/
abbrev Reachable (M : System σ α) : σ → Prop := M.Reach (fun _ _ => True)

theorem Reach.andThen {s t : σ} {a : α} (h : M.Reach ok s) (hs : M.step s a t) (guard : ok s a) :
    M.Reach ok t := .next h guard hs

/-- A predicate that holds initially and is kept by every admitted step holds in every state
reached. The step may use that its source state was itself reached. -/
theorem Reach.invariant {I : σ → Prop} (h0 : ∀ s, M.init s → I s)
    (hstep : ∀ s a t, M.Reach ok s → I s → ok s a → M.step s a t → I t)
    {s : σ} (h : M.Reach ok s) : I s := by
  induction h with
  | start h => exact h0 _ h
  | next hr guard hs ih => exact hstep _ _ _ hr ih guard hs

theorem Reach.weaken {ok' : σ → α → Prop} (hok : ∀ s a, ok s a → ok' s a)
    {s : σ} (h : M.Reach ok s) : M.Reach ok' s := by
  induction h with
  | start h => exact .start h
  | next _ guard hs ih => exact .next ih (hok _ _ guard) hs

theorem Reach.reachable {s : σ} (h : M.Reach ok s) : M.Reachable s := h.weaken fun _ _ _ => trivial

def after (M : System σ α) (s : σ) : System σ α := ⟨(· = s), M.step⟩

theorem Reach.ever {s t : σ} {I : σ → Prop} (hs : M.Reachable s) (h0 : I s)
    (hstep : ∀ s a t, M.Reachable s → I s → M.step s a t → I t)
    (ht : (M.after s).Reachable t) : M.Reachable t ∧ I t := by
  apply ht.invariant (I := fun t => M.Reachable t ∧ I t)
  · rintro _ rfl
    exact ⟨hs, h0⟩
  · rintro r a t - ⟨hr, hi⟩ - hrt
    exact ⟨.next hr trivial hrt, hstep r a t hr hi hrt⟩

end System

section Inputs
variable {σ : Type u} {α : Type v} (next : σ → α → σ)

/-- A condition holds at every step of a run, of the state before it and its input. -/
def EachStep (R : σ → α → Prop) : σ → List α → Prop
  | _, [] => True
  | s, a :: l => R s a ∧ EachStep R (next s a) l

/-- A predicate holds at first and after every step of a run. -/
def AfterEach (P : σ → Prop) : σ → List α → Prop
  | s, [] => P s
  | s, a :: l => P s ∧ AfterEach P (next s a) l

variable {next} {P : σ → Prop} {R R' : σ → α → Prop}

/-- A predicate that a step keeps exactly under a condition holds after every step exactly when
every step meets the condition. -/
theorem afterEach_iff (h : ∀ s a, P s → (P (next s a) ↔ R s a)) {s : σ} (hs : P s) (l : List α) :
    AfterEach next P s l ↔ EachStep next R s l := by
  induction l generalizing s with
  | nil => simp [AfterEach, EachStep, hs]
  | cons a l ih =>
    by_cases ha : P (next s a)
    · simp [AfterEach, EachStep, hs, (h s a hs).mp ha, ih ha]
    · have hnot : ¬ R s a := fun hr => ha ((h s a hs).mpr hr)
      have hfirst : AfterEach next P (next s a) l → P (next s a) := by
        cases l with
        | nil => exact id
        | cons b l => exact And.left
      simp only [AfterEach, EachStep, hnot, false_and, iff_false, not_and]
      exact fun _ hafter => ha (hfirst hafter)

/-- Two conditions that agree where an invariant holds are met by the same runs. -/
theorem eachStep_congr (hkeep : ∀ s a, P s → P (next s a)) (h : ∀ s a, P s → (R s a ↔ R' s a))
    {s : σ} (hs : P s) (l : List α) : EachStep next R s l ↔ EachStep next R' s l := by
  induction l generalizing s with
  | nil => rfl
  | cons a l ih => exact and_congr (h s a hs) (ih (hkeep s a hs))

/-- What every step of every state meets is met along a run. -/
theorem eachStep_of_forall (h : ∀ s a, R s a) (s : σ) (l : List α) : EachStep next R s l := by
  induction l generalizing s with
  | nil => trivial
  | cons a l ih => exact ⟨h s a, ih (next s a)⟩

/-- What every step keeps holds along a run. -/
theorem afterEach_of_keeps (h : ∀ s a, P s → P (next s a)) {s : σ} (hs : P s) (l : List α) :
    AfterEach next P s l := by
  induction l generalizing s with
  | nil => exact hs
  | cons a l ih => exact ⟨hs, ih (h s a hs)⟩

end Inputs

section ThreadSum
variable {ι β A : Type*} [Fintype ι] [DecidableEq ι] [AddCommMonoid A]

/-- Replacing the value of one thread changes a sum over all threads at that thread only. -/
theorem sum_update_add (w : β → A) (f : ι → β) (t : ι) (b : β) :
    ∑ i, w (Function.update f t b i) + w (f t) = ∑ i, w (f i) + w b := by
  rw [← Finset.add_sum_erase Finset.univ _ (Finset.mem_univ t),
    ← Finset.add_sum_erase Finset.univ (fun i => w (f i)) (Finset.mem_univ t)]
  have hrest : ∑ i ∈ Finset.univ.erase t, w (Function.update f t b i) =
      ∑ i ∈ Finset.univ.erase t, w (f i) := by
    apply Finset.sum_congr rfl
    intro i hi
    rw [Function.update_of_ne (Finset.ne_of_mem_erase hi)]
  rw [hrest, Function.update_self]
  abel

end ThreadSum

end Uniorm.Foundation
