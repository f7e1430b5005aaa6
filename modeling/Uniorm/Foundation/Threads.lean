import Mathlib.Algebra.Order.BigOperators.Group.Finset
import Mathlib.Algebra.Order.BigOperators.Group.List
import Mathlib.Data.List.Chain
import Uniorm.Foundation.Transition

/-! # Threads with call stacks over one shared state

A machine gives, for the frame on top of a thread's stack, the frames that replace it and what
happens to the shared state. Threads interleave one rule at a time. Whatever is counted frame by
frame changes by what one rule replaces, and whatever is asserted of every frame is checked at the
frames a rule puts on.
-/
namespace Uniorm.Foundation

universe u v w x

/-- The rule for the frame on top of a stack: the frames put in its place, top first, and the new
shared state. -/
structure Machine (F : Type u) (G : Type v) (E : Type w) where
  rule : F → G → E → List F → G → Prop

/-- The stacks of the threads, top first, and what they share. -/
structure Conf (T : Type x) (F : Type u) (G : Type v) where
  stack : T → List F
  shared : G

def Conf.set {T : Type x} {F : Type u} {G : Type v} [DecidableEq T] (s : Conf T F G) (t : T)
    (stack : List F) (shared : G) : Conf T F G := ⟨Function.update s.stack t stack, shared⟩

namespace Machine
variable {T : Type x} {F : Type u} {G : Type v} {E : Type w} [DecidableEq T]

/-- One thread runs the rule of its top frame. -/
inductive Moves (M : Machine F G E) : Conf T F G → T × E → Conf T F G → Prop where
  | run (s : Conf T F G) (t : T) {f : F} {rest fs : List F} {e : E} {g : G}
      (top : s.stack t = f :: rest) (rule : M.rule f s.shared e fs g) :
      Moves M s (t, e) (s.set t (fs ++ rest) g)

/-- The interleavings of the threads from given configurations on. -/
def system (M : Machine F G E) (init : Conf T F G → Prop) : System (Conf T F G) (T × E) :=
  ⟨init, M.Moves⟩

section
variable {M : Machine F G E} {init : Conf T F G → Prop} {ok : Conf T F G → T × E → Prop}
  {s : Conf T F G} {f : F} {rest fs : List F} {e : E} {g : G}

theorem reach_step (_ : (M.system init).Reach ok s) (t : T) (top : s.stack t = f :: rest)
    (rule : M.rule f s.shared e fs g) : (M.system init).step s (t, e) (s.set t (fs ++ rest) g) :=
  .run s t top rule

/-- A run goes on by such a step. -/
theorem reach_run (h : (M.system init).Reach ok s) (t : T) (top : s.stack t = f :: rest)
    (rule : M.rule f s.shared e fs g) (guard : ok s (t, e)) :
    (M.system init).Reach ok (s.set t (fs ++ rest) g) := .next h guard (.run s t top rule)

end

end Machine

namespace Conf
variable {T : Type x} {F : Type u} {G : Type v} {E : Type w} [DecidableEq T]
variable {M : Machine F G E} {s s' : Conf T F G} {a : T × E}

@[simp] theorem set_shared (t : T) (l : List F) (g : G) : (s.set t l g).shared = g := rfl

@[simp] theorem set_stack_self (t : T) (l : List F) (g : G) : (s.set t l g).stack t = l :=
  Function.update_self ..

theorem set_stack_of_ne {t i : T} (h : i ≠ t) (l : List F) (g : G) :
    (s.set t l g).stack i = s.stack i := Function.update_of_ne h ..

/-- A frame after a rule was there before it, or the rule has put it on. -/
theorem mem_set {t i : T} {f x : F} {rest fs : List F} {g : G} (top : s.stack t = f :: rest)
    (hx : x ∈ (s.set t (fs ++ rest) g).stack i) : x ∈ s.stack i ∨ i = t ∧ x ∈ fs := by
  by_cases hi : i = t
  · subst hi
    rw [set_stack_self, List.mem_append] at hx
    exact hx.symm.imp (fun h => top ▸ List.mem_cons_of_mem _ h) fun h => ⟨rfl, h⟩
  · rw [set_stack_of_ne hi] at hx
    exact .inl hx

def Everywhere (A : F → Prop) (s : Conf T F G) : Prop := ∀ t, ∀ f ∈ s.stack t, A f

def Below (A : F → Prop) (s : Conf T F G) : Prop := ∀ t, ∀ f ∈ (s.stack t).tail, A f

/-- An assertion holds after a rule when it was kept at the frames that were there and holds at the
frames that are new. -/
theorem Everywhere.step {A B : F → Prop} (h : s.Everywhere A) (hs : M.Moves s a s')
    (hkeep : ∀ t, ∀ f ∈ s.stack t, A f → B f)
    (hnew : ∀ f fs, f ∈ s.stack a.1 → A f → M.rule f s.shared a.2 fs s'.shared → ∀ x ∈ fs, B x) :
    s'.Everywhere B := by
  cases hs with
  | run t top rule =>
    intro i x hx
    rcases mem_set top hx with hold | ⟨rfl, hfs⟩
    · exact hkeep i x hold (h i x hold)
    · have hmem := top ▸ List.mem_cons_self
      exact hnew _ _ hmem (h i _ hmem) rule x hfs

theorem Below.step {A : F → Prop} (h : s.Below A) (hs : M.Moves s a s')
    (hnew : ∀ f fs g, f ∈ s.stack a.1 → M.rule f s.shared a.2 fs g → ∀ x ∈ fs.tail, A x) :
    s'.Below A := by
  cases hs with
  | @run t f rest fs e g top rule =>
    intro i x hx
    by_cases hi : i = t
    · subst hi
      rw [set_stack_self] at hx
      have hrest : ∀ y ∈ rest, A y := by
        intro y hy
        apply h i y
        rw [top]
        exact hy
      cases fs with
      | nil => exact hrest x (List.mem_of_mem_tail hx)
      | cons z zs =>
        rcases List.mem_append.mp hx with hx | hx
        · exact hnew f _ g (top ▸ List.mem_cons_self) rule x hx
        · exact hrest x hx
    · rw [set_stack_of_ne hi] at hx
      exact h i x hx

/-- Neighbouring frames of every stack, the upper one first, are related. -/
def Chained (R : F → F → Prop) (s : Conf T F G) : Prop := ∀ t, (s.stack t).IsChain R

/-- It stays so when the frames a rule puts on are, and the last of them may stand on what the frame
that ran stood on. -/
theorem Chained.step_on {R : F → F → Prop} (h : s.Chained R) (hs : M.Moves s a s')
    (hnew : ∀ f rest fs g, s.stack a.1 = f :: rest → M.rule f s.shared a.2 fs g →
      fs.IsChain R ∧ ∀ x ∈ fs.getLast?, ∀ y ∈ rest.head?, R f y → R x y) : s'.Chained R := by
  cases hs with
  | @run t f rest fs e g top rule =>
    intro i
    by_cases hi : i = t
    · subst hi
      rw [set_stack_self]
      have hold := h i
      rw [top, List.isChain_cons] at hold
      obtain ⟨hfs, hlast⟩ := hnew f rest fs g top rule
      apply hfs.append hold.2
      intro x hx y hy
      exact hlast x hx y hy (hold.1 y hy)
    · rw [set_stack_of_ne hi]
      exact h i

/-- The same where the last of them may stand wherever the frame that ran may. -/
theorem Chained.step {R : F → F → Prop} (h : s.Chained R) (hs : M.Moves s a s')
    (hnew : ∀ f fs g, M.rule f s.shared a.2 fs g →
      fs.IsChain R ∧ ∀ x ∈ fs.getLast?, ∀ y, R f y → R x y) : s'.Chained R := by
  apply h.step_on hs
  intro f _ fs g _ rule
  obtain ⟨hfs, hlast⟩ := hnew f fs g rule
  exact ⟨hfs, fun x hx y _ => hlast x hx y⟩

def Bottom (b : F) (s : Conf T F G) : Prop := ∀ t, (s.stack t).getLast? = some b

/-- It does so as long as a rule for that frame leaves it at the bottom. -/
theorem Bottom.step {b : F} (h : s.Bottom b) (hs : M.Moves s a s')
    (hnew : ∀ fs g, M.rule b s.shared a.2 fs g → fs.getLast? = some b) : s'.Bottom b := by
  cases hs with
  | @run t f rest fs e g top rule =>
    intro i
    by_cases hi : i = t
    · subst hi
      rw [set_stack_self]
      have hold := h i
      rw [top] at hold
      cases rest with
      | nil =>
        rw [List.getLast?_singleton, Option.some_inj] at hold
        subst hold
        rw [List.append_nil]
        exact hnew fs g rule
      | cons y ys =>
        rw [List.getLast?_append, List.getLast?_cons_cons.symm.trans hold]
        rfl
    · rw [set_stack_of_ne hi]
      exact h i

omit [DecidableEq T] in
/-- A frame that is not at the bottom stands on another one. -/
theorem Chained.below {R : F → F → Prop} {b x : F} {t : T} (h : s.Chained R) (hb : s.Bottom b)
    (hx : x ∈ s.stack t) (hne : x ≠ b) : ∃ y ∈ s.stack t, R x y := by
  have hchain := h t
  have hlast := hb t
  generalize s.stack t = l at hx hchain hlast
  induction l with
  | nil => exact absurd hx List.not_mem_nil
  | cons f rest ih =>
    cases rest with
    | nil =>
      rw [List.getLast?_singleton, Option.some_inj] at hlast
      exact absurd ((List.mem_singleton.mp hx).trans hlast) hne
    | cons y ys =>
      rw [List.isChain_cons_cons] at hchain
      rw [List.getLast?_cons_cons] at hlast
      rcases List.mem_cons.mp hx with rfl | hx
      · exact ⟨y, List.mem_cons_of_mem _ List.mem_cons_self, hchain.1⟩
      · obtain ⟨z, hz, hr⟩ := ih hx hchain.2 hlast
        exact ⟨z, List.mem_cons_of_mem _ hz, hr⟩

section Count
variable [Fintype T]

def total (c : F → ℕ) (s : Conf T F G) : ℕ := ∑ t, ((s.stack t).map c).sum

/-- A rule changes a count by what it replaces. -/
theorem total_set (c : F → ℕ) {t : T} {f : F} {rest : List F} (fs : List F) (g : G)
    (top : s.stack t = f :: rest) :
    (s.set t (fs ++ rest) g).total c + c f = total c s + (fs.map c).sum := by
  have hsum := sum_update_add (fun l : List F => (l.map c).sum) s.stack t (fs ++ rest)
  rw [top, List.map_cons, List.sum_cons, List.map_append, List.sum_append] at hsum
  simp only [total, set]
  omega

omit [DecidableEq T] in
theorem total_mono {c d : F → ℕ} (h : ∀ f, c f ≤ d f) : s.total c ≤ s.total d :=
  Finset.sum_le_sum fun _ _ => List.sum_le_sum fun f _ => h f

omit [DecidableEq T] in
theorem total_add (c d : F → ℕ) : s.total (fun f => c f + d f) = s.total c + s.total d := by
  simp only [total, List.sum_map_add, Finset.sum_add_distrib]

omit [DecidableEq T] in
theorem le_total (c : F → ℕ) {t : T} {f : F} (h : f ∈ s.stack t) : c f ≤ s.total c :=
  (List.le_sum_of_mem (List.mem_map_of_mem h)).trans
    (Finset.single_le_sum (f := fun i => ((s.stack i).map c).sum) (fun _ _ => Nat.zero_le _)
      (Finset.mem_univ t))

/-- Two frames of the stacks: the top of one, and another. -/
theorem le_total_pair (c : F → ℕ) {t i : T} {f x : F} {rest : List F} (top : s.stack t = f :: rest)
    (hx : i ≠ t ∧ x ∈ s.stack i ∨ x ∈ rest) : c f + c x ≤ s.total c := by
  have hle : ∀ {l : List F} {y : F}, y ∈ l → c y ≤ (l.map c).sum :=
    fun hy => List.le_sum_of_mem (List.mem_map_of_mem hy)
  have htop : ((s.stack t).map c).sum = c f + (rest.map c).sum := by
    rw [top, List.map_cons, List.sum_cons]
  rcases hx with ⟨hi, hx⟩ | hx
  · have hsum := Finset.add_sum_erase Finset.univ (fun j => ((s.stack j).map c).sum)
      (Finset.mem_univ t)
    have hother := Finset.single_le_sum (f := fun j => ((s.stack j).map c).sum)
      (fun _ _ => Nat.zero_le _) (Finset.mem_erase.mpr ⟨hi, Finset.mem_univ i⟩)
    have hxi := hle hx
    simp only [total]
    omega
  · have hall := Finset.single_le_sum (f := fun j => ((s.stack j).map c).sum)
      (fun _ _ => Nat.zero_le _) (Finset.mem_univ t)
    have hxr := hle hx
    simp only [total]
    omega

/-- An assertion holds after a rule when it was kept at the frames besides the one that ran and
holds at the frames that are new. -/
theorem Everywhere.step_others {A B : F → Prop} (h : s.Everywhere A) (hs : M.Moves s a s')
    (hkeep : ∀ f fs x, M.rule f s.shared a.2 fs s'.shared →
      (∀ c : F → ℕ, c f + c x ≤ s.total c) → A x → B x)
    (hnew : ∀ f fs, f ∈ s.stack a.1 → A f → M.rule f s.shared a.2 fs s'.shared → ∀ x ∈ fs, B x) :
    s'.Everywhere B := by
  cases hs with
  | @run t f rest fs e g top rule =>
    have hmem : f ∈ s.stack t := top ▸ List.mem_cons_self
    intro i x hx
    by_cases hi : i = t
    · subst hi
      rw [set_stack_self, List.mem_append] at hx
      rcases hx with hx | hx
      · exact hnew f fs hmem (h i f hmem) rule x hx
      · apply hkeep f fs x rule (fun c => le_total_pair c top (i := i) (.inr hx))
        exact h i x (top ▸ List.mem_cons_of_mem _ hx)
    · rw [set_stack_of_ne hi] at hx
      exact hkeep f fs x rule (fun c => le_total_pair c top (.inl ⟨hi, hx⟩)) (h i x hx)

omit [DecidableEq T] in
/-- A count that is not zero is due to some frame. -/
theorem exists_of_total_pos {c : F → ℕ} (h : 0 < s.total c) : ∃ t, ∃ f ∈ s.stack t, 0 < c f := by
  by_contra hnone
  push Not at hnone
  apply h.ne'
  apply Finset.sum_eq_zero
  intro t _
  apply List.sum_eq_zero
  intro n hn
  obtain ⟨f, hf, rfl⟩ := List.mem_map.mp hn
  exact Nat.le_zero.mp (hnone t f hf)

end Count
end Conf

end Uniorm.Foundation
