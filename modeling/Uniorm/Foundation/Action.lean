import Mathlib.Data.List.Forall2
import Mathlib.Data.PNat.Basic
import Mathlib.Tactic.Common
import Uniorm.Foundation.Lists

/-! # Stateful code that may throw

An action runs in a state and returns or throws; what it has done to the state by then stays. A
triple says what holds of the state when it returns and when it throws. The rules follow the way
such code is put together: sequence, branch, a loop that works through a number of items in blocks,
and a scope that is closed on either way out.
-/
namespace Uniorm.Foundation

universe u v w

/-- A sequence returns when both of its parts do. -/
theorem bind_eq_ok {ε : Type v} {α β : Type w} {x : Except ε α} {f : α → Except ε β} {b : β} :
    (x >>= f) = .ok b ↔ ∃ a, x = .ok a ∧ f a = .ok b := by
  cases x with
  | error e => exact ⟨nofun, fun ⟨_, ha, _⟩ => nomatch ha⟩
  | ok a =>
    constructor
    · exact fun h => ⟨a, rfl, h⟩
    · rintro ⟨a', ha, h⟩
      obtain rfl := Except.ok.inj ha
      exact h

/-- Another error makes no difference to what is returned. -/
theorem mapError_eq_ok {ε ε' : Type v} {α : Type w} {f : ε → ε'} {x : Except ε α} {a : α} :
    x.mapError f = .ok a ↔ x = .ok a := by
  cases x with
  | error e =>
    constructor
    · intro h
      cases h
    · intro h
      cases h
  | ok b =>
    constructor
    · exact fun h => congrArg Except.ok (Except.ok.inj h)
    · exact fun h => congrArg Except.ok (Except.ok.inj h)

theorem map_eq_ok {ε : Type v} {α β : Type w} {f : α → β} {x : Except ε α} {b : β} :
    x.map f = .ok b ↔ ∃ a, x = .ok a ∧ f a = b := by
  cases x with
  | error e =>
    constructor
    · intro h
      cases h
    · rintro ⟨a, ha, _⟩
      cases ha
  | ok a =>
    constructor
    · exact fun h => ⟨a, rfl, Except.ok.inj h⟩
    · rintro ⟨a', ha, rfl⟩
      obtain rfl := Except.ok.inj ha
      rfl

/-- A list is worked through when every item is. -/
theorem forall₂_of_mapM {ε : Type v} {α : Type u} {β : Type w} {f : α → Except ε β} {l : List α}
    {r : List β} (h : l.mapM f = .ok r) : List.Forall₂ (fun a b => f a = .ok b) l r := by
  induction l generalizing r with
  | nil =>
    obtain rfl := Except.ok.inj h
    exact .nil
  | cons a l ih =>
    rw [List.mapM_cons] at h
    obtain ⟨b, hb, hrest⟩ := bind_eq_ok.mp h
    obtain ⟨bs, hbs, hall⟩ := bind_eq_ok.mp hrest
    obtain rfl := Except.ok.inj hall
    exact .cons hb (ih hbs)

theorem eq_map_of_forall₂ {α β : Type*} {f : α → β} {l : List α} {rs : List β}
    (h : List.Forall₂ (fun a r => r = f a) l rs) : rs = l.map f := by
  induction h with
  | nil => rfl
  | cons hi _ ih => rw [List.map_cons, hi, ih]

/-- Code over a state of type `σ` that may throw an `ε`. -/
def Action (σ : Type u) (ε : Type v) (α : Type w) : Type (max u v w) := σ → Except ε α × σ

namespace Action
variable {σ : Type u} {ε : Type v} {α β : Type w}

protected def pure (a : α) : Action σ ε α := fun s => (.ok a, s)

protected def bind (x : Action σ ε α) (f : α → Action σ ε β) : Action σ ε β := fun s =>
  match x s with
  | (.ok a, s') => f a s'
  | (.error e, s') => (.error e, s')

instance : Monad (Action.{u, v, w} σ ε) where
  pure := Action.pure
  bind := Action.bind

protected theorem bind_pure (x : Action σ ε α) : Action.bind x Action.pure = x := by
  funext s
  unfold Action.bind Action.pure
  rcases x s with ⟨r, s'⟩
  cases r <;> rfl

protected theorem bind_assoc {γ : Type w} (x : Action σ ε α) (f : α → Action σ ε β)
    (g : β → Action σ ε γ) :
    Action.bind (Action.bind x f) g = Action.bind x fun a => Action.bind (f a) g := by
  funext s
  unfold Action.bind
  rcases x s with ⟨r, s'⟩
  cases r <;> rfl

instance : LawfulMonad (Action.{u, v, w} σ ε) :=
  LawfulMonad.mk' _ Action.bind_pure (fun _ _ => rfl) Action.bind_assoc

def throw (e : ε) : Action σ ε α := fun s => (.error e, s)

/-- A pure computation that may throw. -/
def lift (r : Except ε α) : Action σ ε α := fun s => (r, s)

/-- Code that returns, given what it does. -/
def update (f : σ → σ) (a : α) : Action σ ε α := fun s => (.ok a, f s)

/-- A part of the state. -/
def read (f : σ → α) : Action σ ε α := fun s => (.ok (f s), s)

/-- Code that runs on the way out, whether `x` returns or throws. -/
def closing (x : Action σ ε α) (close : σ → σ) : Action σ ε α := fun s => ((x s).1, close (x s).2)

/-- `for (i = start; i < count; i += step)`, with a running total: the body is given `i` and how many
items it is to take. -/
def sweep (count : ℕ) (step : ℕ+) (body : ℕ → ℕ → Action σ ε ℕ) (start total : ℕ) :
    Action σ ε ℕ :=
  if start < count then do
    let n ← body start (min (step : ℕ) (count - start))
    sweep count step body (start + step) (total + n)
  else pure total
termination_by count - start
decreasing_by
  have hstep := step.pos
  omega

/-- A loop whose first block takes all items. -/
theorem sweep_of_le {count : ℕ} {step : ℕ+} (body : ℕ → ℕ → Action σ ε ℕ) (hcount : 0 < count)
    (hstep : count ≤ step) (total : ℕ) :
    sweep count step body 0 total = body 0 count >>= fun n => pure (total + n) := by
  rw [sweep, if_pos hcount, Nat.sub_zero, Nat.min_eq_right hstep, Nat.zero_add]
  congr 1
  funext n
  rw [sweep, if_neg (Nat.not_lt.mpr hstep)]

/-- What holds when an action that is run where `P` holds returns, and when it throws. -/
def Triple (P : σ → Prop) (x : Action σ ε α) (Q : α → σ → Prop) (E : ε → σ → Prop) : Prop :=
  ∀ s, P s → (∀ a, (x s).1 = .ok a → Q a (x s).2) ∧ ∀ e, (x s).1 = .error e → E e (x s).2

variable {P P' : σ → Prop} {Q Q' : α → σ → Prop} {R : β → σ → Prop} {E E' : ε → σ → Prop}
  {x : Action σ ε α} {f : α → Action σ ε β}

namespace Triple

theorem pure {a : α} (h : ∀ s, P s → Q a s) : Triple P (pure a : Action σ ε α) Q E := by
  intro s hs
  refine ⟨fun b hb => ?_, nofun⟩
  obtain rfl := Except.ok.inj hb
  exact h s hs

theorem throw {e : ε} (h : ∀ s, P s → E e s) : Triple P (throw e : Action σ ε α) Q E := by
  intro s hs
  refine ⟨nofun, fun e' he => ?_⟩
  obtain rfl := Except.error.inj he
  exact h s hs

theorem lift {r : Except ε α} (hok : ∀ s a, P s → r = .ok a → Q a s)
    (herror : ∀ s e, P s → r = .error e → E e s) : Triple P (lift r) Q E :=
  fun s hs => ⟨fun a ha => hok s a hs ha, fun e he => herror s e hs he⟩

theorem update {g : σ → σ} {a : α} (h : ∀ s, P s → Q a (g s)) :
    Triple P (update g a : Action σ ε α) Q E := by
  intro s hs
  refine ⟨fun b hb => ?_, nofun⟩
  obtain rfl := Except.ok.inj hb
  exact h s hs

theorem read {g : σ → α} (h : ∀ s, P s → Q (g s) s) : Triple P (read g : Action σ ε α) Q E := by
  intro s hs
  refine ⟨fun b hb => ?_, nofun⟩
  obtain rfl := Except.ok.inj hb
  exact h s hs

/-- What the first part throws is thrown, and the second starts where the first returned. -/
theorem bind (hx : Triple P x Q E) (hf : ∀ a, Triple (Q a) (f a) R E) :
    Triple P (x >>= f) R E := by
  intro s hs
  have hfirst := hx s hs
  have hdef : (x >>= f) s = Action.bind x f s := rfl
  rw [hdef, Action.bind]
  rcases hrun : x s with ⟨r, s'⟩
  rw [hrun] at hfirst
  cases r with
  | error e =>
    refine ⟨nofun, fun e' he => ?_⟩
    obtain rfl := Except.error.inj he
    exact hfirst.2 e rfl
  | ok a => exact hf a s' (hfirst.1 a rfl)

theorem mono (hx : Triple P x Q E) (hP : ∀ s, P' s → P s) (hQ : ∀ a s, Q a s → Q' a s)
    (hE : ∀ e s, E e s → E' e s) : Triple P' x Q' E' := by
  intro s hs
  obtain ⟨hok, herror⟩ := hx s (hP s hs)
  exact ⟨fun a ha => hQ a _ (hok a ha), fun e he => hE e _ (herror e he)⟩

theorem closing {close : σ → σ}
    (hx : Triple P x (fun a s => Q a (close s)) fun e s => E e (close s)) :
    Triple P (x.closing close) Q E := hx

/-- A loop keeps an invariant of the number of items taken and the total, if its body does. -/
theorem sweep {count : ℕ} {step : ℕ+} {body : ℕ → ℕ → Action σ ε ℕ} {I : ℕ → ℕ → σ → Prop}
    (hbody : ∀ start total, start < count →
      Triple (I start total) (body start (min (step : ℕ) (count - start)))
        (fun n => I (start + min (step : ℕ) (count - start)) (total + n)) E) (start total : ℕ) :
    Triple (I (min start count) total) (sweep count step body start total) (I count) E := by
  induction hleft : count - start using Nat.strong_induction_on generalizing start total with
  | _ left ih =>
    rw [Action.sweep]
    by_cases hstart : start < count
    · rw [if_pos hstart, Nat.min_eq_left hstart.le]
      apply (hbody start total hstart).bind
      intro n
      have hstep := step.pos
      have hnext : start + min (step : ℕ) (count - start) = min (start + step) count := by omega
      rw [hnext]
      exact ih (count - (start + step)) (by omega) (start + step) (total + n) rfl
    · rw [if_neg hstart, Nat.min_eq_right (Nat.le_of_not_lt hstart)]
      exact Triple.pure fun s hs => hs

end Triple

def Returns (x : Action σ ε α) : Prop := ∀ s, ∃ a, (x s).1 = .ok a

namespace Returns

theorem pure (a : α) : Returns (pure a : Action σ ε α) := fun _ => ⟨a, rfl⟩

theorem lift_bind {r : Except ε α} {a : α} (h : r = .ok a) (hf : Returns (f a)) :
    Returns (Action.lift r >>= f) := by
  subst h
  exact hf

theorem update (g : σ → σ) (a : α) : Returns (Action.update g a : Action σ ε α) := fun _ => ⟨a, rfl⟩

theorem read (g : σ → α) : Returns (Action.read g : Action σ ε α) := fun s => ⟨g s, rfl⟩

theorem bind (hx : Returns x) (hf : ∀ a, Returns (f a)) : Returns (x >>= f) := by
  intro s
  obtain ⟨a, ha⟩ := hx s
  obtain ⟨b, hb⟩ := hf a (x s).2
  refine ⟨b, ?_⟩
  have hdef : (x >>= f) s = Action.bind x f s := rfl
  rw [hdef, Action.bind]
  rcases hrun : x s with ⟨r, s'⟩
  rw [hrun] at ha hb
  obtain rfl : r = .ok a := ha
  exact hb

theorem closing (hx : Returns x) (close : σ → σ) : Returns (x.closing close) := hx

theorem sweep {count : ℕ} {step : ℕ+} {body : ℕ → ℕ → Action σ ε ℕ}
    (hbody : ∀ start n, Returns (body start n)) (start total : ℕ) :
    Returns (sweep count step body start total) := by
  induction hleft : count - start using Nat.strong_induction_on generalizing start total with
  | _ left ih =>
    rw [Action.sweep]
    by_cases hstart : start < count
    · rw [if_pos hstart]
      have hstep := step.pos
      apply (hbody start _).bind
      intro n
      exact ih (count - (start + step)) (by omega) (start + step) (total + n) rfl
    · rw [if_neg hstart]
      exact Returns.pure total

end Returns

end Action

end Uniorm.Foundation
