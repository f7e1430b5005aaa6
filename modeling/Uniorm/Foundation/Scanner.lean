import Mathlib.Data.List.Basic
import Mathlib.Tactic.Common

/-! # Reading a text piece by piece

A scanner takes one piece at a time off the front of a text and stops at the
end of it. What it reads next depends on a state and on the text that is left.
No step gives back more than it was handed, so the length of the text bounds
the number of steps; `read_of_step` is the loop without that bound.
-/
namespace Uniorm.Foundation

/-- One step of a reader: the piece, the state behind it and the rest of the text. -/
structure Scanner (σ α β ε : Type*) where
  step : σ → α → List α → Except ε (β × σ × List α)
  shortens : ∀ {s c cs r}, step s c cs = .ok r → r.2.2.length ≤ cs.length

namespace Scanner
variable {σ α β ε : Type*} (S : Scanner σ α β ε) {s : σ} {c : α} {cs : List α}

/-- The pieces read in at most `n` steps. -/
def readFor : ℕ → σ → List α → Except ε (List β)
  | 0, _, _ => .ok []
  | _ + 1, _, [] => .ok []
  | n + 1, s, c :: cs =>
    match S.step s c cs with
    | .error e => .error e
    | .ok r => (readFor n r.2.1 r.2.2).map (r.1 :: ·)

def read (s : σ) (text : List α) : Except ε (List β) := S.readFor text.length s text

theorem readFor_of_length_le {n : ℕ} {text : List α} (h : text.length ≤ n) :
    S.readFor n s text = S.read s text := by
  induction n using Nat.strongRecOn generalizing s text with
  | ind n ih =>
    cases text with
    | nil => cases n <;> rfl
    | cons c cs =>
      cases n with
      | zero => simp at h
      | succ n =>
        have hcs : cs.length ≤ n := Nat.le_of_succ_le_succ h
        rw [read, List.length_cons, readFor, readFor]
        cases hstep : S.step s c cs with
        | error e => rfl
        | ok r =>
          have hr : r.2.2.length ≤ cs.length := S.shortens hstep
          have hleft := ih n (Nat.lt_succ_self n) (s := r.2.1) (Nat.le_trans hr hcs)
          have hright := ih cs.length (Nat.lt_succ_of_le hcs) (s := r.2.1) hr
          simp only [hleft, hright]

@[simp] theorem read_nil (s : σ) : S.read s [] = .ok [] := rfl

/-- The loop: one step, then the rest of the text. -/
theorem read_of_step {r : β × σ × List α} (h : S.step s c cs = .ok r) :
    S.read s (c :: cs) = (S.read r.2.1 r.2.2).map (r.1 :: ·) := by
  rw [read, List.length_cons, readFor, h]
  simp only [S.readFor_of_length_le (S.shortens h)]

theorem read_of_error {e : ε} (h : S.step s c cs = .error e) : S.read s (c :: cs) = .error e := by
  rw [read, List.length_cons, readFor, h]

/-- The steps of a reading that comes to the end of its text. -/
inductive Reads : σ → List α → List β → Prop where
  | done (s : σ) : Reads s [] []
  | next {s : σ} {c : α} {cs : List α} {r : β × σ × List α} {bs : List β}
    (h : S.step s c cs = .ok r) (hrest : Reads r.2.1 r.2.2 bs) : Reads s (c :: cs) (r.1 :: bs)

theorem read_eq_ok_iff {text : List α} {bs : List β} :
    S.read s text = .ok bs ↔ S.Reads s text bs := by
  constructor
  · intro h
    induction hn : text.length using Nat.strongRecOn generalizing s text bs with
    | ind n ih =>
      cases text with
      | nil =>
        obtain rfl := Except.ok.inj h
        exact .done s
      | cons c cs =>
        cases hstep : S.step s c cs with
        | error e =>
          rw [S.read_of_error hstep] at h
          cases h
        | ok r =>
          rw [S.read_of_step hstep] at h
          cases hread : S.read r.2.1 r.2.2 with
          | error e =>
            rw [hread] at h
            cases h
          | ok rest =>
            rw [hread] at h
            obtain rfl := Except.ok.inj h
            have hlt : r.2.2.length < n := by
              rw [← hn]
              exact Nat.lt_succ_of_le (S.shortens hstep)
            exact .next hstep (ih _ hlt hread rfl)
  · intro h
    induction h with
    | done => rfl
    | next hstep _ ih =>
      rw [S.read_of_step hstep, ih]
      rfl

end Scanner

end Uniorm.Foundation
