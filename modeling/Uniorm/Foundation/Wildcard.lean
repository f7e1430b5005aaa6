import Mathlib.Data.List.Basic
import Mathlib.Tactic.Common

/-! # Search patterns

A pattern with an escape, a wildcard for one character and one for a run of
them. The escape is looked for first, so it also takes its meaning from a
wildcard that is the same character.
-/
namespace Uniorm.Foundation

variable {α : Type*}

/-- What a place of a pattern stands for. -/
inductive Wild (α : Type*) where
  | literal (a : α)
  | one
  | run
  deriving DecidableEq, Repr

/-- The characters with a meaning in a pattern. -/
structure Wildcards (α : Type*) where
  escape : α
  one : α
  run : α

section Reading
variable [DecidableEq α]

def Wildcards.read (w : Wildcards α) : List α → Option (List (Wild α))
  | [] => some []
  | a :: pattern =>
    if a = w.escape then
      match pattern with
      | [] => none
      | b :: pattern => (w.read pattern).map (.literal b :: ·)
    else if a = w.run then (w.read pattern).map (.run :: ·)
    else if a = w.one then (w.read pattern).map (.one :: ·)
    else (w.read pattern).map (.literal a :: ·)

variable (w : Wildcards α) {a : α} (pattern : List α)

theorem Wildcards.read_escape (b : α) :
    w.read (w.escape :: b :: pattern) = (w.read pattern).map (.literal b :: ·) := by
  rw [read, if_pos rfl]

theorem Wildcards.read_run (h : w.run ≠ w.escape) :
    w.read (w.run :: pattern) = (w.read pattern).map (.run :: ·) := by
  rw [read.eq_def]
  exact (if_neg h).trans (if_pos rfl)

theorem Wildcards.read_one (h : w.one ≠ w.escape) (hrun : w.one ≠ w.run) :
    w.read (w.one :: pattern) = (w.read pattern).map (.one :: ·) := by
  rw [read.eq_def]
  exact (if_neg h).trans ((if_neg hrun).trans (if_pos rfl))

theorem Wildcards.read_literal (h : a ≠ w.escape) (hrun : a ≠ w.run) (hone : a ≠ w.one) :
    w.read (a :: pattern) = (w.read pattern).map (.literal a :: ·) := by
  rw [read.eq_def]
  exact (if_neg h).trans ((if_neg hrun).trans (if_neg hone))

end Reading

/-- The texts that places match, a run any number of characters. -/
inductive Matches : List (Wild α) → List α → Prop where
  | nil : Matches [] []
  | literal {a : α} {places : List (Wild α)} {text : List α} (h : Matches places text) :
    Matches (.literal a :: places) (a :: text)
  | one {a : α} {places : List (Wild α)} {text : List α} (h : Matches places text) :
    Matches (.one :: places) (a :: text)
  | stop {places : List (Wild α)} {text : List α} (h : Matches places text) :
    Matches (.run :: places) text
  | more {a : α} {places : List (Wild α)} {text : List α} (h : Matches (.run :: places) text) :
    Matches (.run :: places) (a :: text)

def accepts [DecidableEq α] : List (Wild α) → List α → Bool
  | [], text => text.isEmpty
  | .literal a :: places, text => text.head? = some a && accepts places text.tail
  | .one :: places, text => text.head?.isSome && accepts places text.tail
  | .run :: places, text => text.tails.any (accepts places)

theorem matches_nil {text : List α} : Matches [] text ↔ text = [] := by
  constructor
  · intro h
    cases h
    rfl
  · rintro rfl
    exact .nil

theorem matches_literal {a : α} {places : List (Wild α)} {text : List α} :
    Matches (.literal a :: places) text ↔ ∃ rest, text = a :: rest ∧ Matches places rest := by
  constructor
  · intro h
    cases h with
    | literal h => exact ⟨_, rfl, h⟩
  · rintro ⟨rest, rfl, h⟩
    exact .literal h

theorem matches_one {places : List (Wild α)} {text : List α} :
    Matches (.one :: places) text ↔ ∃ a rest, text = a :: rest ∧ Matches places rest := by
  constructor
  · intro h
    cases h with
    | one h => exact ⟨_, _, rfl, h⟩
  · rintro ⟨a, rest, rfl, h⟩
    exact .one h

theorem matches_run {places : List (Wild α)} {text : List α} :
    Matches (.run :: places) text ↔ ∃ rest ∈ text.tails, Matches places rest := by
  induction text with
  | nil =>
    constructor
    · intro h
      cases h with
      | stop h => exact ⟨[], by simp, h⟩
    · rintro ⟨rest, hrest, h⟩
      obtain rfl : rest = [] := by simpa using hrest
      exact .stop h
  | cons a text ih =>
    constructor
    · intro h
      cases h with
      | stop h => exact ⟨_, by simp, h⟩
      | more h =>
        obtain ⟨rest, hrest, h⟩ := ih.mp h
        exact ⟨rest, by simp [hrest], h⟩
    · rintro ⟨rest, hrest, h⟩
      rw [List.tails, List.mem_cons] at hrest
      rcases hrest with rfl | hrest
      · exact .stop h
      · exact .more (ih.mpr ⟨rest, hrest, h⟩)

theorem accepts_iff [DecidableEq α] (places : List (Wild α)) (text : List α) :
    accepts places text = true ↔ Matches places text := by
  induction places generalizing text with
  | nil => simp [accepts, matches_nil]
  | cons place places ih =>
    cases place with
    | literal a =>
      rw [matches_literal]
      cases text with
      | nil => simp [accepts]
      | cons b text =>
        rw [accepts, Bool.and_eq_true, List.tail_cons, ih]
        simp
    | one =>
      rw [matches_one]
      cases text with
      | nil => simp [accepts]
      | cons b text =>
        rw [accepts, Bool.and_eq_true, List.tail_cons, ih]
        simp
    | run =>
      rw [matches_run, accepts, List.any_eq_true]
      simp only [ih]

instance [DecidableEq α] (places : List (Wild α)) (text : List α) :
    Decidable (Matches places text) := decidable_of_iff _ (accepts_iff places text)

theorem matches_literals {name text : List α} :
    Matches (name.map .literal) text ↔ text = name := by
  induction name generalizing text with
  | nil => exact matches_nil
  | cons a name ih =>
    rw [List.map_cons, matches_literal]
    simp [ih, eq_comm]

section Escape
variable [DecidableEq α] (w : Wildcards α)

/-- An escape in front of every character with a meaning. -/
def Wildcards.spell (name : List α) : List α :=
  name.flatMap fun a => if a = w.run ∨ a = w.one ∨ a = w.escape then [w.escape, a] else [a]

theorem Wildcards.read_spell (name : List α) :
    w.read (w.spell name) = some (name.map .literal) := by
  induction name with
  | nil => rfl
  | cons a name ih =>
    rw [Wildcards.spell, List.flatMap_cons]
    change w.read (_ ++ w.spell name) = _
    by_cases hmeant : a = w.run ∨ a = w.one ∨ a = w.escape
    · rw [if_pos hmeant, List.cons_append, List.cons_append, List.nil_append, w.read_escape, ih]
      rfl
    · obtain ⟨hrun, hone, hescape⟩ : a ≠ w.run ∧ a ≠ w.one ∧ a ≠ w.escape := by
        simpa only [not_or] using hmeant
      rw [if_neg hmeant, List.cons_append, List.nil_append, w.read_literal _ hescape hrun hone, ih]
      rfl

/-- A text without the escape matches itself, whatever wildcards are in it. -/
theorem Wildcards.read_self {text : List α} (h : w.escape ∉ text) :
    ∃ places, w.read text = some places ∧ Matches places text := by
  induction text with
  | nil => exact ⟨[], rfl, .nil⟩
  | cons a text ih =>
    obtain ⟨places, hread, hmatch⟩ := ih (List.not_mem_of_not_mem_cons h)
    have hne : a ≠ w.escape := fun heq => h (heq ▸ List.mem_cons_self)
    by_cases hrun : a = w.run
    · subst hrun
      refine ⟨.run :: places, ?_, .more (.stop hmatch)⟩
      rw [w.read_run _ hne, hread, Option.map_some]
    by_cases hone : a = w.one
    · subst hone
      refine ⟨.one :: places, ?_, .one hmatch⟩
      rw [w.read_one _ hne hrun, hread, Option.map_some]
    · refine ⟨.literal a :: places, ?_, .literal hmatch⟩
      rw [w.read_literal _ hne hrun hone, hread, Option.map_some]

end Escape

end Uniorm.Foundation
