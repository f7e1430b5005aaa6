import Mathlib.Data.List.DropRight
import Mathlib.Data.List.Infix
import Mathlib.Tactic.Common

/-! # Searching and aligning separators in a text

A text is a list of letters. A separator whose first letter does not recur in
it cannot overlap itself, so two places where it stands in one text are equal
or disjoint; `separator_trichotomy` is that fact, and every ambiguity question
about texts joined by such a separator reduces to it.
-/
namespace Uniorm.Foundation

variable {α : Type*}

/-- The text before and after the first occurrence of a nonempty separator. -/
def breakOn [DecidableEq α] (sep : List α) : List α → Option (List α × List α)
  | [] => none
  | c :: cs =>
    if sep.isPrefixOf (c :: cs) then some ([], (c :: cs).drop sep.length)
    else (breakOn sep cs).map fun p => (c :: p.1, p.2)

theorem breakOn_cons [DecidableEq α] (sep : List α) (c : α) (cs : List α) : breakOn sep (c :: cs) =
    if sep.isPrefixOf (c :: cs) then some ([], (c :: cs).drop sep.length)
    else (breakOn sep cs).map fun p => (c :: p.1, p.2) := rfl

/-- The search splits the text at the separator. -/
theorem breakOn_eq [DecidableEq α] {sep text : List α} {r : List α × List α}
    (h : breakOn sep text = some r) : text = r.1 ++ sep ++ r.2 := by
  induction text generalizing r with
  | nil => cases h
  | cons c cs ih =>
    rw [breakOn_cons] at h
    split at h
    · rename_i hpre
      obtain rfl := Option.some.inj h
      rw [List.nil_append]
      exact (List.prefix_iff_eq_append.mp (List.isPrefixOf_iff_prefix.mp hpre)).symm
    · obtain ⟨p, hp, rfl⟩ := Option.map_eq_some_iff.mp h
      rw [ih hp]
      rfl

/-- No separator stands before the one the search finds. -/
theorem breakOn_first [DecidableEq α] {sep text : List α} {r : List α × List α}
    (h : breakOn sep text = some r) {a b : List α} (hab : text = a ++ sep ++ b) :
    r.1.length ≤ a.length := by
  induction text generalizing r a with
  | nil => cases h
  | cons c cs ih =>
    rw [breakOn_cons] at h
    split at h
    · obtain rfl := Option.some.inj h
      exact Nat.zero_le _
    · rename_i hpre
      obtain ⟨p, hp, rfl⟩ := Option.map_eq_some_iff.mp h
      cases a with
      | nil =>
        rw [hab, List.nil_append] at hpre
        exact absurd (List.isPrefixOf_iff_prefix.mpr (List.prefix_append sep b)) hpre
      | cons x a =>
        have hcs : cs = a ++ sep ++ b := (List.cons.inj hab).2
        exact Nat.succ_le_succ (ih hp hcs)

/-- The search finds a separator that is there. -/
theorem breakOn_isSome [DecidableEq α] {sep : List α} (hsep : sep ≠ []) (a b : List α) :
    (breakOn sep (a ++ sep ++ b)).isSome := by
  induction a with
  | nil =>
    cases sep with
    | nil => exact absurd rfl hsep
    | cons x sep => simp [breakOn_cons]
  | cons x a ih =>
    rw [List.cons_append, List.cons_append, breakOn_cons]
    split
    · rfl
    · rw [Option.isSome_map]
      exact ih

/-- A block free of the separator's first letter is skipped by the search. -/
theorem breakOn_append [DecidableEq α] {c : α} {r pre : List α} (hc : c ∉ pre) (s : List α) :
    breakOn (c :: r) (pre ++ s) = (breakOn (c :: r) s).map fun p => (pre ++ p.1, p.2) := by
  induction pre with
  | nil => simp
  | cons x pre ih =>
    have hx : (c == x) = false := by
      rw [beq_eq_false_iff_ne]
      exact fun h => hc (h ▸ List.mem_cons_self)
    have hrest : c ∉ pre := fun hm => hc (List.mem_cons_of_mem _ hm)
    simp [breakOn_cons, List.isPrefixOf, hx, ih hrest, Function.comp_def]

/-- Drop the letters satisfying `blank` from both ends. -/
def trimBy (blank : α → Bool) (s : List α) : List α := (s.dropWhile blank).rdropWhile blank

theorem trimBy_cons {blank : α → Bool} {c : α} (hc : blank c = true) (s : List α) :
    trimBy blank (c :: s) = trimBy blank s := by
  rw [trimBy, trimBy, List.dropWhile_cons_of_pos hc]

theorem trimBy_of_not_outer {blank : α → Bool} {s : List α} (hfirst : s.head?.any blank = false)
    (hlast : s.getLast?.any blank = false) : trimBy blank s = s := by
  have hfront : s.dropWhile blank = s := by
    cases s with
    | nil => rfl
    | cons c s =>
      have hc : blank c = false := hfirst
      exact List.dropWhile_cons_of_neg (by simp [hc])
  rw [trimBy, hfront, List.rdropWhile_eq_self_iff]
  intro hne
  rw [List.getLast?_eq_some_getLast hne] at hlast
  simpa using hlast

/-- A block free of `c` ends before any `c` of the text it stands in front of. -/
theorem prefix_before_letter {c : α} {r y a z : List α} (hc : c ∉ r)
    (h : r ++ y = a ++ c :: z) : ∃ w, a = r ++ w ∧ y = w ++ c :: z := by
  induction r generalizing a with
  | nil => exact ⟨a, rfl, h⟩
  | cons x r ih =>
    cases a with
    | nil =>
      have hx : x = c := (List.cons.inj h).1
      exact absurd (hx ▸ List.mem_cons_self) hc
    | cons a₀ a =>
      obtain ⟨rfl, htail⟩ := List.cons.inj h
      obtain ⟨w, rfl, hy⟩ := ih (fun hm => hc (List.mem_cons_of_mem _ hm)) htail
      exact ⟨w, rfl, hy⟩

/-- Two occurrences of a non-overlapping separator in one text coincide, or one of them ends
before the other begins. -/
theorem separator_trichotomy {c : α} {r x y a b : List α} (hc : c ∉ r)
    (h : x ++ (c :: r) ++ y = a ++ (c :: r) ++ b) :
    (x = a ∧ y = b) ∨
    (∃ w, a = x ++ (c :: r) ++ w ∧ y = w ++ (c :: r) ++ b) ∨
    (∃ w, x = a ++ (c :: r) ++ w ∧ b = w ++ (c :: r) ++ y) := by
  induction x generalizing a with
  | nil =>
    cases a with
    | nil => exact .inl ⟨rfl, by simpa using h⟩
    | cons a₀ a =>
      simp only [List.nil_append, List.cons_append, List.append_assoc, List.cons.injEq] at h
      obtain ⟨rfl, htail⟩ := h
      obtain ⟨w, rfl, hy⟩ := prefix_before_letter hc htail
      exact .inr (.inl ⟨w, by simp, by simpa using hy⟩)
  | cons x₀ x ih =>
    cases a with
    | nil =>
      simp only [List.nil_append, List.cons_append, List.append_assoc, List.cons.injEq] at h
      obtain ⟨rfl, htail⟩ := h
      obtain ⟨w, rfl, hb⟩ := prefix_before_letter hc htail.symm
      exact .inr (.inr ⟨w, by simp, by simpa using hb⟩)
    | cons a₀ a =>
      simp only [List.cons_append, List.cons.injEq] at h
      obtain ⟨rfl, htail⟩ := h
      rcases ih htail with ⟨rfl, rfl⟩ | ⟨w, rfl, rfl⟩ | ⟨w, rfl, rfl⟩
      · exact .inl ⟨rfl, rfl⟩
      · exact .inr (.inl ⟨w, rfl, rfl⟩)
      · exact .inr (.inr ⟨w, rfl, rfl⟩)

end Uniorm.Foundation
