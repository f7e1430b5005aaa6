import Mathlib.Data.List.Basic
import Mathlib.Tactic.Common
import Uniorm.Sql.Token

/-! # Placeholders of a statement text

A statement is read as a sequence of pieces: text that stays as it is, marks,
doubled marks and parameters it already spells. Writing the pieces out again
numbers the marks from left to right; `markOffsets` says where the numbers come
to stand and `paramOffsets` where a server finds them.
-/
namespace Uniorm.Sql

inductive Piece where
  | copied (s : Text)
  | pair
  | mark
  | param (digits : Text)
  deriving DecidableEq, Repr

/-- `std::to_string`. -/
def numeral (n : ℕ) : Text := Nat.toDigits 10 n

namespace Piece

/-- The text a piece was read from; `sigil` stands in front of a parameter's digits. -/
def source (sigil : Char) : Piece → Text
  | copied s => s
  | pair => ['?', '?']
  | mark => ['?']
  | param digits => sigil :: digits

/-- What is written for a piece when `n` marks came before it. -/
def written (sigil : Char) (n : ℕ) : Piece → Text
  | copied s => s
  | pair => ['?']
  | mark => sigil :: numeral (n + 1)
  | param digits => sigil :: digits

def marks : Piece → ℕ
  | mark => 1
  | _ => 0

end Piece

def markCount : List Piece → ℕ
  | [] => 0
  | p :: ps => p.marks + markCount ps

/-- The pieces written out, the marks numbered from `n + 1` on. -/
def emit (sigil : Char) : ℕ → List Piece → Text
  | _, [] => []
  | n, p :: ps => p.written sigil n ++ emit sigil (n + p.marks) ps

def markOffsets (sigil : Char) : ℕ → ℕ → List Piece → List (ℕ × Text)
  | _, _, [] => []
  | k, n, p :: ps =>
    let rest := markOffsets sigil (k + (p.written sigil n).length) (n + p.marks) ps
    match p with
    | .mark => (k, numeral (n + 1)) :: rest
    | _ => rest

def paramOffsets (sigil : Char) : ℕ → List Piece → List (ℕ × Text)
  | _, [] => []
  | k, p :: ps =>
    let rest := paramOffsets sigil (k + (p.source sigil).length) ps
    match p with
    | .param digits => (k, digits) :: rest
    | _ => rest

@[simp] theorem markCount_nil : markCount [] = 0 := rfl

@[simp] theorem markCount_cons (p : Piece) (ps : List Piece) :
    markCount (p :: ps) = p.marks + markCount ps := rfl

@[simp] theorem emit_nil (sigil : Char) (n : ℕ) : emit sigil n [] = [] := rfl

@[simp] theorem emit_cons (sigil : Char) (n : ℕ) (p : Piece) (ps : List Piece) :
    emit sigil n (p :: ps) = p.written sigil n ++ emit sigil (n + p.marks) ps := rfl

/-- The two texts begin alike, or with a mark and with what is written for one. -/
def Swapped (sigil : Char) (t o : Text) : Prop :=
  o.head? = t.head? ∨ t.head? = some '?' ∧ o.head? = some sigil

theorem Swapped.head?_ne {sigil : Char} {t o : Text} (h : Swapped sigil t o) {c : Char}
    (hc : c ≠ sigil) (ht : t.head? ≠ some c) : o.head? ≠ some c := by
  rcases h with h | ⟨-, h⟩
  · rwa [h]
  · rw [h]
    exact fun hd => hc (Option.some.inj hd).symm

theorem numeral_ne_nil (n : ℕ) : numeral n ≠ [] := Nat.toDigits_ne_nil

theorem isDigit_of_mem_numeral {n : ℕ} {c : Char} (h : c ∈ numeral n) : c.isDigit = true :=
  Nat.isDigit_of_mem_toDigits (by decide) (by decide) h

/-- The numbers written are one after the other. -/
theorem markOffsets_numerals (sigil : Char) (k n : ℕ) (ps : List Piece) :
    (markOffsets sigil k n ps).map Prod.snd =
      (List.range (markCount ps)).map fun i => numeral (n + i + 1) := by
  induction ps generalizing k n with
  | nil => rfl
  | cons p ps ih =>
    cases p with
    | mark =>
      rw [markOffsets, markCount_cons, Piece.marks, Nat.add_comm 1, List.range_succ_eq_map]
      simp only [List.map_cons, List.map_map, ih, List.cons.injEq, Nat.add_zero, true_and]
      apply List.map_congr_left
      intro i _
      simp only [Function.comp_apply, Nat.succ_eq_add_one]
      congr 1
      omega
    | copied s => simpa [markOffsets, Piece.marks] using ih _ _
    | pair => simpa [markOffsets, Piece.marks] using ih _ _
    | param ds => simpa [markOffsets, Piece.marks] using ih _ _

/-- No parameter stands before the place the reading begins at. -/
theorem le_of_mem_paramOffsets {sigil : Char} {k : ℕ} {ps : List Piece} {x : ℕ × Text}
    (h : x ∈ paramOffsets sigil k ps) : k ≤ x.1 := by
  induction ps generalizing k with
  | nil => cases h
  | cons p ps ih =>
    cases p with
    | param ds =>
      rcases List.mem_cons.mp h with rfl | h
      · exact Nat.le_refl _
      · exact Nat.le_trans (Nat.le_add_right _ _) (ih h)
    | copied s => exact Nat.le_trans (Nat.le_add_right _ _) (ih h)
    | pair => exact Nat.le_trans (Nat.le_add_right _ _) (ih h)
    | mark => exact Nat.le_trans (Nat.le_add_right _ _) (ih h)

end Uniorm.Sql
