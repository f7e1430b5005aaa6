import Mathlib.Data.Nat.Digits.Lemmas
import Mathlib.Order.Compare
import Mathlib.Tactic.Common

/-! # Digits from the most significant one on

The number a list of digits writes in a base, and the order of numbers told
digit by digit: lists of one length are compared at the first place where they
differ, and of two numbers without leading zeros the longer one is greater.
-/
namespace Uniorm.Foundation

open Nat (ofDigits)

variable {b : ℕ}

/-- The number the digits write, the most significant one first. -/
def number (b : ℕ) (digits : List ℕ) : ℕ := ofDigits b digits.reverse

@[simp] theorem number_nil : number b [] = 0 := rfl

theorem number_append (ds es : List ℕ) :
    number b (ds ++ es) = number b ds * b ^ es.length + number b es := by
  rw [number, List.reverse_append, Nat.ofDigits_append, List.length_reverse, ← number, ← number,
    Nat.mul_comm, Nat.add_comm]

/-- One digit more. -/
theorem number_concat (ds : List ℕ) (d : ℕ) : number b (ds ++ [d]) = number b ds * b + d := by
  rw [number_append, List.length_singleton, Nat.pow_one]
  simp [number]

theorem number_cons (d : ℕ) (ds : List ℕ) :
    number b (d :: ds) = d * b ^ ds.length + number b ds := by
  have h := number_append (b := b) [d] ds
  simpa [number] using h

theorem number_zero_cons (ds : List ℕ) : number b (0 :: ds) = number b ds := by
  rw [number_cons, Nat.zero_mul, Nat.zero_add]

/-- Zeros behind the last digit multiply by the base. -/
theorem number_append_zeros (ds : List ℕ) (k : ℕ) :
    number b (ds ++ List.replicate k 0) = number b ds * b ^ k := by
  rw [number_append, List.length_replicate, number, number, List.reverse_replicate,
    Nat.ofDigits_replicate_zero, Nat.add_zero]

theorem number_lt (hb : 1 < b) {ds : List ℕ} (h : ∀ d ∈ ds, d < b) :
    number b ds < b ^ ds.length := by
  rw [← List.length_reverse]
  exact Nat.ofDigits_lt_base_pow_length hb fun d hd => h d (List.mem_reverse.mp hd)

theorem number_eq_zero_iff (hb : 0 < b) {ds : List ℕ} : number b ds = 0 ↔ ∀ d ∈ ds, d = 0 := by
  induction ds with
  | nil => simp
  | cons d ds ih =>
    rw [number_cons, Nat.add_eq_zero_iff, ih, List.forall_mem_cons, Nat.mul_eq_zero,
      or_iff_left (Nat.pow_pos hb).ne']

def compareDigits : List ℕ → List ℕ → Ordering
  | d :: ds, e :: es => if d = e then compareDigits ds es else if d < e then .lt else .gt
  | _, _ => .eq

/-- Behind lists that are the same what follows decides. -/
theorem compareDigits_append {ds es : List ℕ} (hlength : ds.length = es.length) (ds' es' : List ℕ) :
    compareDigits (ds ++ ds') (es ++ es') =
      if compareDigits ds es = .eq then compareDigits ds' es' else compareDigits ds es := by
  induction ds generalizing es with
  | nil =>
    obtain rfl := List.length_eq_zero_iff.mp hlength.symm
    rfl
  | cons d ds ih =>
    cases es with
    | nil => cases hlength
    | cons e es =>
      rw [List.cons_append, List.cons_append, compareDigits, compareDigits, ih (Nat.succ.inj hlength)]
      by_cases heq : d = e
      · rw [if_pos heq, if_pos heq]
      · rw [if_neg heq, if_neg heq]
        by_cases hlt : d < e
        · rw [if_pos hlt, if_neg (by decide)]
        · rw [if_neg hlt, if_neg (by decide)]

theorem number_lt_of_head {d e : ℕ} {ds es : List ℕ} (hb : 1 < b) (hlength : ds.length = es.length)
    (hds : ∀ x ∈ ds, x < b) (hlt : d < e) : number b (d :: ds) < number b (e :: es) := by
  rw [number_cons, number_cons, hlength]
  have hless := number_lt hb hds
  rw [hlength] at hless
  calc d * b ^ es.length + number b ds < d * b ^ es.length + b ^ es.length :=
        Nat.add_lt_add_left hless _
    _ = (d + 1) * b ^ es.length := (Nat.succ_mul _ _).symm
    _ ≤ e * b ^ es.length := Nat.mul_le_mul_right _ hlt
    _ ≤ e * b ^ es.length + number b es := Nat.le_add_right _ _

theorem compareDigits_eq (hb : 1 < b) {ds es : List ℕ} (hlength : ds.length = es.length)
    (hds : ∀ d ∈ ds, d < b) (hes : ∀ e ∈ es, e < b) :
    compareDigits ds es = compare (number b ds) (number b es) := by
  induction ds generalizing es with
  | nil =>
    obtain rfl := List.length_eq_zero_iff.mp hlength.symm
    rfl
  | cons d ds ih =>
    cases es with
    | nil => cases hlength
    | cons e es =>
      have hlength' := Nat.succ.inj hlength
      obtain ⟨hd, hds'⟩ := List.forall_mem_cons.mp hds
      obtain ⟨he, hes'⟩ := List.forall_mem_cons.mp hes
      rw [compareDigits]
      by_cases heq : d = e
      · subst heq
        rw [if_pos rfl, ih hlength' hds' hes', number_cons, number_cons, hlength']
        simp only [Nat.compare_eq_ite_lt]
        split_ifs <;> first | rfl | omega
      · rw [if_neg heq]
        by_cases hlt : d < e
        · rw [if_pos hlt]
          exact (compare_lt_iff_lt.mpr (number_lt_of_head hb hlength' hds' hlt)).symm
        · rw [if_neg hlt]
          have hgt : e < d := by omega
          exact (compare_gt_iff_gt.mpr (number_lt_of_head hb hlength'.symm hes' hgt)).symm

/-- Of two numbers the one with more digits is greater, where its first digit is not zero. -/
theorem number_lt_of_length (hb : 1 < b) {ds es : List ℕ} (hds : ∀ d ∈ ds, d < b)
    (hlength : ds.length < es.length) (hhead : es.head? ≠ some 0) : number b ds < number b es := by
  cases es with
  | nil => cases hlength
  | cons e es =>
    have he : 0 < e := Nat.pos_of_ne_zero fun h => hhead (by rw [h]; rfl)
    have hle : ds.length ≤ es.length := Nat.le_of_lt_succ hlength
    rw [number_cons]
    calc number b ds < b ^ ds.length := number_lt hb hds
      _ ≤ b ^ es.length := Nat.pow_le_pow_right (Nat.lt_of_succ_lt hb) hle
      _ ≤ e * b ^ es.length := Nat.le_mul_of_pos_left _ he
      _ ≤ e * b ^ es.length + number b es := Nat.le_add_right _ _

/-- The digits without the zeros in front of them, one digit kept. -/
def trimZeros : List ℕ → List ℕ
  | 0 :: d :: ds => trimZeros (d :: ds)
  | ds => ds

/-- Only zeros in front go, what is left begins with a zero only where it is the zero, and digits
without zeros in front stay. -/
theorem trimZeros_spec (ds : List ℕ) :
    (∃ k, ds = List.replicate k 0 ++ trimZeros ds) ∧ (ds ≠ [] → trimZeros ds ≠ []) ∧
      (1 < (trimZeros ds).length → (trimZeros ds).head? ≠ some 0) ∧
      ((1 < ds.length → ds.head? ≠ some 0) → trimZeros ds = ds) := by
  fun_induction trimZeros ds with
  | case1 d ds ih =>
    obtain ⟨⟨k, hk⟩, hne, hhead, -⟩ := ih
    refine ⟨⟨k + 1, ?_⟩, fun _ => hne (List.cons_ne_nil _ _), hhead, fun hzero => ?_⟩
    · rw [List.replicate_succ, List.cons_append, ← hk]
    · exact absurd rfl (hzero (Nat.succ_lt_succ (Nat.succ_pos _)))
  | case2 ds hne =>
    refine ⟨⟨0, rfl⟩, id, fun hlength hzero => ?_, fun _ => rfl⟩
    cases ds with
    | nil => cases hlength
    | cons d ds =>
      cases ds with
      | nil => exact absurd hlength (lt_irrefl 1)
      | cons e es =>
        obtain rfl := Option.some.inj hzero
        exact hne e es rfl

theorem trimZeros_eq (ds : List ℕ) : ∃ k, ds = List.replicate k 0 ++ trimZeros ds :=
  (trimZeros_spec ds).1

theorem trimZeros_ne_nil {ds : List ℕ} (h : ds ≠ []) : trimZeros ds ≠ [] :=
  (trimZeros_spec ds).2.1 h

theorem trimZeros_head {ds : List ℕ} (h : 1 < (trimZeros ds).length) :
    (trimZeros ds).head? ≠ some 0 :=
  (trimZeros_spec ds).2.2.1 h

theorem trimZeros_of_head {ds : List ℕ} (h : 1 < ds.length → ds.head? ≠ some 0) :
    trimZeros ds = ds :=
  (trimZeros_spec ds).2.2.2 h

theorem trimZeros_singleton (d : ℕ) : trimZeros [d] = [d] :=
  trimZeros_of_head fun h => absurd h (lt_irrefl 1)

theorem trimZeros_cons_of_ne {d : ℕ} (h : d ≠ 0) (ds : List ℕ) : trimZeros (d :: ds) = d :: ds :=
  trimZeros_of_head fun _ hzero => h (Option.some.inj hzero)

theorem number_replicate_append (k : ℕ) (ds : List ℕ) :
    number b (List.replicate k 0 ++ ds) = number b ds := by
  induction k with
  | zero => rfl
  | succ k ih => rw [List.replicate_succ, List.cons_append, number_zero_cons, ih]

theorem number_trimZeros (ds : List ℕ) : number b (trimZeros ds) = number b ds := by
  obtain ⟨k, hk⟩ := trimZeros_eq ds
  conv_rhs => rw [hk, number_replicate_append]

end Uniorm.Foundation
