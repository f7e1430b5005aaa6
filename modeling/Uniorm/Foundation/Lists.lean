import Mathlib.Data.List.Forall2
import Mathlib.Data.List.Nodup
import Mathlib.Order.Nat
import Mathlib.Tactic.Common

/-! # Lists

Items that are changed at a place, found by a test, or worked through one after the other.
-/
namespace Uniorm.Foundation

universe u v w

theorem modify_of_id {α : Type*} {f : α → α} (h : ∀ a, f a = a) (l : List α) (n : ℕ) :
    l.modify n f = l := by
  rw [show f = id from funext h, List.modify_id]

theorem modify_congr {α : Type} {l : List α} {n : ℕ} {a : α} (ha : l[n]? = some a) {f g : α → α}
    (h : f a = g a) : l.modify n f = l.modify n g := by
  refine List.ext_getElem? fun m => ?_
  rw [List.getElem?_modify, List.getElem?_modify]
  by_cases hm : n = m
  · subst hm
    simp [ha, h]
  · simp [hm]

theorem modify_comm {α : Type} {f g : α → α} (h : ∀ a, f (g a) = g (f a)) (l : List α) (i j : ℕ) :
    (l.modify i f).modify j g = (l.modify j g).modify i f := by
  by_cases hij : i = j
  · subst hij
    rw [List.modify_modify_eq, List.modify_modify_eq, show g ∘ f = f ∘ g from funext fun a => (h a).symm]
  · exact List.modify_modify_ne f g l hij

theorem modify_append_left {α : Type} (f : α → α) {l : List α} {k : ℕ} (hk : k < l.length) (l' : List α) :
    (l ++ l').modify k f = l.modify k f ++ l' := by
  induction l generalizing k with
  | nil => cases hk
  | cons a l ih =>
    cases k with
    | zero => rfl
    | succ k => exact congrArg (a :: ·) (ih (Nat.lt_of_succ_lt_succ hk))

theorem modify_length_append {α : Type} (f : α → α) (l : List α) (a : α) :
    (l ++ [a]).modify l.length f = l ++ [f a] := by
  induction l with
  | nil => rfl
  | cons b l ih => exact congrArg (b :: ·) ih

/-- A list in which something holds of an item has a last such item. -/
theorem exists_last {α : Type*} {p : α → Bool} {l : List α} (h : ∃ a ∈ l, p a = true) :
    ∃ earlier a later, l = earlier ++ a :: later ∧ p a = true ∧ ∀ b ∈ later, p b = false := by
  induction l with
  | nil => exact absurd h (by simp)
  | cons a l ih =>
    by_cases hmore : ∃ b ∈ l, p b = true
    · obtain ⟨earlier, b, later, rfl, hb, hlater⟩ := ih hmore
      exact ⟨a :: earlier, b, later, rfl, hb, hlater⟩
    · have hnone : ∀ b ∈ l, p b = false := fun b hb => by
        by_contra hp
        exact hmore ⟨b, hb, by simpa using hp⟩
      obtain ⟨b, hb, hp⟩ := h
      rcases List.mem_cons.mp hb with rfl | hb
      · exact ⟨[], b, l, rfl, hp, hnone⟩
      · exact absurd hp (by simp [hnone b hb])

/-- The only element a test holds of is found at its own place. -/
theorem findIdx?_map_of_unique {α β : Type*} {l : List α} {f : α → β} {p : β → Bool} {a : α} {k : ℕ}
    (hl : l.Nodup) (hk : l[k]? = some a) (hp : p (f a) = true) (honly : ∀ b, p (f b) = true → b = a) :
    (l.map f).findIdx? p = some k := by
  obtain ⟨hlt, hget⟩ := List.getElem?_eq_some_iff.mp hk
  rw [List.findIdx?_eq_some_iff_getElem]
  refine ⟨by simpa using hlt, by simpa [hget] using hp, ?_⟩
  intro j hj hpj
  have hja : l[j] = a := honly _ (by simpa using hpj)
  have heq : l[j] = l[k] := hja.trans hget.symm
  have hjk := hl.getElem_inj_iff.mp heq
  exact absurd hjk hj.ne

theorem filterMap_append_none {α β : Type} {f : α → Option β} {a : α} {l : List α} (h : f a = none) :
    (l ++ [a]).filterMap f = l.filterMap f := by
  rw [List.filterMap_append, List.filterMap_cons_none h, List.filterMap_nil, List.append_nil]

theorem filterMap_append_some {α β : Type} {f : α → Option β} {a : α} {b : β} {l : List α}
    (h : f a = some b) : (l ++ [a]).filterMap f = l.filterMap f ++ [b] := by
  rw [List.filterMap_append, List.filterMap_cons_some h, List.filterMap_nil]

/-- Two pieces, none of them longer than it was, make up the whole only if both are whole. -/
theorem append_eq_append_iff_of_length_le {α : Type*} {a b a' b' : List α} (ha : a'.length ≤ a.length)
    (hb : b'.length ≤ b.length) : a' ++ b' = a ++ b ↔ a' = a ∧ b' = b := by
  constructor
  · intro h
    have hlen := congrArg List.length h
    simp only [List.length_append] at hlen
    exact List.append_inj h (by omega)
  · rintro ⟨rfl, rfl⟩
    rfl

theorem le_foldl_max {α : Type*} (g : α → ℕ) (l : List α) (n : ℕ) :
    n ≤ l.foldl (fun k x => max k (g x)) n ∧ ∀ x ∈ l, g x ≤ l.foldl (fun k x => max k (g x)) n := by
  induction l generalizing n with
  | nil => simp
  | cons y l ih =>
    obtain ⟨hbase, hrest⟩ := ih (max n (g y))
    refine ⟨(Nat.le_max_left _ _).trans hbase, fun x hx => ?_⟩
    rcases List.mem_cons.mp hx with rfl | hx
    · exact (Nat.le_max_right _ _).trans hbase
    · exact hrest x hx

theorem exists_of_forall₂ {α β : Type*} {P : α → β → Prop} {l : List α} {l' : List β}
    (h : List.Forall₂ P l l') {b : β} (hb : b ∈ l') : ∃ a ∈ l, P a b := by
  induction h with
  | nil => cases hb
  | cons hone _ ih =>
    rcases List.mem_cons.mp hb with rfl | hb
    · exact ⟨_, List.mem_cons_self, hone⟩
    · obtain ⟨a, ha, hP⟩ := ih hb
      exact ⟨a, List.mem_cons_of_mem _ ha, hP⟩

/-- What is done to the result of each item may be done to the results at the end. -/
theorem map_mapM {m : Type v → Type w} [Monad m] [LawfulMonad m] {α : Type u} {β γ : Type v}
    (f : α → m β) (g : β → γ) (l : List α) :
    List.map g <$> l.mapM f = l.mapM fun a => g <$> f a := by
  induction l with
  | nil => simp
  | cons a l ih => simp [List.mapM_cons, ← ih]

theorem mapM_eq_none {α β : Type} {f : α → Option β} {l : List α} {a : α} (ha : a ∈ l)
    (h : f a = none) : l.mapM f = none := by
  induction l with
  | nil => cases ha
  | cons b l ih =>
    rw [List.mapM_cons]
    rcases List.mem_cons.mp ha with rfl | hrest
    · rw [h]
      rfl
    · rw [ih hrest]
      cases f b <;> rfl

theorem mapM_eq_some {α β : Type} {f : α → Option β} {g : α → β} {l : List α}
    (h : ∀ a ∈ l, f a = some (g a)) : l.mapM f = some (l.map g) := by
  induction l with
  | nil => rfl
  | cons a l ih =>
    rw [List.mapM_cons, h a List.mem_cons_self, ih fun b hb => h b (List.mem_cons_of_mem _ hb)]
    rfl

theorem mapM_eq_none_iff {α β : Type} {f : α → Option β} {l : List α} :
    l.mapM f = none ↔ ∃ a ∈ l, f a = none := by
  constructor
  · intro h
    by_contra hall
    have hsome : ∀ a ∈ l, ∃ b, f a = some b := by
      intro a ha
      rw [← Option.ne_none_iff_exists']
      exact fun hnone => hall ⟨a, ha, hnone⟩
    clear hall
    induction l with
    | nil => cases h
    | cons a l ih =>
      obtain ⟨b, hb⟩ := hsome a List.mem_cons_self
      rw [List.mapM_cons, hb] at h
      cases hrest : l.mapM f with
      | none => exact ih hrest fun a ha => hsome a (List.mem_cons_of_mem _ ha)
      | some bs =>
        rw [hrest] at h
        cases h
  · rintro ⟨a, ha, hnone⟩
    exact mapM_eq_none ha hnone

/-- A list is worked through in two ways with one result if its items are, or if both ways fail. -/
theorem mapM_eq_iff {α β : Type} {f g : α → Option β} {l : List α} :
    l.mapM f = l.mapM g ↔
      (∀ a ∈ l, f a = g a) ∨ ((∃ a ∈ l, f a = none) ∧ ∃ a ∈ l, g a = none) := by
  rw [← mapM_eq_none_iff, ← mapM_eq_none_iff]
  constructor
  · intro h
    by_cases hnone : l.mapM f = none
    · exact .inr ⟨hnone, h ▸ hnone⟩
    · left
      induction l with
      | nil =>
        intro a ha
        cases ha
      | cons b l ih =>
        rw [List.mapM_cons] at h hnone
        rw [List.mapM_cons] at h
        cases hf : f b with
        | none =>
          rw [hf] at hnone
          exact absurd rfl hnone
        | some c =>
          cases hfs : l.mapM f with
          | none =>
            rw [hf, hfs] at hnone
            exact absurd rfl hnone
          | some cs =>
            rw [hf, hfs] at h
            cases hg : g b with
            | none =>
              rw [hg] at h
              cases h
            | some d =>
              cases hgs : l.mapM g with
              | none =>
                rw [hg, hgs] at h
                cases h
              | some ds =>
                rw [hg, hgs] at h
                obtain ⟨hhead, htail⟩ := List.cons.inj (Option.some.inj h)
                have hrest := ih (by rw [hfs, hgs, htail]) (by rw [hfs]; exact Option.some_ne_none _)
                intro a ha
                rcases List.mem_cons.mp ha with rfl | ha
                · rw [hf, hg, hhead]
                · exact hrest a ha
  · rintro (h | ⟨hf, hg⟩)
    · induction l with
      | nil => rfl
      | cons b l ih =>
        rw [List.mapM_cons, List.mapM_cons, h b List.mem_cons_self,
          ih fun a ha => h a (List.mem_cons_of_mem _ ha)]
    · rw [hf, hg]

end Uniorm.Foundation
