import Mathlib.Data.List.Dedup
import Mathlib.Data.List.Destutter
import Mathlib.Data.List.Sort

/-! # Sorting and leaving out repetitions

A list is sorted by a key and of each run of one key the first item is kept. The
keys that are left are in strict order, so they depend on the keys of the list
only, not on their order or repetition.
-/
namespace Uniorm.Foundation

variable {α β : Type*} [LinearOrder β] (f : α → β)

/-- `std::sort` by the key and `std::unique`. -/
def sortUnique (l : List α) : List α :=
  (l.insertionSort fun a b => f a ≤ f b).destutter fun a b => f a ≠ f b

theorem mem_map_destutter' {x : β} {a : α} {l : List α} :
    x ∈ (l.destutter' (fun a b => f a ≠ f b) a).map f ↔ x ∈ (a :: l).map f := by
  induction l generalizing a with
  | nil => rfl
  | cons b l ih =>
    rw [List.destutter'_cons]
    by_cases hne : f a ≠ f b
    · rw [if_pos hne, List.map_cons, List.mem_cons, ih]
      exact List.mem_cons.symm
    · rw [if_neg hne, ih]
      simp only [List.map_cons, List.mem_cons, not_not.mp hne]
      tauto

/-- The same keys are left. -/
theorem mem_map_sortUnique {x : β} {l : List α} :
    x ∈ (sortUnique f l).map f ↔ x ∈ l.map f := by
  have hsorted : x ∈ (l.insertionSort fun a b => f a ≤ f b).map f ↔ x ∈ l.map f :=
    ((l.perm_insertionSort fun a b => f a ≤ f b).map f).mem_iff
  rw [← hsorted, sortUnique]
  cases l.insertionSort fun a b => f a ≤ f b with
  | nil => rfl
  | cons a l => exact mem_map_destutter' f

theorem mem_sortUnique {l : List β} {x : β} : x ∈ sortUnique id l ↔ x ∈ l := by
  have hmem := mem_map_sortUnique (x := x) id (l := l)
  rwa [List.map_id, List.map_id] at hmem

/-- Each key is left once, in order. -/
theorem pairwise_map_sortUnique (l : List α) : ((sortUnique f l).map f).Pairwise (· < ·) := by
  have hsorted : (sortUnique f l).Pairwise fun a b => f a ≤ f b :=
    (List.pairwise_insertionSort (fun a b => f a ≤ f b) l).sublist (List.destutter_sublist _ _)
  have hchain : (sortUnique f l).IsChain fun a b => f a < f b := by
    have hdistinct : (sortUnique f l).IsChain fun a b => f a ≠ f b := List.isChain_destutter _ _
    rw [List.isChain_iff_getElem] at hdistinct ⊢
    exact fun i hi => lt_of_le_of_ne (List.isChain_iff_getElem.mp hsorted.isChain i hi)
      (hdistinct i hi)
  rw [List.pairwise_map]
  exact List.isChain_iff_pairwise.mp hchain

/-- Lists with the same keys are left with the same keys in the same order. -/
theorem map_sortUnique_congr {l l' : List α} (h : ∀ x, x ∈ l.map f ↔ x ∈ l'.map f) :
    (sortUnique f l).map f = (sortUnique f l').map f := by
  have hl := pairwise_map_sortUnique f l
  have hl' := pairwise_map_sortUnique f l'
  have hperm : ((sortUnique f l).map f).Perm ((sortUnique f l').map f) := by
    rw [List.perm_ext_iff_of_nodup (hl.imp ne_of_lt) (hl'.imp ne_of_lt)]
    intro x
    rw [mem_map_sortUnique, mem_map_sortUnique, h]
  exact hperm.eq_of_pairwise (fun _ _ _ _ hab hba => absurd hba hab.asymm) hl hl'

theorem sortUnique_congr {l l' : List β} (h : ∀ x, x ∈ l ↔ x ∈ l') :
    sortUnique id l = sortUnique id l' := by
  have hmap : (sortUnique id l).map id = (sortUnique id l').map id :=
    map_sortUnique_congr id (by simpa using h)
  rwa [List.map_id, List.map_id] at hmap

end Uniorm.Foundation
