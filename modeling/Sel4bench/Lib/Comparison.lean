import Mathlib.Data.List.Sort

/-!
# Sorting by a comparison function

A sorting routine of C takes a function of two elements whose sign gives their order. What it
promises holds only for comparison functions that are consistent (`Comparison.IsComparison`): a
permutation of the data that is sorted with respect to the function
(`Comparison.IsSort`). If only equal elements compare as equal, there is one such permutation,
so that the routine and the order of the data do not matter (`Comparison.IsSort.eq_of_perm`).

## Main definitions

* `Comparison.IsComparison`, `Comparison.IsSort`.

## Main results

* `Comparison.IsSort.eq_of_perm` — the sorted permutation is unique.
* `Comparison.isSort_mergeSort` — there is a sorting routine.
-/

namespace Comparison

variable {α : Type*}

/-- The order that a comparison function may be used for: antisymmetric in its sign and
transitive. -/
structure IsComparison (compare : α → α → ℤ) : Prop where
  swap : ∀ a b, compare b a ≤ 0 ↔ 0 ≤ compare a b
  trans : ∀ a b c, compare a b ≤ 0 → compare b c ≤ 0 → compare a c ≤ 0

/-- A sorting routine, on arrays of elements of `α`. -/
structure IsSort (sort : (α → α → ℤ) → List α → List α) : Prop where
  perm : ∀ {compare}, IsComparison compare → ∀ data, (sort compare data).Perm data
  sorted : ∀ {compare}, IsComparison compare → ∀ data,
    (sort compare data).Pairwise fun a b => compare a b ≤ 0

variable {compare : α → α → ℤ}

theorem IsComparison.total (h : IsComparison compare) (a b : α) :
    compare a b ≤ 0 ∨ compare b a ≤ 0 := by
  rw [h.swap a b]
  exact le_total _ _

/-- **The sorted permutation is unique** where only equal elements compare as equal. -/
theorem IsSort.eq_of_perm {sort sort' : (α → α → ℤ) → List α → List α} (hs : IsSort sort)
    (hs' : IsSort sort') (hc : IsComparison compare) (heq : ∀ a b, compare a b = 0 → a = b)
    {data data' : List α} (h : data.Perm data') : sort compare data = sort' compare data' := by
  have hperm : (sort compare data).Perm (sort' compare data') :=
    ((hs.perm hc data).trans h).trans (hs'.perm hc data').symm
  refine hperm.eq_of_pairwise (fun a b _ _ hab hba => ?_) (hs.sorted hc data) (hs'.sorted hc data')
  exact heq a b (le_antisymm hab ((hc.swap a b).mp hba))

/-- The merge sort by a comparison function. -/
def mergeSort (compare : α → α → ℤ) (data : List α) : List α :=
  data.mergeSort fun a b => decide (compare a b ≤ 0)

theorem isSort_mergeSort : IsSort (mergeSort (α := α)) where
  perm _ data := List.mergeSort_perm data _
  sorted := by
    intro compare hc data
    have h : (mergeSort compare data).Pairwise fun a b => decide (compare a b ≤ 0) = true := by
      refine List.pairwise_mergeSort (fun a b c hab hbc => ?_) (fun a b => ?_) data
      · rw [decide_eq_true_iff] at hab hbc ⊢
        exact hc.trans a b c hab hbc
      · rw [Bool.or_eq_true, decide_eq_true_iff, decide_eq_true_iff]
        exact hc.total a b
    exact h.imp fun h => by simpa using h

end Comparison
