import Sel4bench.Driver.Math
import Sel4bench.Lib.Comparison

/-!
# The order of the samples

`calculate_results` copies the samples to an array of its own, sorts the copy and computes every
statistic from it. The function is stated here on the two arrays and with the library's `qsort`
as a parameter. Whatever this routine is, the result is that of `Sel4bench.calculateResults`, and
the samples are left as they are (`Sel4bench.calculateResultsOn_eq`); since `ccnt_compare_fn` is
a total order, the result does not depend on the order of the samples
(`Sel4bench.calculateResultsOn_perm`).

## Main definitions

* `Sel4bench.calculateResultsOn` — `calculate_results` on its arrays.

## Main results

* `Sel4bench.isComparison_ccntCompareFn`, `Sel4bench.ccntCompareFn_eq_zero`.
* `Sel4bench.calculateResultsOn_eq`, `Sel4bench.calculateResultsOn_perm`.
-/

namespace Sel4bench

open Comparison

variable {w : ℕ}

/-- The arrays of `calculate_results`: its argument and its local copy. -/
inductive ArrayName
  | data
  | sortedData
deriving DecidableEq

/-- The contents of the arrays. -/
abbrev Arrays (w : ℕ) := ArrayName → List (Ccnt w)

/-- `calculate_results` on the array `data` in memory, with the library function `qsort`. There
is no result if the assertion fails. -/
def calculateResultsOn (qsort : (Ccnt w → Ccnt w → ℤ) → List (Ccnt w) → List (Ccnt w)) :
    StateT (Arrays w) Option (Result ArrayName w) := do
  modify fun m => Function.update m .sortedData (m .data)
  modify fun m => Function.update m .sortedData (qsort ccntCompareFn (m .sortedData))
  let m ← get
  let sortedData := m .sortedData
  let n := (m .data).length
  let min := sortedData.getD 0 0
  let max := sortedData.getD (n - 1) 0
  guard (min ≤ max)
  let mean := resultsMean sortedData
  let variance := resultsVariance sortedData (ccntOfRat w mean)
  return {
    min := min
    max := max
    mean := mean
    variance := variance
    stddev := resultsStddev sortedData variance
    median := resultsMedian sortedData
    firstQuantile := resultsQuantile sortedData (1 / 4)
    thirdQuantile := resultsQuantile sortedData (3 / 4)
    mode := resultsMode sortedData
    rawData := some .data
    samples := n }

/-! ### The comparison function -/

theorem ccntCompareFn_swap (x y : Ccnt w) : ccntCompareFn y x = -ccntCompareFn x y := by
  simp only [ccntCompareFn, gt_iff_lt, neg_sub]

theorem isComparison_ccntCompareFn : IsComparison (ccntCompareFn (w := w)) where
  swap x y := by rw [ccntCompareFn_swap, Left.neg_nonpos_iff]
  trans x y z := by
    rw [ccntCompareFn_nonpos, ccntCompareFn_nonpos, ccntCompareFn_nonpos]
    exact BitVec.le_trans

/-- Counter values that compare as equal are equal. -/
theorem ccntCompareFn_eq_zero {x y : Ccnt w} (h : ccntCompareFn x y = 0) : x = y := by
  have hle : x ≤ y := ccntCompareFn_nonpos.mp h.le
  have hge : y ≤ x := ccntCompareFn_nonpos.mp (by rw [ccntCompareFn_swap, h, neg_zero])
  exact BitVec.le_antisymm hle hge

/-- Every sorting routine sorts the samples as `Sel4bench.qsort` does, in whatever order they
come. -/
theorem eq_qsort_of_isSort {sort : (Ccnt w → Ccnt w → ℤ) → List (Ccnt w) → List (Ccnt w)}
    (hs : IsSort sort) {data data' : List (Ccnt w)} (h : data.Perm data') :
    sort ccntCompareFn data = qsort data' :=
  hs.eq_of_perm isSort_mergeSort isComparison_ccntCompareFn (fun _ _ => ccntCompareFn_eq_zero) h

/-! ### The result -/

section Result

variable {sort : (Ccnt w → Ccnt w → ℤ) → List (Ccnt w) → List (Ccnt w)} (hs : IsSort sort)
  {m : Arrays w} (hne : m .data ≠ [])

include hs hne

/-- **The result of `calculate_results`** with any sorting routine. The assertion holds, and only
the local copy is written. -/
theorem calculateResultsOn_eq : (calculateResultsOn sort).run m =
    some (calculateResults (m .data) .data,
      Function.update m .sortedData (qsort (m .data))) := by
  have hmin := calculateResults_min_isLeast hne ArrayName.data
  have hmax := calculateResults_max_isGreatest hne ArrayName.data
  have hle : (qsort (m .data)).getD 0 0#w ≤ (qsort (m .data)).getD ((m .data).length - 1) 0#w :=
    hmin.2 hmax.1
  have hsort : sort ccntCompareFn (m .data) = qsort (m .data) := eq_qsort_of_isSort hs (.refl _)
  simp [calculateResultsOn, calculateResults, guard, hsort, hle, -List.getD_eq_getElem?_getD]

end Result

theorem calculateResults_perm {ρ : Type*} {data data' : List (Ccnt w)} (h : data.Perm data')
    (r : ρ) : calculateResults data r = calculateResults data' r := by
  have hsort : qsort data = qsort data' := eq_qsort_of_isSort isSort_mergeSort h
  simp only [calculateResults, hsort, h.length_eq]

/-- **The order of the samples does not matter.** Two arrays with the same samples in different
orders have the same results, with any two sorting routines. The assertion holds, the minimum and
the maximum are the least and the greatest sample, and `raw_data` points to the argument, which
still lists the samples in their order. -/
theorem calculateResultsOn_perm
    {sort sort' : (Ccnt w → Ccnt w → ℤ) → List (Ccnt w) → List (Ccnt w)} (hs : IsSort sort)
    (hs' : IsSort sort') {m m' : Arrays w} (hne : m .data ≠ []) (h : (m .data).Perm (m' .data)) :
    ∃ result after after',
      (calculateResultsOn sort).run m = some (result, after) ∧
      (calculateResultsOn sort').run m' = some (result, after') ∧
      (IsLeast {x | x ∈ m .data} result.min ∧ IsGreatest {x | x ∈ m .data} result.max ∧
        result.min ≤ result.max) ∧
      result.rawData = some .data ∧ after .data = m .data ∧ after' .data = m' .data := by
  have hne' : m' .data ≠ [] := fun hnil => hne (by rwa [hnil, List.perm_nil] at h)
  have hmin := calculateResults_min_isLeast hne ArrayName.data
  have hmax := calculateResults_max_isGreatest hne ArrayName.data
  have hrun' := calculateResultsOn_eq hs' hne'
  rw [← calculateResults_perm h] at hrun'
  refine ⟨_, _, _, calculateResultsOn_eq hs hne, hrun', ⟨hmin, hmax, hmin.2 hmax.1⟩, rfl, ?_, ?_⟩
  · exact Function.update_of_ne (by decide) _ _
  · exact Function.update_of_ne (by decide) _ _

/-- The samples `3`, `1`, `2` and `1`, `2`, `3`, sorted by merge sort. -/
theorem calculateResultsOn_perm_three :
    ∃ result after after',
      (calculateResultsOn mergeSort).run (fun _ => ([3, 1, 2] : List (Ccnt 64))) =
        some (result, after) ∧
      (calculateResultsOn mergeSort).run (fun _ => ([1, 2, 3] : List (Ccnt 64))) =
        some (result, after') ∧
      after .data = [3, 1, 2] := by
  let m : Arrays 64 := fun _ => [3, 1, 2]
  let m' : Arrays 64 := fun _ => [1, 2, 3]
  have hne : m .data ≠ [] := by decide
  have hperm : (m .data).Perm (m' .data) := by decide
  obtain ⟨result, after, after', hrun, hrun', -, -, hdata, -⟩ :=
    calculateResultsOn_perm isSort_mergeSort isSort_mergeSort hne hperm
  exact ⟨result, after, after', hrun, hrun', hdata⟩

end Sel4bench
