import Mathlib.Data.List.GetD
import Sel4bench.Driver.Math
import Sel4bench.Lib.Interpolation

/-!
# Quantiles and the median

`results_quantile` and `results_median` read the order statistics of the samples. The quantile
interpolates linearly between two neighbours and has a branch of its own for the last element;
both branches are the polygon through the order statistics (`Sel4bench.resultsQuantile_eq`), so
that the two quartiles are ordered and lie between the extremes (`Sel4bench.quartiles`).

The median takes the average of the two middle elements from their sum in `ccnt_t`, where
`results_quantile` converts the elements to `double` first. It is the middle of the polygon
exactly when this sum does not wrap (`Sel4bench.resultsMedian_iff`).

## Main definitions

* `Sel4bench.orderStatistic`.
* `Sel4bench.resultsQuantileChecked` — `results_quantile` with the checks that C leaves out.

## Main results

* `Sel4bench.resultsQuantile_eq`, `Sel4bench.quartiles`.
* `Sel4bench.resultsMedian_iff`.
-/

namespace Sel4bench

open Interpolation

variable {w : ℕ}

/-- The order statistics of sorted samples, continued by the last one. -/
def orderStatistic (sortedData : List (Ccnt w)) (k : ℕ) : ℚ :=
  (sortedData.getD (min k (sortedData.length - 1)) 0).toNat

/-- `results_quantile` with a result only if the conversion of `index` to `int` is defined and
every element that is read is in the array. -/
def resultsQuantileChecked (sortedData : List (Ccnt w)) (quantile : ℚ) : Option ℚ := do
  let n := sortedData.length
  let index := quantile * ((n - 1 : ℕ) : ℚ)
  guard (index < 2 ^ 31)
  let lhs := ⌊index⌋.toNat
  let delta := index - lhs
  if n = 0 then pure 0
  else if lhs = n - 1 then
    let x ← sortedData[lhs]?
    pure (x.toNat : ℚ)
  else
    let x ← sortedData[lhs]?
    let y ← sortedData[lhs + 1]?
    pure ((1 - delta) * x.toNat + delta * y.toNat)

section Order

variable {sortedData : List (Ccnt w)}

theorem orderStatistic_of_lt {k : ℕ} (hk : k < sortedData.length) :
    orderStatistic sortedData k = (sortedData.getD k 0).toNat := by
  rw [orderStatistic, min_eq_left (by omega)]

theorem orderStatistic_monotone (hne : sortedData ≠ []) (hsorted : sortedData.Pairwise (· ≤ ·)) :
    Monotone (orderStatistic sortedData) := by
  have hpos := List.length_pos_of_ne_nil hne
  intro j k hjk
  have hj : min j (sortedData.length - 1) < sortedData.length := by omega
  have hk : min k (sortedData.length - 1) < sortedData.length := by omega
  rw [orderStatistic, orderStatistic, Nat.cast_le, ← BitVec.le_def,
    List.getD_eq_getElem _ _ hj, List.getD_eq_getElem _ _ hk]
  rcases (min_le_min_right (sortedData.length - 1) hjk).eq_or_lt with heq | hlt
  · exact BitVec.le_of_eq (by simp only [heq])
  · exact List.pairwise_iff_getElem.mp hsorted _ _ hj hk hlt

/-! ### The quantiles -/

variable {q : ℚ}

theorem floor_index_le (h1 : q ≤ 1) :
    ⌊q * ((sortedData.length - 1 : ℕ) : ℚ)⌋₊ ≤ sortedData.length - 1 := by
  have hn : (0 : ℚ) ≤ ((sortedData.length - 1 : ℕ) : ℚ) := Nat.cast_nonneg _
  exact Nat.floor_le_of_le (mul_le_of_le_one_left hn h1)

/-- The last element is read alone only at its own position. -/
theorem index_eq_of_floor (h0 : 0 ≤ q) (h1 : q ≤ 1)
    (h : ⌊q * ((sortedData.length - 1 : ℕ) : ℚ)⌋₊ = sortedData.length - 1) :
    q * ((sortedData.length - 1 : ℕ) : ℚ) = ((sortedData.length - 1 : ℕ) : ℚ) := by
  have hn : (0 : ℚ) ≤ ((sortedData.length - 1 : ℕ) : ℚ) := Nat.cast_nonneg _
  refine le_antisymm (mul_le_of_le_one_left hn h1) ?_
  calc ((sortedData.length - 1 : ℕ) : ℚ)
      = ⌊q * ((sortedData.length - 1 : ℕ) : ℚ)⌋₊ := by rw [h]
    _ ≤ q * ((sortedData.length - 1 : ℕ) : ℚ) := Nat.floor_le (mul_nonneg h0 hn)

variable (hne : sortedData ≠ []) (h0 : 0 ≤ q) (h1 : q ≤ 1)

include hne h0 h1

/-- **A quantile is the polygon through the order statistics**, at position `q (n - 1)`. -/
theorem resultsQuantile_eq : resultsQuantile sortedData q =
    interpolate (orderStatistic sortedData) (q * ((sortedData.length - 1 : ℕ) : ℚ)) := by
  have hpos := List.length_pos_of_ne_nil hne
  have hle : _ ≤ sortedData.length - 1 := floor_index_le h1
  rw [resultsQuantile, if_neg hpos.ne', Int.floor_toNat]
  split_ifs with h
  · rw [h, index_eq_of_floor h0 h1 h, interpolate_natCast, orderStatistic_of_lt (by omega)]
  · rw [interpolate, orderStatistic_of_lt (by omega), orderStatistic_of_lt (by omega)]

omit h0 in
/-- The checks pass wherever the index is in the range of an `int`. -/
theorem resultsQuantileChecked_eq (hint : q * ((sortedData.length - 1 : ℕ) : ℚ) < 2 ^ 31) :
    resultsQuantileChecked sortedData q = some (resultsQuantile sortedData q) := by
  have hpos := List.length_pos_of_ne_nil hne
  have hle : _ ≤ sortedData.length - 1 := floor_index_le h1
  have hread {i : ℕ} (hi : i < sortedData.length) :
      sortedData[i]? = some (sortedData.getD i 0) := by
    rw [List.getElem?_eq_getElem hi, List.getD_eq_getElem _ _ hi]
  rw [resultsQuantileChecked, resultsQuantile, if_neg hpos.ne', if_neg hpos.ne', Int.floor_toNat]
  simp only [guard, if_pos hint, Option.pure_def, Option.bind_eq_bind, Option.bind_some]
  split_ifs with h
  · rw [hread (by omega), Option.bind_some]
  · rw [hread (by omega), hread (by omega), Option.bind_some, Option.bind_some]

/-- A quantile lies between two adjacent order statistics, or it is the last one. -/
theorem resultsQuantile_neighbours (hsorted : sortedData.Pairwise (· ≤ ·)) :
    ∃ lhs, lhs = ⌊q * ((sortedData.length - 1 : ℕ) : ℚ)⌋₊ ∧
      ((lhs + 1 = sortedData.length ∧
          resultsQuantile sortedData q = (sortedData.getD lhs 0).toNat) ∨
        (lhs + 1 < sortedData.length ∧
          ((sortedData.getD lhs 0).toNat : ℚ) ≤ resultsQuantile sortedData q ∧
          resultsQuantile sortedData q ≤ (sortedData.getD (lhs + 1) 0).toNat)) := by
  have hpos := List.length_pos_of_ne_nil hne
  have hle : _ ≤ sortedData.length - 1 := floor_index_le h1
  refine ⟨_, rfl, ?_⟩
  rw [resultsQuantile_eq hne h0 h1]
  rcases hle.eq_or_lt with h | h
  · refine .inl ⟨by omega, ?_⟩
    rw [h, index_eq_of_floor h0 h1 h, interpolate_natCast, orderStatistic_of_lt (by omega)]
  · refine .inr ⟨by omega, ?_⟩
    rw [← orderStatistic_of_lt (by omega), ← orderStatistic_of_lt (by omega)]
    exact interpolate_mem_Icc (orderStatistic_monotone hne hsorted)
      (mul_nonneg h0 (Nat.cast_nonneg _))

omit h1 in
theorem resultsQuantile_mono (hsorted : sortedData.Pairwise (· ≤ ·)) {q' : ℚ} (hq : q ≤ q')
    (h1' : q' ≤ 1) : resultsQuantile sortedData q ≤ resultsQuantile sortedData q' := by
  have hn : (0 : ℚ) ≤ ((sortedData.length - 1 : ℕ) : ℚ) := Nat.cast_nonneg _
  rw [resultsQuantile_eq hne h0 (hq.trans h1'), resultsQuantile_eq hne (h0.trans hq) h1']
  exact interpolate_monotoneOn (orderStatistic_monotone hne hsorted) (mul_nonneg h0 hn)
    (mul_nonneg (h0.trans hq) hn) (mul_le_mul_of_nonneg_right hq hn)

omit h0 h1

theorem resultsQuantile_zero : resultsQuantile sortedData 0 = (sortedData.getD 0 0).toNat := by
  rw [resultsQuantile_eq hne le_rfl zero_le_one, zero_mul, ← Nat.cast_zero, interpolate_natCast,
    orderStatistic_of_lt (List.length_pos_of_ne_nil hne)]

theorem resultsQuantile_one :
    resultsQuantile sortedData 1 = (sortedData.getD (sortedData.length - 1) 0).toNat := by
  have hpos := List.length_pos_of_ne_nil hne
  rw [resultsQuantile_eq hne zero_le_one le_rfl, one_mul, interpolate_natCast,
    orderStatistic_of_lt (by omega)]

end Order

/-- **The quartiles.** With an index in the range of `int`, both quartiles are computed from
elements of the array, each is the polygon through the sorted samples at position `q (n - 1)` and
lies between the neighbours of that position, and they are ordered between the extremes. -/
theorem quartiles {sortedData : List (Ccnt w)} (hne : sortedData ≠ [])
    (hsorted : sortedData.Pairwise (· ≤ ·))
    (hint : 3 * ((sortedData.length - 1 : ℕ) : ℚ) / 4 < 2 ^ 31) :
    (∀ q : ℚ, q = 1 / 4 ∨ q = 3 / 4 →
      resultsQuantileChecked sortedData q = some (resultsQuantile sortedData q) ∧
      (∃ lhs, lhs = ⌊q * ((sortedData.length - 1 : ℕ) : ℚ)⌋₊ ∧
        ((lhs + 1 = sortedData.length ∧
            resultsQuantile sortedData q = (sortedData.getD lhs 0).toNat) ∨
          (lhs + 1 < sortedData.length ∧
            ((sortedData.getD lhs 0).toNat : ℚ) ≤ resultsQuantile sortedData q ∧
            resultsQuantile sortedData q ≤ (sortedData.getD (lhs + 1) 0).toNat))) ∧
      resultsQuantile sortedData q =
        interpolate (orderStatistic sortedData) (q * ((sortedData.length - 1 : ℕ) : ℚ))) ∧
    ((sortedData.getD 0 0).toNat : ℚ) ≤ resultsQuantile sortedData (1 / 4) ∧
    resultsQuantile sortedData (1 / 4) ≤ resultsQuantile sortedData (3 / 4) ∧
    resultsQuantile sortedData (3 / 4) ≤
      (sortedData.getD (sortedData.length - 1) 0).toNat := by
  have hn : (0 : ℚ) ≤ ((sortedData.length - 1 : ℕ) : ℚ) := Nat.cast_nonneg _
  have hmono {q q' : ℚ} (h0 : 0 ≤ q) (hq : q ≤ q') (h1 : q' ≤ 1) :=
    resultsQuantile_mono hne h0 hsorted hq h1
  refine ⟨fun q hq => ?_, ?_, ?_, ?_⟩
  · have hbounds : 0 ≤ q ∧ q ≤ 3 / 4 := by rcases hq with rfl | rfl <;> norm_num
    have hindex : q * ((sortedData.length - 1 : ℕ) : ℚ) < 2 ^ 31 := by
      nlinarith [mul_le_mul_of_nonneg_right hbounds.2 hn]
    have hle : q ≤ 1 := by linarith [hbounds.2]
    exact ⟨resultsQuantileChecked_eq hne hle hindex,
      resultsQuantile_neighbours hne hbounds.1 hle hsorted, resultsQuantile_eq hne hbounds.1 hle⟩
  · rw [← resultsQuantile_zero hne]
    exact hmono le_rfl (by norm_num) (by norm_num)
  · exact hmono (by norm_num) (by norm_num) (by norm_num)
  · rw [← resultsQuantile_one hne]
    exact hmono (by norm_num) (by norm_num) le_rfl

/-- The quartiles of the samples `1`, `3`, `4`, `8` and `9` and of their positions. -/
theorem quartiles_five :
    resultsQuantile ([1, 3, 4, 8, 9] : List (Ccnt 64)) (1 / 4) ≤
      resultsQuantile ([1, 3, 4, 8, 9] : List (Ccnt 64)) (3 / 4) :=
  (quartiles (by decide) (by decide) (by norm_num)).2.2.1

/-! ### The median -/

section Median

variable {sortedData : List (Ccnt w)}

/-- For an odd number of samples, the position in the middle is an index. -/
theorem half_index_of_odd (hodd : Odd sortedData.length) :
    (((sortedData.length - 1 : ℕ) : ℚ) / 2) = ((sortedData.length / 2 : ℕ) : ℚ) ∧
      (sortedData.length - 1) / 2 = sortedData.length / 2 := by
  obtain ⟨k, hk⟩ := hodd
  have hlen : sortedData.length - 1 = 2 * k := by omega
  refine ⟨?_, by omega⟩
  rw [hlen, hk, show (2 * k + 1) / 2 = k by omega]
  push_cast
  ring

/-- For an even number of samples, it is in the middle between two indices. -/
theorem half_index_of_even (hpos : 0 < sortedData.length) (heven : Even sortedData.length) :
    (((sortedData.length - 1 : ℕ) : ℚ) / 2) =
        (((sortedData.length - 1) / 2 : ℕ) : ℚ) + 1 / 2 ∧
      sortedData.length / 2 = (sortedData.length - 1) / 2 + 1 := by
  obtain ⟨k, hk⟩ := heven
  have hlen : sortedData.length - 1 = 2 * ((sortedData.length - 1) / 2) + 1 := by omega
  refine ⟨?_, by omega⟩
  conv_lhs => rw [hlen]
  push_cast
  ring

/-- The polygon in the middle is the average of the two middle elements. -/
theorem interpolate_half (hne : sortedData ≠ []) :
    interpolate (orderStatistic sortedData) (((sortedData.length - 1 : ℕ) : ℚ) / 2) =
      ((sortedData.getD ((sortedData.length - 1) / 2) 0).toNat +
        (sortedData.getD (sortedData.length / 2) 0).toNat) / 2 := by
  have hpos := List.length_pos_of_ne_nil hne
  rcases Nat.even_or_odd sortedData.length with heven | hodd
  · obtain ⟨hindex, hsucc⟩ := half_index_of_even hpos heven
    rw [hindex, interpolate_natCast_add _ _ (by norm_num) (by norm_num), ← hsucc,
      orderStatistic_of_lt (by omega), orderStatistic_of_lt (by omega)]
    ring
  · obtain ⟨hindex, heq⟩ := half_index_of_odd hodd
    rw [hindex, interpolate_natCast, orderStatistic_of_lt (by omega), heq]
    ring

/-- `results_median` is the average of the two middle elements if there is one middle element,
or the sum of the two does not wrap. -/
theorem resultsMedian_eq_average_iff (hne : sortedData ≠ []) :
    resultsMedian sortedData = ((sortedData.getD ((sortedData.length - 1) / 2) 0).toNat +
        (sortedData.getD (sortedData.length / 2) 0).toNat) / 2 ↔
      Odd sortedData.length ∨ (sortedData.getD ((sortedData.length - 1) / 2) 0).toNat +
        (sortedData.getD (sortedData.length / 2) 0).toNat < 2 ^ w := by
  have hpos := List.length_pos_of_ne_nil hne
  rw [resultsMedian, if_neg hpos.ne']
  rcases Nat.even_or_odd sortedData.length with heven | hodd
  · obtain ⟨-, hsucc⟩ := half_index_of_even hpos heven
    rw [if_neg (by omega), or_iff_right (Nat.not_odd_iff_even.mpr heven), BitVec.toNat_add,
      div_left_inj' two_ne_zero, ← Nat.cast_add, Nat.cast_inj]
    exact ⟨fun h => h ▸ Nat.mod_lt _ (Nat.two_pow_pos w), Nat.mod_eq_of_lt⟩
  · obtain ⟨-, heq⟩ := half_index_of_odd hodd
    rw [if_pos heq, heq]
    exact iff_of_true (by ring) (.inl hodd)

end Median

/-- **The median of sorted samples.** It is the polygon at the middle position, the average of the
two middle elements, and lies between the quartiles, if and only if the number of samples is odd
or the sum of the two middle elements fits in `ccnt_t`. -/
theorem resultsMedian_iff {sortedData : List (Ccnt w)} (hne : sortedData ≠ [])
    (hsorted : sortedData.Pairwise (· ≤ ·)) :
    let lower := sortedData.getD ((sortedData.length - 1) / 2) 0
    let upper := sortedData.getD (sortedData.length / 2) 0
    (resultsMedian sortedData =
        interpolate (orderStatistic sortedData) (((sortedData.length - 1 : ℕ) : ℚ) / 2) ∧
      resultsMedian sortedData = (lower.toNat + upper.toNat) / 2 ∧
      resultsQuantile sortedData (1 / 4) ≤ resultsMedian sortedData ∧
      resultsMedian sortedData ≤ resultsQuantile sortedData (3 / 4)) ↔
    (Odd sortedData.length ∨ lower.toNat + upper.toNat < 2 ^ w) := by
  intro lower upper
  refine ⟨fun h => (resultsMedian_eq_average_iff hne).mp h.2.1, fun h => ?_⟩
  have haverage := (resultsMedian_eq_average_iff hne).mpr h
  have hn : (0 : ℚ) ≤ ((sortedData.length - 1 : ℕ) : ℚ) := Nat.cast_nonneg _
  have hmono := interpolate_monotoneOn (orderStatistic_monotone hne hsorted)
  have hmiddle : resultsMedian sortedData =
      interpolate (orderStatistic sortedData) (((sortedData.length - 1 : ℕ) : ℚ) / 2) := by
    rw [haverage, interpolate_half hne]
  refine ⟨hmiddle, haverage, ?_, ?_⟩
  · rw [resultsQuantile_eq hne (by norm_num) (by norm_num), hmiddle]
    exact hmono (Set.mem_Ici.mpr (by positivity)) (Set.mem_Ici.mpr (by positivity)) (by linarith)
  · rw [resultsQuantile_eq hne (by norm_num) (by norm_num), hmiddle]
    exact hmono (Set.mem_Ici.mpr (by positivity)) (Set.mem_Ici.mpr (by positivity)) (by linarith)

/-- Two equal samples in the upper half of the counter range have the median zero. -/
theorem resultsMedian_wraps : ([2 ^ 63, 2 ^ 63] : List (Ccnt 64)).Pairwise (· ≤ ·) ∧
    resultsMedian ([2 ^ 63, 2 ^ 63] : List (Ccnt 64)) = 0 ∧
    resultsMedian ([2 ^ 63, 2 ^ 63] : List (Ccnt 64)) <
      resultsQuantile ([2 ^ 63, 2 ^ 63] : List (Ccnt 64)) (1 / 4) ∧
    resultsMedian ([2 ^ 63, 2 ^ 63] : List (Ccnt 64)) ≠
      interpolate (orderStatistic ([2 ^ 63, 2 ^ 63] : List (Ccnt 64))) (1 / 2) := by
  exact ⟨by decide +kernel, by decide +kernel, by decide +kernel, by decide +kernel⟩

/-- The median of the samples `1`, `3`, `4` and `8`. -/
theorem resultsMedian_iff_four :
    resultsQuantile ([1, 3, 4, 8] : List (Ccnt 64)) (1 / 4) ≤
      resultsMedian ([1, 3, 4, 8] : List (Ccnt 64)) :=
  ((resultsMedian_iff (by decide) (by decide)).mpr (.inr (by decide))).2.2.1

end Sel4bench
