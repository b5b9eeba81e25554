import Mathlib.Tactic.IntervalCases
import Sel4bench.Driver.Mode
import Sel4bench.Driver.Order
import Sel4bench.Driver.Processing
import Sel4bench.Driver.Quantile

/-!
# The overhead as a translation of the statistics

Subtracting an overhead translates the samples. If no sample is below the overhead, sorting
commutes with the translation, and every statistic of `calculate_results` either follows it or
does not change (`Sel4bench.calculateResults_map_sub`). The mean and the variance are translated
in spite of the rounding of the mean, because the overhead is an integer; the median needs
samples in the lower half of the counter range, as its sum is taken in `ccnt_t`.

## Main definitions

* `Sel4bench.Result.SmallerBy` — the relation of the two results.
* `Sel4bench.Shiftable` — the samples on which it holds.

## Main results

* `Sel4bench.resultsMode_map`, `Sel4bench.resultsMode_mem`.
* `Sel4bench.calculateResults_map_sub`, `Sel4bench.processResult_smallerBy`.
-/

namespace Sel4bench

open Interpolation

variable {w : ℕ} {ρ : Type*}

/-- The result `r'` is `r` with the values smaller by `o`: what measures a position follows, what
measures a spread stays. -/
structure Result.SmallerBy (o : Ccnt w) (r' r : Result ρ w) : Prop where
  min : r'.min.toNat + o.toNat = r.min.toNat
  max : r'.max.toNat + o.toNat = r.max.toNat
  mean : r'.mean = r.mean - o.toNat
  median : r'.median = r.median - o.toNat
  firstQuantile : r'.firstQuantile = r.firstQuantile - o.toNat
  thirdQuantile : r'.thirdQuantile = r.thirdQuantile - o.toNat
  mode : r'.mode.toNat + o.toNat = r.mode.toNat
  variance : r'.variance = r.variance
  stddev : r'.stddev = r.stddev
  samples : r'.samples = r.samples

/-- Samples in the lower half of the counter range, none below `o`. -/
structure Shiftable (o : Ccnt w) (data : List (Ccnt w)) : Prop where
  le : ∀ x ∈ data, o ≤ x
  lt_half : ∀ x ∈ data, x.toNat < 2 ^ (w - 1)

/-! ### The mode -/

/-- The variables of the loop of `results_mode` on translated samples. -/
def ModeState.map (f : Ccnt w → Ccnt w) (s : ModeState w) : ModeState w :=
  { s with mode := f s.mode, currentValue := f s.currentValue }

section Mode

variable {f : Ccnt w → Ccnt w} (hf : Function.Injective f)

include hf

theorem ModeState.step_map (s : ModeState w) (x : Ccnt w) :
    (s.map f).step (f x) = (s.step x).map f := by
  by_cases hx : s.currentValue = x
  · simp [ModeState.step, ModeState.map, hx]
  · by_cases hgt : s.currentFreq > s.modeFreq <;>
      simp [ModeState.step, ModeState.map, hf.eq_iff, hx, hgt]

theorem ModeState.foldl_step_map (l : List (Ccnt w)) (s : ModeState w) :
    (l.map f).foldl ModeState.step (s.map f) = (l.foldl ModeState.step s).map f := by
  induction l generalizing s with
  | nil => rfl
  | cons x l ih => rw [List.map_cons, List.foldl_cons, List.foldl_cons, step_map hf, ih]

/-- `results_mode` compares samples for equality only. -/
theorem resultsMode_map {l : List (Ccnt w)} (hne : l ≠ []) :
    resultsMode (l.map f) = f (resultsMode l) := by
  obtain ⟨x, rest, rfl⟩ := List.exists_cons_of_ne_nil hne
  rw [List.map_cons, resultsMode_cons, resultsMode_cons]
  exact congrArg ModeState.mode (ModeState.foldl_step_map hf rest ⟨x, x, 1, 0⟩)

end Mode

theorem ModeState.foldl_mem {data : List (Ccnt w)} (l : List (Ccnt w)) (s : ModeState w)
    (hl : ∀ x ∈ l, x ∈ data) (hs : s.mode ∈ data ∧ s.currentValue ∈ data) :
    (l.foldl ModeState.step s).mode ∈ data := by
  induction l generalizing s with
  | nil => exact hs.1
  | cons x l ih =>
    refine ih (s.step x) (fun y hy => hl y (List.mem_cons_of_mem _ hy)) ?_
    have hx : x ∈ data := hl x List.mem_cons_self
    rw [ModeState.step]
    split_ifs
    · exact hs
    · exact ⟨hs.2, hx⟩
    · exact ⟨hs.1, hx⟩

theorem resultsMode_mem {l : List (Ccnt w)} (hne : l ≠ []) : resultsMode l ∈ l := by
  obtain ⟨x, rest, rfl⟩ := List.exists_cons_of_ne_nil hne
  rw [resultsMode_cons]
  exact ModeState.foldl_mem rest _ (fun y hy => List.mem_cons_of_mem _ hy)
    ⟨List.mem_cons_self, List.mem_cons_self⟩

/-! ### Translated samples -/

section Shift

variable {o : Ccnt w} {data : List (Ccnt w)}

theorem toNat_sub_add {x : Ccnt w} (h : o ≤ x) : (x - o).toNat + o.toNat = x.toNat := by
  rw [BitVec.toNat_sub_of_le h]
  exact Nat.sub_add_cancel (BitVec.le_def.mp h)

theorem cast_toNat_sub {x : Ccnt w} (h : o ≤ x) :
    ((x - o).toNat : ℚ) = (x.toNat : ℚ) - o.toNat := by
  rw [eq_sub_iff_add_eq, ← Nat.cast_add, toNat_sub_add h]

theorem Shiftable.perm {data' : List (Ccnt w)} (h : Shiftable o data) (hp : data'.Perm data) :
    Shiftable o data' :=
  ⟨fun x hx => h.le x (hp.mem_iff.mp hx), fun x hx => h.lt_half x (hp.mem_iff.mp hx)⟩

theorem toRats_map_sub (h : ∀ x ∈ data, o ≤ x) :
    toRats (data.map (· - o)) = (toRats data).map (· - (o.toNat : ℚ)) := by
  rw [toRats, toRats, List.map_map, List.map_map]
  exact List.map_congr_left fun x hx => cast_toNat_sub (h x hx)

/-- Sorting commutes with the translation. -/
theorem qsort_map_sub (h : ∀ x ∈ data, o ≤ x) :
    qsort (data.map (· - o)) = (qsort data).map (· - o) := by
  have hperm : (qsort (data.map (· - o))).Perm ((qsort data).map (· - o)) :=
    (qsort_perm _).trans ((qsort_perm data).symm.map _)
  refine hperm.eq_of_pairwise (fun a b _ _ => BitVec.le_antisymm) (qsort_pairwise _) ?_
  rw [List.pairwise_map]
  refine (qsort_pairwise data).imp_of_mem fun {x y} hx hy hxy => ?_
  have hox := toNat_sub_add (h x ((qsort_perm data).mem_iff.mp hx))
  have hoy := toNat_sub_add (h y ((qsort_perm data).mem_iff.mp hy))
  rw [BitVec.le_def] at hxy ⊢
  omega

variable {sortedData : List (Ccnt w)} (hne : sortedData ≠ []) (h : Shiftable o sortedData)

theorem getD_map_sub {k : ℕ} (hk : k < sortedData.length) :
    (sortedData.map (· - o)).getD k 0 = sortedData.getD k 0 - o := by
  rw [List.getD_eq_getElem _ _ (by rwa [List.length_map]), List.getD_eq_getElem _ _ hk,
    List.getElem_map]

theorem getD_mem {k : ℕ} (hk : k < sortedData.length) : sortedData.getD k 0 ∈ sortedData := by
  rw [List.getD_eq_getElem _ _ hk]
  exact List.getElem_mem hk

include h

theorem toNat_getD_map_sub {k : ℕ} (hk : k < sortedData.length) :
    ((sortedData.map (· - o)).getD k 0).toNat + o.toNat = (sortedData.getD k 0).toNat := by
  rw [getD_map_sub hk]
  exact toNat_sub_add (h.le _ (getD_mem hk))

include hne

theorem orderStatistic_map_sub (k : ℕ) :
    orderStatistic (sortedData.map (· - o)) k = orderStatistic sortedData k - o.toNat := by
  have hpos := List.length_pos_of_ne_nil hne
  rw [orderStatistic, orderStatistic, List.length_map, eq_sub_iff_add_eq, ← Nat.cast_add,
    toNat_getD_map_sub h (by omega)]

theorem resultsQuantile_map_sub {q : ℚ} (h0 : 0 ≤ q) (h1 : q ≤ 1) :
    resultsQuantile (sortedData.map (· - o)) q = resultsQuantile sortedData q - o.toNat := by
  have hne' : sortedData.map (· - o) ≠ [] := by simpa using hne
  rw [resultsQuantile_eq hne' h0 h1, resultsQuantile_eq hne h0 h1, List.length_map,
    funext (orderStatistic_map_sub hne h), interpolate_sub_const]

/-- The median of samples in the lower half of the counter range. -/
theorem resultsMedian_map_sub :
    resultsMedian (sortedData.map (· - o)) = resultsMedian sortedData - o.toNat := by
  have hpos := List.length_pos_of_ne_nil hne
  have hne' : sortedData.map (· - o) ≠ [] := by simpa using hne
  have hlower := toNat_getD_map_sub h (k := (sortedData.length - 1) / 2) (by omega)
  have hupper := toNat_getD_map_sub h (k := sortedData.length / 2) (by omega)
  have hsum : (sortedData.getD ((sortedData.length - 1) / 2) 0).toNat +
      (sortedData.getD (sortedData.length / 2) 0).toNat < 2 ^ w :=
    add_lt_of_lt_half (h.lt_half _ (getD_mem (by omega))) (h.lt_half _ (getD_mem (by omega)))
  rw [(resultsMedian_eq_average_iff hne).mpr (.inr hsum),
    (resultsMedian_eq_average_iff hne').mpr (.inr (by rw [List.length_map]; omega)),
    List.length_map, ← hlower, ← hupper]
  push_cast
  ring

end Shift

/-! ### The results -/

section Results

variable {o : Ccnt w} {data : List (Ccnt w)} (hne : data ≠ []) (h : Shiftable o data) (r : ρ)

include hne h

theorem calculateResults_mean_map_sub :
    (calculateResults (data.map (· - o)) r).mean = (calculateResults data r).mean - o.toNat := by
  have hmean : RunningMean.mean (toRats (data.map (· - o))) =
      RunningMean.mean (toRats data) - (o.toNat : ℤ) := by
    rw [toRats_map_sub h.le, RunningMean.mean_map_sub _ (toRats_ne_nil hne), Int.cast_natCast]
  have hnn := mean_toRats_nonneg (data.map (· - o))
  rw [hmean, sub_nonneg] at hnn
  rw [calculateResults_mean, calculateResults_mean, hmean,
    RunningMean.roundAway_sub_intCast (mean_toRats_nonneg data) hnn, Int.cast_sub,
    Int.cast_natCast]

theorem calculateResults_variance_map_sub :
    (calculateResults (data.map (· - o)) r).variance = (calculateResults data r).variance := by
  have hne' : data.map (· - o) ≠ [] := by simpa using hne
  change cRound (resultsVarianceLoop (qsort (data.map (· - o)))
      (ccntOfRat w (calculateResults (data.map (· - o)) r).mean)) =
    cRound (resultsVarianceLoop (qsort data) (ccntOfRat w (calculateResults data r).mean))
  have hle : ∀ x ∈ qsort data, o ≤ x := fun x hx => h.le x ((qsort_perm data).mem_iff.mp hx)
  rw [resultsVarianceLoop_eq, resultsVarianceLoop_eq, toNat_ccntOfRat_mean hne',
    toNat_ccntOfRat_mean hne, qsort_map_sub h.le, toRats_map_sub hle,
    calculateResults_mean_map_sub hne h, RunningMean.meanSq_map_sub]

/-- **Translation of the statistics.** -/
theorem calculateResults_map_sub :
    (calculateResults (data.map (· - o)) r).SmallerBy o (calculateResults data r) := by
  have hpos := List.length_pos_of_ne_nil hne
  have hsorted : Shiftable o (qsort data) := h.perm (qsort_perm data)
  have hne' := qsort_ne_nil hne
  have hsort := qsort_map_sub h.le
  have hvar := calculateResults_variance_map_sub hne h r
  refine ⟨?_, ?_, calculateResults_mean_map_sub hne h r, ?_, ?_, ?_, ?_, hvar, ?_, ?_⟩
  · simp only [calculateResults, hsort]
    exact toNat_getD_map_sub hsorted (by rwa [length_qsort])
  · simp only [calculateResults, hsort, List.length_map]
    exact toNat_getD_map_sub hsorted (by rw [length_qsort]; omega)
  · simp only [calculateResults, hsort]
    exact resultsMedian_map_sub hne' hsorted
  · simp only [calculateResults, hsort]
    exact resultsQuantile_map_sub hne' hsorted (by norm_num) (by norm_num)
  · simp only [calculateResults, hsort]
    exact resultsQuantile_map_sub hne' hsorted (by norm_num) (by norm_num)
  · simp only [calculateResults, hsort, resultsMode_map (f := (· - o)) sub_left_injective hne']
    exact toNat_sub_add (hsorted.le _ (resultsMode_mem hne'))
  · change sampleStddev (qsort (data.map (· - o))).length
        (calculateResults (data.map (· - o)) r).variance =
      sampleStddev (qsort data).length (calculateResults data r).variance
    rw [hvar, hsort, List.length_map]
  · simp only [calculateResults, List.length_map]

end Results

/-- The window of a result does not reach beyond the array. -/
theorem windowSize_le {n ignored : ℕ} (h : ignored ≤ n) : windowSize n ignored ≤ n - ignored := by
  rw [windowSize, ← Nat.cast_sub h, cInt, BitVec.toInt_ofInt, Int.bmod_eq_emod]
  split_ifs <;> omega

/-- **Translation equivariance of `process_result`.** For a call that the check of stability does
not stop, and whose number of samples is positive as an `int`: with samples in the lower half of
the counter range and none below `o`, the statistics with the overhead `o` are those with the
overhead zero, smaller by `o`. -/
theorem processResult_smallerBy (cfg : Config) {n : ℕ} (array : ℕ → Ccnt w) (desc : ResultDesc w)
    (addr : ℕ → ρ) (o : Ccnt w) (hg : desc.ignored < n)
    (ho : ∀ i, desc.ignored ≤ i → i < n → o ≤ array i ∧ (array i).toNat < 2 ^ (w - 1))
    (hacc : Accepted cfg array desc n) (hsize : 0 < windowSize n desc.ignored) :
    (processResult cfg n array { desc with overhead := o } addr).1.SmallerBy o
      (processResult cfg n array { desc with overhead := 0 } addr).1 := by
  have hwindow (c : Ccnt w) : window (subtractOverhead array desc.ignored
      (windowSize n desc.ignored) c) desc.ignored (windowSize n desc.ignored) =
        (window array desc.ignored (windowSize n desc.ignored)).map (· - c) := by
    rw [window, window, List.map_map]
    refine List.map_congr_left fun i hi => ?_
    rw [List.mem_range] at hi
    rw [subtractOverhead_apply, if_pos (by omega)]
    rfl
  have hshift : Shiftable o (window array desc.ignored (windowSize n desc.ignored)) := by
    have hle := windowSize_le hg.le
    constructor
    · intro x hx
      obtain ⟨i, hi, rfl⟩ := mem_window.mp hx
      exact (ho _ (by omega) (by omega)).1
    · intro x hx
      obtain ⟨i, hi, rfl⟩ := mem_window.mp hx
      exact (ho _ (by omega) (by omega)).2
  rw [processResult_of_accepted cfg array { desc with overhead := o } addr hacc,
    processResult_of_accepted cfg array { desc with overhead := 0 } addr hacc]
  simp only [hwindow, sub_zero, List.map_id']
  exact calculateResults_map_sub (window_ne_nil hsize) hshift _

/-- The samples `2` and `3` are not stable: a result that should be is the zero record with either
overhead. -/
theorem processResult_stable_not_smallerBy :
    let array : ℕ → Ccnt 64 := fun i => if i = 0 then 2 else 3
    let desc : ResultDesc 64 := { stable := true }
    (∀ i, 0 ≤ i → i < 2 → (1 : Ccnt 64) ≤ array i ∧ (array i).toNat < 2 ^ (64 - 1)) ∧
    ¬(processResult Config.plain 2 array { desc with overhead := 1 } id).1.SmallerBy 1
      (processResult Config.plain 2 array { desc with overhead := 0 } id).1 := by
  refine ⟨fun i _ hi => ?_, fun h => ?_⟩
  · interval_cases i <;> decide
  · exact absurd h.min (by decide)

/-- The samples `5`, `6` and `9` with the overhead `4`, after one that is ignored. -/
theorem processResult_smallerBy_four :
    let array : ℕ → Ccnt 64 := fun i => ([1, 5, 6, 9] : List (Ccnt 64)).getD i 0
    (processResult Config.plain 4 array { ignored := 1, overhead := 4 } id).1.SmallerBy 4
      (processResult Config.plain 4 array { ignored := 1, overhead := 0 } id).1 := by
  refine processResult_smallerBy Config.plain _ { ignored := 1 } id 4 (by decide) ?_ ?_ (by decide)
  · intro i hi hi'
    rw [show ({ ignored := 1 } : ResultDesc 64).ignored = 1 from rfl] at hi
    interval_cases i <;> decide
  · exact fun h => absurd h (by decide)

end Sel4bench
