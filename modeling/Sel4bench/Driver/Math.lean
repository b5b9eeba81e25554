import Mathlib.Data.BitVec
import Mathlib.Data.List.Sort
import Sel4bench.EarlyProcessing
import Sel4bench.Lib.RunningMean

/-!
# The statistics of the driver

`math.c` of the driver: the statistics of a list of samples (`calculate_results`) and those of
the accumulators of early processing (`calculate_results_early_proc`). Floating point is exact
rational arithmetic, with the rounding calls of the source and no other; a standard deviation is
kept as the square root of a rational (`Sel4bench.Double.sqrt`).

The late mean is rounded to the nearest integer and the early mean is an integer division, so
that the two variances are taken around two different integers. Both are the population variance
plus the square of the distance of the integer from the mean
(`Sel4bench.resultsVarianceLoop_eq`, `Sel4bench.resultsVarianceEarlyProc_eq`), which bounds how
far the two rows of one measurement can be apart (`Sel4bench.late_early_statistics`).

## Main definitions

* `Sel4bench.Result` — `result_t`.
* `Sel4bench.calculateResults`, `Sel4bench.calculateResultsEarlyProc`.

## Main results

* `Sel4bench.calculateResults_min_isLeast` — the reported minimum.
* `Sel4bench.late_early_statistics` — the exact relation of the late and the early statistics.
-/

namespace Sel4bench

variable {w : ℕ} {ρ : Type*}

/-! ### Doubles and conversions -/

/-- A `double`, floating point being exact: a rational, the square root of one, or a special
value. -/
inductive Double
  | rat (q : ℚ)
  | sqrt (q : ℚ)
  | inf
  | nan
deriving DecidableEq

/-- The conversion of a `double` to `ccnt_t` drops the fractional part. -/
def ccntOfRat (w : ℕ) (q : ℚ) : Ccnt w :=
  BitVec.ofInt w (if 0 ≤ q then ⌊q⌋ else ⌈q⌉)

/-- `round` and `roundl`. -/
def cRound (q : ℚ) : ℚ := RunningMean.roundAway q

/-- `sqrt(variance * ((double) n / (double)(n - 1.0f)))`. For `n = 1` the quotient is infinite,
and so is its product with a positive variance; its product with zero is not a number. -/
def sampleStddev (n : ℕ) (variance : ℚ) : Double :=
  if n = 1 then if 0 < variance then .inf else .nan
  else if variance * (n / (n - 1)) < 0 then .nan
  else .sqrt (variance * (n / (n - 1)))

/-! ### Result records -/

/-- `result_t`. The pointer `raw_data` is a reference in `ρ`, or null. -/
structure Result (ρ : Type*) (w : ℕ) where
  variance : ℚ
  stddev : Double
  mean : ℚ
  min : Ccnt w
  max : Ccnt w
  mode : Ccnt w
  median : ℚ
  firstQuantile : ℚ
  thirdQuantile : ℚ
  samples : ℕ
  rawData : Option ρ

/-- The record with all bytes zero. -/
def Result.zero : Result ρ w where
  variance := 0
  stddev := .rat 0
  mean := 0
  min := 0
  max := 0
  mode := 0
  median := 0
  firstQuantile := 0
  thirdQuantile := 0
  samples := 0
  rawData := none

/-! ### The statistics of a sorted array -/

/-- The samples as rational numbers. -/
def toRats (array : List (Ccnt w)) : List ℚ := array.map fun x => (x.toNat : ℚ)

/-- The loop of `results_mean`. -/
def resultsMeanLoop (array : List (Ccnt w)) : ℚ :=
  array.zipIdx.foldl (fun mean x => mean + ((x.1.toNat : ℚ) - mean) / (x.2 + 1)) 0

/-- `results_mean`. -/
def resultsMean (array : List (Ccnt w)) : ℚ := cRound (resultsMeanLoop array)

/-- The loop of `results_variance`, around the integer `mean`. -/
def resultsVarianceLoop (array : List (Ccnt w)) (mean : Ccnt w) : ℚ :=
  array.zipIdx.foldl (fun variance x =>
    let delta := (x.1.toNat : ℚ) - mean.toNat
    variance + (delta * delta - variance) / (x.2 + 1)) 0

/-- `results_variance`. -/
def resultsVariance (array : List (Ccnt w)) (mean : Ccnt w) : ℚ :=
  cRound (resultsVarianceLoop array mean)

/-- `results_stddev`. -/
def resultsStddev (array : List (Ccnt w)) (variance : ℚ) : Double :=
  sampleStddev array.length variance

/-- `results_median`. The sum of the two middle elements is taken in `ccnt_t`. -/
def resultsMedian (sortedData : List (Ccnt w)) : ℚ :=
  let n := sortedData.length
  let lhs := (n - 1) / 2
  let rhs := n / 2
  if n = 0 then 0
  else if lhs = rhs then (sortedData.getD lhs 0).toNat
  else (sortedData.getD lhs 0 + sortedData.getD rhs 0).toNat / 2

/-- `results_quantile`. -/
def resultsQuantile (sortedData : List (Ccnt w)) (quantile : ℚ) : ℚ :=
  let n := sortedData.length
  let index := quantile * ((n - 1 : ℕ) : ℚ)
  let lhs := ⌊index⌋.toNat
  let delta := index - lhs
  if n = 0 then 0
  else if lhs = n - 1 then (sortedData.getD lhs 0).toNat
  else (1 - delta) * (sortedData.getD lhs 0).toNat + delta * (sortedData.getD (lhs + 1) 0).toNat

/-- The variables of the loop of `results_mode`. -/
structure ModeState (w : ℕ) where
  mode : Ccnt w
  currentValue : Ccnt w
  currentFreq : Ccnt w
  modeFreq : Ccnt w

/-- One iteration of the loop of `results_mode`. -/
def ModeState.step (s : ModeState w) (x : Ccnt w) : ModeState w :=
  if s.currentValue = x then { s with currentFreq := s.currentFreq + 1 }
  else
    let s' := if s.currentFreq > s.modeFreq then
      { s with modeFreq := s.currentFreq, mode := s.currentValue } else s
    { s' with currentValue := x, currentFreq := 1 }

/-- `results_mode`. The update of `mode_freq` after the loop changes no result. -/
def resultsMode : List (Ccnt w) → Ccnt w
  | [] => 0
  | [x] => x
  | x :: rest => (rest.foldl ModeState.step ⟨x, x, 1, 0⟩).mode

/-- `ccnt_compare_fn`. -/
def ccntCompareFn (first second : Ccnt w) : ℤ :=
  (if first > second then 1 else 0) - (if first < second then 1 else 0)

/-- `qsort` with `ccnt_compare_fn`. -/
def qsort (data : List (Ccnt w)) : List (Ccnt w) :=
  data.mergeSort fun a b => decide (ccntCompareFn a b ≤ 0)

/-- `calculate_results` on the samples `data`, which are found at `rawData`. -/
def calculateResults (data : List (Ccnt w)) (rawData : ρ) : Result ρ w :=
  let sortedData := qsort data
  let mean := resultsMean sortedData
  let variance := resultsVariance sortedData (ccntOfRat w mean)
  { min := sortedData.getD 0 0
    max := sortedData.getD (data.length - 1) 0
    mean := mean
    variance := variance
    stddev := resultsStddev sortedData variance
    median := resultsMedian sortedData
    firstQuantile := resultsQuantile sortedData (1 / 4)
    thirdQuantile := resultsQuantile sortedData (3 / 4)
    mode := resultsMode sortedData
    rawData := some rawData
    samples := data.length }

/-! ### The statistics of early processing -/

/-- `results_variance_early_proc`; `num` is a `size_t`. -/
def resultsVarianceEarlyProc (num : ℕ) (sum sum2 mean : Ccnt w) : ℚ :=
  let dm : ℚ := mean.toNat
  let dsum : ℚ := sum.toNat
  let dsum2 : ℚ := sum2.toNat
  (dsum2 - 2 * dm * dsum + num * dm * dm) / num

/-- `calculate_results_early_proc`, with `size_t` of `b` bits. The division of the sum is undefined
when `num` is zero; here it gives zero. -/
def calculateResultsEarlyProc (b : ℕ) (num sum sum2 : Ccnt w) : Result ρ w :=
  let mean : ℚ := (sum / num).toNat
  let variance := resultsVarianceEarlyProc (num.setWidth b).toNat sum sum2 (ccntOfRat w mean)
  { (Result.zero : Result ρ w) with
    mean := mean
    variance := variance
    stddev := sampleStddev num.toNat variance
    samples := (num.setWidth b).toNat }

/-! ### Sorted data -/

theorem ccntCompareFn_nonpos {x y : Ccnt w} : ccntCompareFn x y ≤ 0 ↔ x ≤ y := by
  unfold ccntCompareFn
  by_cases h : y < x
  · simp [h, BitVec.not_lt.mpr (BitVec.le_of_lt h), ← BitVec.not_lt]
  · rw [if_neg h]
    split_ifs <;> simp [BitVec.not_lt.mp h]

theorem qsort_perm (data : List (Ccnt w)) : (qsort data).Perm data :=
  List.mergeSort_perm _ _

@[simp] theorem length_qsort (data : List (Ccnt w)) : (qsort data).length = data.length :=
  (qsort_perm data).length_eq

theorem qsort_pairwise (data : List (Ccnt w)) : (qsort data).Pairwise (· ≤ ·) := by
  have h : (qsort data).Pairwise fun a b => decide (ccntCompareFn a b ≤ 0) = true :=
    List.pairwise_mergeSort
      (fun a b c => by simpa [ccntCompareFn_nonpos] using BitVec.le_trans)
      (fun a b => by simpa [ccntCompareFn_nonpos] using BitVec.le_total a b) data
  exact h.imp fun h => ccntCompareFn_nonpos.mp (by simpa using h)

theorem qsort_ne_nil {data : List (Ccnt w)} (h : data ≠ []) : qsort data ≠ [] := fun h' =>
  h (List.length_eq_zero_iff.mp (by rw [← length_qsort, h', List.length_nil]))

theorem calculateResults_min_isLeast {data : List (Ccnt w)} (h : data ≠ []) (r : ρ) :
    IsLeast {x | x ∈ data} (calculateResults data r).min := by
  obtain ⟨x, l, hl⟩ := List.exists_cons_of_ne_nil (qsort_ne_nil h)
  have hmem : ∀ y, y ∈ data ↔ y ∈ x :: l := fun y => by rw [← hl, (qsort_perm data).mem_iff]
  have hsorted := qsort_pairwise data
  rw [hl, List.pairwise_cons] at hsorted
  have hmin : (calculateResults data r).min = x := by simp [calculateResults, hl]
  refine ⟨?_, fun y hy => ?_⟩
  · rw [hmin]
    exact (hmem x).mpr List.mem_cons_self
  · rw [hmin]
    rcases List.mem_cons.mp ((hmem y).mp hy) with rfl | hy
    · exact BitVec.le_refl _
    · exact hsorted.1 y hy

theorem calculateResults_max_isGreatest {data : List (Ccnt w)} (h : data ≠ []) (r : ρ) :
    IsGreatest {x | x ∈ data} (calculateResults data r).max := by
  obtain ⟨l, x, hl⟩ := List.eq_nil_or_concat' (qsort data) |>.resolve_left (qsort_ne_nil h)
  have hmem : ∀ y, y ∈ data ↔ y ∈ l ++ [x] := fun y => by rw [← hl, (qsort_perm data).mem_iff]
  have hsorted := qsort_pairwise data
  rw [hl, List.pairwise_append] at hsorted
  have hlen : data.length - 1 = l.length := by
    rw [← length_qsort, hl, List.length_append, List.length_singleton, Nat.add_sub_cancel]
  have hmax : (calculateResults data r).max = x := by simp [calculateResults, hl, hlen]
  refine ⟨?_, fun y hy => ?_⟩
  · rw [hmax]
    exact (hmem x).mpr (by simp)
  · rw [hmax]
    rcases List.mem_append.mp ((hmem y).mp hy) with hy | hy
    · exact hsorted.2.2 y hy x (by simp)
    · rw [List.mem_singleton.mp hy]
      exact BitVec.le_refl _

/-! ### The recurrences -/

theorem toRats_perm {l l' : List (Ccnt w)} (h : l.Perm l') : (toRats l).Perm (toRats l') :=
  h.map _

theorem toRats_ne_nil {l : List (Ccnt w)} (h : l ≠ []) : toRats l ≠ [] := by
  simpa [toRats] using h

theorem resultsMeanLoop_eq (l : List (Ccnt w)) :
    resultsMeanLoop l = RunningMean.mean (toRats l) := by
  rw [← RunningMean.runningMean_eq, RunningMean.runningMean, toRats, List.zipIdx_map,
    List.foldl_map]
  rfl

/-- The loop of `results_variance` is the mean square distance from its argument. -/
theorem resultsVarianceLoop_eq (l : List (Ccnt w)) (m : Ccnt w) :
    resultsVarianceLoop l m = RunningMean.meanSq (m.toNat : ℚ) (toRats l) := by
  rw [RunningMean.meanSq, ← RunningMean.runningMean_eq, RunningMean.runningMean, toRats,
    List.map_map, List.zipIdx_map, List.foldl_map]
  simp [resultsVarianceLoop, RunningMean.update, sq]

theorem toNat_sum_of_lt {l : List (Ccnt w)} (h : (l.map BitVec.toNat).sum < 2 ^ w) :
    l.sum.toNat = (l.map BitVec.toNat).sum := by
  induction l with
  | nil => simp
  | cons x l ih =>
    simp only [List.map_cons, List.sum_cons] at h ⊢
    rw [BitVec.toNat_add, ih (by omega), Nat.mod_eq_of_lt h]

/-- The accumulators of `n` samples that do not wrap. -/
structure Accumulators (x : List (Ccnt w)) : Prop where
  sum_lt : (x.map BitVec.toNat).sum < 2 ^ w
  sum2_lt : (x.map fun y => y.toNat * y.toNat).sum < 2 ^ w

section Accumulators

variable {x : List (Ccnt w)} (hx : x ≠ []) (hacc : Accumulators x)

theorem sum_toRats (l : List (Ccnt w)) :
    (toRats l).sum = ((l.map BitVec.toNat).sum : ℕ) := by
  induction l with
  | nil => simp [toRats]
  | cons y l ih => simpa [toRats] using ih

theorem sum_sq_toRats (l : List (Ccnt w)) :
    ((toRats l).map (· ^ 2)).sum = (((l.map fun y => y.toNat * y.toNat).sum : ℕ) : ℚ) := by
  induction l with
  | nil => simp [toRats]
  | cons y l ih =>
    simp only [toRats, List.map_cons, List.sum_cons] at ih ⊢
    rw [ih]
    push_cast
    ring

include hacc

theorem Accumulators.toNat_sum : x.sum.toNat = (x.map BitVec.toNat).sum :=
  toNat_sum_of_lt hacc.sum_lt

theorem Accumulators.toNat_sum2 :
    (x.map fun y => y * y).sum.toNat = (x.map fun y => y.toNat * y.toNat).sum := by
  have hsq : ∀ y ∈ x, (y * y).toNat = y.toNat * y.toNat := fun y hy => by
    rw [BitVec.toNat_mul, Nat.mod_eq_of_lt]
    refine lt_of_le_of_lt (List.single_le_sum (by simp) _ ?_) hacc.sum2_lt
    exact List.mem_map.mpr ⟨y, hy, rfl⟩
  have hmap : (x.map fun y => y * y).map BitVec.toNat = x.map fun y => y.toNat * y.toNat := by
    rw [List.map_map]
    exact List.map_congr_left hsq
  rw [toNat_sum_of_lt (by rw [hmap]; exact hacc.sum2_lt), hmap]

end Accumulators

/-! ### The late and the early statistics of one list of samples -/

/-- A number of range converts to `ccnt_t` without loss. -/
theorem toNat_ccntOfRat {m : ℕ} (hm : m < 2 ^ w) : (ccntOfRat w m).toNat = m := by
  rw [ccntOfRat, if_pos (Nat.cast_nonneg m), Int.floor_natCast, BitVec.ofInt_natCast,
    BitVec.toNat_ofNat, Nat.mod_eq_of_lt hm]

section Late

variable {x : List (Ccnt w)} (hx : x ≠ []) (r : ρ)

theorem mean_toRats_nonneg (l : List (Ccnt w)) : 0 ≤ RunningMean.mean (toRats l) := by
  refine RunningMean.mean_nonneg fun y hy => ?_
  obtain ⟨z, -, rfl⟩ := List.mem_map.mp hy
  exact Nat.cast_nonneg _

theorem calculateResults_mean :
    (calculateResults x r).mean = RunningMean.roundAway (RunningMean.mean (toRats x)) := by
  change cRound (resultsMeanLoop (qsort x)) = _
  rw [resultsMeanLoop_eq, RunningMean.mean_perm (toRats_perm (qsort_perm x)), cRound]

include hx

/-- The late mean lies between the least and the greatest sample. -/
theorem calculateResults_mean_mem :
    ((calculateResults x r).min.toNat : ℚ) ≤ (calculateResults x r).mean ∧
      (calculateResults x r).mean ≤ (calculateResults x r).max.toNat := by
  have hmin := (calculateResults_min_isLeast hx r).2
  have hmax := (calculateResults_max_isGreatest hx r).2
  have hbounds := RunningMean.mean_mem_Icc (toRats_ne_nil hx)
    (a := ((calculateResults x r).min.toNat : ℚ)) (b := ((calculateResults x r).max.toNat : ℚ))
    (fun y hy => by
      obtain ⟨z, hz, rfl⟩ := List.mem_map.mp hy
      exact ⟨Nat.cast_le.mpr (hmin hz), Nat.cast_le.mpr (hmax hz)⟩)
  have hround := RunningMean.roundAway_mem_Icc (mean_toRats_nonneg x)
    (a := (calculateResults x r).min.toNat) (b := (calculateResults x r).max.toNat)
    (by exact_mod_cast hbounds.1) (by exact_mod_cast hbounds.2)
  rw [calculateResults_mean]
  exact ⟨by exact_mod_cast hround.1, by exact_mod_cast hround.2⟩

/-- The conversion of the late mean to the parameter of `results_variance` is exact. -/
theorem toNat_ccntOfRat_mean :
    ((ccntOfRat w (calculateResults x r).mean).toNat : ℚ) = (calculateResults x r).mean := by
  obtain ⟨hmin, hmax⟩ := calculateResults_mean_mem hx r
  have hround := calculateResults_mean (x := x) r
  have hnn : 0 ≤ RunningMean.roundAway (RunningMean.mean (toRats x)) := by
    rw [hround] at hmin
    exact_mod_cast (Nat.cast_nonneg _).trans hmin
  obtain ⟨m, hm⟩ := Int.eq_ofNat_of_zero_le hnn
  have hmean : (calculateResults x r).mean = (m : ℚ) := by
    rw [hround, hm, Int.cast_natCast]
  rw [hmean, Nat.cast_inj]
  rw [hmean, Nat.cast_le] at hmax
  exact toNat_ccntOfRat (hmax.trans_lt (BitVec.isLt _))

/-- The recurrence of `results_variance`, before it is rounded. -/
theorem resultsVarianceLoop_calculateResults :
    resultsVarianceLoop (qsort x) (ccntOfRat w (calculateResults x r).mean) =
      RunningMean.variance (toRats x) +
        (RunningMean.mean (toRats x) - (calculateResults x r).mean) ^ 2 := by
  rw [resultsVarianceLoop_eq, toNat_ccntOfRat_mean hx r,
    RunningMean.meanSq_perm _ (toRats_perm (qsort_perm x)),
    RunningMean.meanSq_eq _ (toRats_ne_nil hx)]

end Late

section Early

variable {x : List (Ccnt w)} (hx : x ≠ []) (hacc : Accumulators x) (hw : x.length < 2 ^ w)

include hacc hw

theorem toNat_sum_div_length :
    (((x.sum / BitVec.ofNat w x.length).toNat : ℕ) : ℤ) = ⌊RunningMean.mean (toRats x)⌋ := by
  rw [RunningMean.mean, sum_toRats, BitVec.toNat_udiv, BitVec.toNat_ofNat, Nat.mod_eq_of_lt hw,
    hacc.toNat_sum, toRats, List.length_map, Rat.floor_natCast_div_natCast, Int.natCast_div]

/-- The early mean is the floor of the mean of the samples. -/
theorem calculateResultsEarlyProc_mean (b : ℕ) (sum2 : Ccnt w) :
    (calculateResultsEarlyProc b (BitVec.ofNat w x.length) x.sum sum2 : Result ρ w).mean =
      (⌊RunningMean.mean (toRats x)⌋ : ℚ) := by
  rw [← toNat_sum_div_length hacc hw]
  rfl

include hx

/-- `results_variance_early_proc` is the mean square distance from the early mean. -/
theorem calculateResultsEarlyProc_variance {b : ℕ} (hb : x.length < 2 ^ b) :
    (calculateResultsEarlyProc b (BitVec.ofNat w x.length) x.sum
        (x.map fun y => y * y).sum : Result ρ w).variance =
      RunningMean.variance (toRats x) + Int.fract (RunningMean.mean (toRats x)) ^ 2 := by
  have hnum : ((BitVec.ofNat w x.length).setWidth b).toNat = x.length := by
    rw [BitVec.toNat_setWidth, BitVec.toNat_ofNat, Nat.mod_eq_of_lt hw, Nat.mod_eq_of_lt hb]
  have hmean := toNat_sum_div_length hacc hw
  have hlen : (toRats x).length = x.length := List.length_map _
  change resultsVarianceEarlyProc _ _ _
    (ccntOfRat w ((x.sum / BitVec.ofNat w x.length).toNat : ℕ)) = _
  rw [resultsVarianceEarlyProc, toNat_ccntOfRat (BitVec.isLt _), hnum, hacc.toNat_sum,
    hacc.toNat_sum2, ← sum_toRats, ← sum_sq_toRats, ← hlen, RunningMean.rawMoments_eq,
    RunningMean.meanSq_eq _ (toRats_ne_nil hx), Int.fract, ← hmean, Int.cast_natCast,
    hlen]

end Early

/-- **Late against early statistics.** For samples whose accumulators do not wrap, with `μ` the
mean and `V` the population variance: the late mean is the integer nearest to `μ`, between the
least and the greatest sample and exact as a `ccnt_t`; the early mean is the floor of `μ`; the
two variances before rounding are `V` plus the squared distances of these integers from `μ`. The
number of samples is passed as a `size_t` to the one and as a `ccnt_t` to the other function. -/
theorem late_early_statistics (b : ℕ) {x : List (Ccnt w)} (hx : x ≠ []) (hacc : Accumulators x)
    (hw : x.length < 2 ^ w) (hb : x.length < 2 ^ b) (r : ρ) :
    let μ := RunningMean.mean (toRats x)
    let V := RunningMean.variance (toRats x)
    let L := calculateResults x r
    let E : Result ρ w := calculateResultsEarlyProc b (BitVec.ofNat w x.length) x.sum
      (x.map fun y => y * y).sum
    ((∃ m : ℤ, L.mean = m) ∧ |μ - L.mean| ≤ 1 / 2 ∧ L.mean = RunningMean.roundAway μ ∧
      (L.min.toNat : ℚ) ≤ L.mean ∧ L.mean ≤ L.max.toNat ∧
      ((ccntOfRat w L.mean).toNat : ℚ) = L.mean) ∧
    (E.mean = ⌊μ⌋ ∧ L.mean - E.mean = if 1 / 2 ≤ Int.fract μ then 1 else 0) ∧
    resultsVarianceLoop (qsort x) (ccntOfRat w L.mean) = V + (μ - L.mean) ^ 2 ∧
    E.variance = V + (μ - E.mean) ^ 2 ∧ V ≤ E.variance ∧ E.variance < V + 1 ∧
    |L.variance - E.variance| < 3 / 2 := by
  intro μ V L E
  have hmean : L.mean = RunningMean.roundAway μ := calculateResults_mean r
  have hfloor : E.mean = ⌊μ⌋ := calculateResultsEarlyProc_mean hacc hw b _
  have hfract : μ - E.mean = Int.fract μ := by rw [hfloor, Int.fract]
  have hnearest : |μ - L.mean| ≤ 1 / 2 := hmean ▸ RunningMean.abs_sub_roundAway μ
  have hdiff : L.mean - E.mean = if 1 / 2 ≤ Int.fract μ then 1 else 0 := by
    rw [hmean, hfloor, RunningMean.roundAway_eq_floor_add (mean_toRats_nonneg x)]
    split_ifs <;> push_cast <;> ring
  have hloop : resultsVarianceLoop (qsort x) (ccntOfRat w L.mean) = V + (μ - L.mean) ^ 2 :=
    resultsVarianceLoop_calculateResults hx r
  have hvar : E.variance = V + (μ - E.mean) ^ 2 := by
    rw [hfract]
    exact calculateResultsEarlyProc_variance hx hacc hw hb
  have hnn := Int.fract_nonneg μ
  have hlt := Int.fract_lt_one μ
  obtain ⟨hmin, hmax⟩ := calculateResults_mean_mem hx r
  refine ⟨⟨⟨_, hmean⟩, hnearest, hmean, hmin, hmax, toNat_ccntOfRat_mean hx r⟩,
    ⟨hfloor, hdiff⟩, hloop, hvar, ?_, ?_, ?_⟩
  · rw [hvar]
    exact le_add_of_nonneg_right (sq_nonneg _)
  · rw [hvar, hfract]
    nlinarith
  · -- The final rounding of the late variance costs one half, the two integers less than one.
    have hround : |V + (μ - L.mean) ^ 2 - L.variance| ≤ 1 / 2 :=
      hloop ▸ RunningMean.abs_sub_roundAway _
    have hgap : |(μ - L.mean) ^ 2 - (μ - E.mean) ^ 2| < 1 := by
      have hL : μ - L.mean = Int.fract μ - if 1 / 2 ≤ Int.fract μ then 1 else 0 := by
        rw [← hdiff, ← hfract]
        ring
      rw [hL, hfract]
      split_ifs with h
      · rw [abs_lt]
        constructor <;> nlinarith
      · simp
    rw [hvar]
    rw [abs_le] at hround
    rw [abs_lt] at hgap ⊢
    constructor <;> linarith [hround.1, hround.2, hgap.1, hgap.2]

/-- The statistics of the samples `1, 2, 2, 4`, on 64-bit counters. -/
theorem late_early_statistics_example :
    let x : List (Ccnt 64) := [1, 2, 2, 4]
    x ≠ [] ∧ Accumulators x ∧ x.length < 2 ^ 64 ∧
      (calculateResults x ()).mean - (calculateResultsEarlyProc 64 (BitVec.ofNat 64 x.length) x.sum
        (x.map fun y => y * y).sum : Result Unit 64).mean =
          if 1 / 2 ≤ Int.fract (RunningMean.mean (toRats x)) then 1 else 0 := by
  have hx : ([1, 2, 2, 4] : List (Ccnt 64)) ≠ [] := by decide
  have hacc : Accumulators ([1, 2, 2, 4] : List (Ccnt 64)) := ⟨by decide, by decide⟩
  exact ⟨hx, hacc, by decide, (late_early_statistics 64 hx hacc (by decide) (by decide) ()).2.1.2⟩

end Sel4bench
