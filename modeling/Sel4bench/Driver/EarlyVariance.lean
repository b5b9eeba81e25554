import Mathlib.Algebra.Order.Chebyshev
import Sel4bench.Driver.Json

/-!
# The sign of the early variance

`calculate_results_early_proc` computes the variance from `sum` and `sum2`, which the measuring
loop adds up in `ccnt_t`. In exact arithmetic the variance is a mean square distance; with sums
that have wrapped it can be negative, and the standard deviation is then not a number
(`Sel4bench.earlyVariance_negative`). The sign is decided by the Cauchy–Schwarz inequality for the
two sums as they are stored, up to the remainder of the mean
(`Sel4bench.earlyVariance_nonneg_iff`). If the sum of squares does not wrap, they satisfy it.

## Main definitions

* `Sel4bench.earlySample` — a sample of the measuring loop.

## Main results

* `Sel4bench.earlyVariance_nonneg_iff` — the sign of the variance, from the stored sums.
* `Sel4bench.earlyVariance_nonneg` — from a sum of squares that does not wrap.
-/

namespace Sel4bench

variable {w : ℕ} {ρ : Type*}

/-- The value of the sample of run `i`. -/
def earlySample (start stop : ℕ → Ccnt w) (o : Ccnt w) (i : ℕ) : ℕ := (stop i - start i - o).toNat

/-! ### Wrapped sums -/

section Sums

variable {b runs ignored : ℕ} (hb : 0 < b) (hr : runs ≤ 2 ^ (b - 1)) (hi : ignored < 2 ^ (b - 1))
  (start stop : ℕ → Ccnt w) (o : Ccnt w)

include hb hr hi

theorem toNat_datacollectLoop_sum : (datacollectLoop b runs ignored start stop o).sum.toNat =
    (∑ i ∈ Finset.Ico ignored runs, earlySample start stop o i) % 2 ^ w := by
  rw [datacollectLoop_sum hb hr hi]
  refine toNat_finsetSum _ _ _ fun i _ => ?_
  rw [earlySample, BitVec.natCast_eq_ofNat, BitVec.ofNat_toNat, BitVec.setWidth_eq]

theorem toNat_datacollectLoop_sum2 : (datacollectLoop b runs ignored start stop o).sum2.toNat =
    (∑ i ∈ Finset.Ico ignored runs, earlySample start stop o i ^ 2) % 2 ^ w := by
  rw [datacollectLoop_sum2 hb hr hi]
  refine toNat_finsetSum _ _ _ fun i _ => ?_
  rw [earlySample, sq, Nat.cast_mul, BitVec.natCast_eq_ofNat, BitVec.ofNat_toNat,
    BitVec.setWidth_eq]

end Sums

/-! ### The sign of the variance -/

/-- The variance around the integer quotient of the sums is nonnegative if and only if the sums
satisfy the Cauchy–Schwarz inequality up to the square of the remainder. -/
theorem quotient_variance_nonneg_iff {n : ℕ} (hn : 0 < n) (S Q : ℕ) :
    0 ≤ ((Q : ℚ) - 2 * (S / n : ℕ) * S + n * (S / n : ℕ) * (S / n : ℕ)) / n ↔
      S ^ 2 ≤ n * Q + (S % n) ^ 2 := by
  have hpos : (0 : ℚ) < n := Nat.cast_pos.mpr hn
  have hsplit : (S : ℚ) = n * (S / n : ℕ) + (S % n : ℕ) := by
    exact_mod_cast (Nat.div_add_mod S n).symm
  have hmul : n * ((Q : ℚ) - 2 * (S / n : ℕ) * S + n * (S / n : ℕ) * (S / n : ℕ)) =
      n * Q + (S % n : ℕ) ^ 2 - S ^ 2 := by
    rw [hsplit]
    ring
  rw [le_div_iff₀ hpos, zero_mul, ← mul_nonneg_iff_of_pos_left hpos, hmul, sub_nonneg]
  exact_mod_cast Iff.rfl

theorem sampleStddev_ne_nan_iff {n : ℕ} (hn : 2 ≤ n) (variance : ℚ) :
    sampleStddev n variance ≠ .nan ↔ 0 ≤ variance := by
  have hn' : (2 : ℚ) ≤ n := by exact_mod_cast hn
  have hpos : 0 < (n : ℚ) / (n - 1) := div_pos (by linarith) (by linarith)
  rw [sampleStddev, if_neg (by omega)]
  split_ifs with hneg
  · exact iff_of_false (fun h => h rfl) fun h => absurd (mul_nonneg h hpos.le) (not_le.mpr hneg)
  · refine iff_of_true Double.noConfusion ?_
    exact nonneg_of_mul_nonneg_left (not_lt.mp hneg) hpos

/-- The row of an early result has the string `"nan"` only for its standard deviation. -/
theorem resultToJson_ne_nan_iff (cfg : Config) (deref : ρ → ℕ → Ccnt w) (result : Result ρ w)
    (hraw : result.rawData = none) :
    (∀ m ∈ resultToJson cfg deref result, m.2 ≠ .string "nan") ↔ result.stddev ≠ .nan := by
  cases h : result.stddev <;>
    simp [resultToJson, hraw, h, jsonInteger, jsonRealCheck, roundTo3DecimalPlaces]

/-- Sums that do not wrap satisfy the Cauchy–Schwarz inequality. -/
theorem sq_sum_mod_le {ignored runs : ℕ} (x : ℕ → ℕ)
    (h : ∑ i ∈ Finset.Ico ignored runs, x i ^ 2 < 2 ^ w) :
    ((∑ i ∈ Finset.Ico ignored runs, x i) % 2 ^ w) ^ 2 ≤
      (runs - ignored) * ((∑ i ∈ Finset.Ico ignored runs, x i ^ 2) % 2 ^ w) := by
  have hle : ∑ i ∈ Finset.Ico ignored runs, x i ≤ ∑ i ∈ Finset.Ico ignored runs, x i ^ 2 :=
    Finset.sum_le_sum fun i _ => Nat.le_self_pow two_ne_zero _
  have hcs := sq_sum_le_card_mul_sum_sq (s := Finset.Ico ignored runs) (f := x)
  rwa [Nat.card_Ico, ← Nat.mod_eq_of_lt (hle.trans_lt h), ← Nat.mod_eq_of_lt h] at hcs

/-- The early variance is nonnegative if and only if the sums as they are stored satisfy the
Cauchy–Schwarz inequality, up to the remainder of the mean. The number of samples is at least two
and fits in `ccnt_t`. -/
theorem earlyVariance_nonneg_iff (cfg : Config) (deref : ρ → ℕ → Ccnt w) {b runs ignored : ℕ}
    (hb : 0 < b) (hr : runs ≤ 2 ^ (b - 1)) (hn : ignored + 2 ≤ runs)
    (hw : runs - ignored < 2 ^ w) (start stop : ℕ → Ccnt w) (o : Ccnt w) :
    let x := earlySample start stop o
    let S := (∑ i ∈ Finset.Ico ignored runs, x i) % 2 ^ w
    let Q := (∑ i ∈ Finset.Ico ignored runs, x i ^ 2) % 2 ^ w
    let n := runs - ignored
    let sums := datacollectLoop b runs ignored start stop o
    let result : Result ρ w :=
      calculateResultsEarlyProc b (BitVec.ofNat w n) sums.sum sums.sum2
    (0 ≤ result.variance ∧ result.stddev ≠ .nan ∧
      ∀ m ∈ resultToJson cfg deref result, m.2 ≠ .string "nan") ↔
        S ^ 2 ≤ n * Q + (S % n) ^ 2 := by
  intro x S Q n sums result
  have hi : ignored < 2 ^ (b - 1) := by omega
  have hpow : 2 ^ (b - 1) < 2 ^ b := Nat.pow_lt_pow_right (by omega) (by omega)
  have hnum : (BitVec.ofNat w n).toNat = n := by
    rw [BitVec.toNat_ofNat, Nat.mod_eq_of_lt hw]
  have hsize : ((BitVec.ofNat w n).setWidth b).toNat = n := by
    rw [BitVec.toNat_setWidth, hnum]
    exact Nat.mod_eq_of_lt ((Nat.sub_le _ _).trans_lt (hr.trans_lt hpow))
  have hsum : sums.sum.toNat = S := toNat_datacollectLoop_sum hb hr hi start stop o
  have hsum2 : sums.sum2.toNat = Q := toNat_datacollectLoop_sum2 hb hr hi start stop o
  have hvar : result.variance =
      ((Q : ℚ) - 2 * (S / n : ℕ) * S + n * (S / n : ℕ) * (S / n : ℕ)) / n := by
    change resultsVarianceEarlyProc _ _ _
      (ccntOfRat w ((sums.sum / BitVec.ofNat w n).toNat : ℕ)) = _
    rw [resultsVarianceEarlyProc, toNat_ccntOfRat (BitVec.isLt _), BitVec.toNat_udiv, hnum, hsize,
      hsum, hsum2]
  have hstddev : result.stddev = sampleStddev n result.variance := by
    change sampleStddev (BitVec.ofNat w n).toNat _ = _
    rw [hnum]
    rfl
  rw [resultToJson_ne_nan_iff cfg deref result rfl, hstddev,
    sampleStddev_ne_nan_iff (by omega), and_self, and_self, hvar]
  exact quotient_variance_nonneg_iff (by omega) S Q

/-- **The early variance is nonnegative** if the sum of the squares of the samples does not wrap:
`sum2` has then its exact value, and so has `sum`. -/
theorem earlyVariance_nonneg (cfg : Config) (deref : ρ → ℕ → Ccnt w) {b runs ignored : ℕ}
    (hb : 0 < b) (hr : runs ≤ 2 ^ (b - 1)) (hn : ignored + 2 ≤ runs)
    (hw : runs - ignored < 2 ^ w) (start stop : ℕ → Ccnt w) (o : Ccnt w)
    (h : ∑ i ∈ Finset.Ico ignored runs, earlySample start stop o i ^ 2 < 2 ^ w) :
    let sums := datacollectLoop b runs ignored start stop o
    let result : Result ρ w :=
      calculateResultsEarlyProc b (BitVec.ofNat w (runs - ignored)) sums.sum sums.sum2
    0 ≤ result.variance ∧ result.stddev ≠ .nan ∧
      ∀ m ∈ resultToJson cfg deref result, m.2 ≠ .string "nan" := by
  intro sums result
  have hcs := sq_sum_mod_le (earlySample start stop o) h
  exact (earlyVariance_nonneg_iff cfg deref hb hr hn hw start stop o).mpr
    (hcs.trans (Nat.le_add_right _ _))

/-- Three samples of `100` cycles after an overhead of `5`, one of them ignored. -/
theorem earlyVariance_nonneg_three :
    let sums := datacollectLoop 64 3 1 (fun _ => (0 : Ccnt 64)) (fun _ => 105) 5
    0 ≤ (calculateResultsEarlyProc 64 (BitVec.ofNat 64 2) sums.sum sums.sum2 :
      Result Unit 64).variance := by
  have hn : 1 + 2 ≤ 3 := by decide
  have h := earlyVariance_nonneg Config.plain (fun (_ : Unit) _ => 0) (by decide : 0 < 64)
    (by decide) hn (by decide) (fun _ => (0 : Ccnt 64)) (fun _ => 105) 5 (by decide)
  exact h.1

/-- A sum that has wrapped need not show: samples of `81000`, `0` and `0` cycles, on a 32-bit
counter. -/
example :
    let stop : ℕ → Ccnt 32 := fun i => if i = 0 then 81000 else 0
    let sums := datacollectLoop 32 3 0 (fun _ => 0) stop 0
    2 ^ 32 ≤ ∑ i ∈ Finset.Ico 0 3, earlySample (fun _ => 0) stop 0 i ^ 2 ∧
      0 ≤ (calculateResultsEarlyProc 32 (BitVec.ofNat 32 3) sums.sum sums.sum2 :
        Result Unit 32).variance := by decide +kernel

/-- Two samples of `2 ^ 16` cycles, on a 32-bit counter. -/
theorem earlyVariance_negative :
    let start : ℕ → Ccnt 32 := fun _ => 0
    let stop : ℕ → Ccnt 32 := fun _ => 65536
    let sums := datacollectLoop 32 2 0 start stop 0
    let result : Result Unit 32 :=
      calculateResultsEarlyProc 32 (BitVec.ofNat 32 2) sums.sum sums.sum2
    result.variance < 0 ∧ result.stddev = .nan ∧
      ("Stddev", .string "nan") ∈ resultToJson Config.plain (fun _ _ => 0) result := by
  intro start stop sums result
  have hnan : result.stddev = .nan := by decide +kernel
  refine ⟨by decide +kernel, hnan, ?_⟩
  simp [resultToJson, hnan, roundTo3DecimalPlaces, jsonRealCheck]

end Sel4bench
