import Mathlib.Algebra.BigOperators.Group.List.Lemmas
import Mathlib.Algebra.Order.BigOperators.Group.Finset
import Mathlib.Algebra.Order.BigOperators.Group.List
import Mathlib.Algebra.Order.Round
import Mathlib.Data.Finset.Max
import Mathlib.Data.Rat.Floor
import Mathlib.Tactic.FieldSimp
import Mathlib.Tactic.Linarith
import Mathlib.Tactic.Ring

/-!
# Running means, second moments and rounding

A *running mean* of a list visits the data once and moves the mean by `(x - m) / (i + 1)` at the
datum of index `i`. It is the arithmetic mean (`RunningMean.runningMean_eq`), whatever the order
of the data. Around a value `c` that need not be the mean, the mean square distance is the
population variance plus the square of the distance from `c` to the mean
(`RunningMean.meanSq_eq`), and it is a function of the first two raw moments
(`RunningMean.rawMoments_eq`). The integer mean of natural numbers stays between the least and the
greatest of them (`RunningMean.sum_div_card_mem`).

Rounding to the nearest integer with halves away from zero (`RunningMean.roundAway`) agrees with
`round` on nonnegative arguments; there it exceeds the floor exactly when the fractional part is
at least one half.

## Main definitions

* `RunningMean.runningMean`, `RunningMean.mean`, `RunningMean.variance`, `RunningMean.meanSq`.
* `RunningMean.roundAway`.

## Main results

* `RunningMean.runningMean_eq` — the recurrence computes the mean.
* `RunningMean.meanSq_eq`, `RunningMean.rawMoments_eq` — the variance decomposition.
* `RunningMean.roundAway_eq_floor_add` — rounding against the floor.
-/

namespace RunningMean

section Field

variable {K : Type*} [Field K]

/-- One update of a running mean `m` by the datum `p.1` of index `p.2`. -/
def update (m : K) (p : K × ℕ) : K := m + (p.1 - m) / (p.2 + 1)

/-- The running mean of a list, started at zero. -/
def runningMean (l : List K) : K := l.zipIdx.foldl update 0

/-- The arithmetic mean. -/
def mean (l : List K) : K := l.sum / l.length

/-- The mean square distance from `c`. -/
def meanSq (c : K) (l : List K) : K := mean (l.map fun x => (x - c) ^ 2)

/-- The population variance. -/
def variance (l : List K) : K := meanSq (mean l) l

theorem runningMean_concat (l : List K) (x : K) :
    runningMean (l ++ [x]) = update (runningMean l) (x, l.length) := by
  simp [runningMean, List.zipIdx_append]

/-- **The recurrence computes the mean.** -/
theorem runningMean_eq [CharZero K] (l : List K) : runningMean l = mean l := by
  induction l using List.reverseRecOn with
  | nil => simp [runningMean, mean]
  | append_singleton l x ih =>
    rw [runningMean_concat, ih, update, mean, mean]
    have hsucc : ((l.length : K) + 1) ≠ 0 := Nat.cast_add_one_ne_zero _
    simp only [List.sum_append, List.sum_singleton, List.length_append, List.length_singleton,
      Nat.cast_add, Nat.cast_one]
    rcases eq_or_ne (l.length : K) 0 with hl | hl
    · have hnil : l = [] := by simpa using hl
      subst hnil
      simp
    · field_simp
      ring

theorem mean_perm {l l' : List K} (h : l.Perm l') : mean l = mean l' := by
  rw [mean, mean, h.sum_eq, h.length_eq]

theorem meanSq_perm (c : K) {l l' : List K} (h : l.Perm l') : meanSq c l = meanSq c l' :=
  mean_perm (h.map _)

theorem sum_map_sub_sq (c : K) (l : List K) :
    (l.map fun x => (x - c) ^ 2).sum =
      (l.map (· ^ 2)).sum - 2 * c * l.sum + l.length * c ^ 2 := by
  induction l with
  | nil => simp
  | cons x l ih =>
    simp only [List.map_cons, List.sum_cons, List.length_cons, ih]
    push_cast
    ring

theorem mean_map_sub [CharZero K] (c : K) {l : List K} (hl : l ≠ []) :
    mean (l.map (· - c)) = mean l - c := by
  have hlen : (l.length : K) ≠ 0 := by simpa using hl
  have hsum : (l.map (· - c)).sum = l.sum - l.length * c := by
    clear hl hlen
    induction l with
    | nil => simp
    | cons x l ih =>
      simp only [List.map_cons, List.sum_cons, List.length_cons, ih]
      push_cast
      ring
  rw [mean, mean, List.length_map, hsum]
  field_simp

/-- The mean square distance is that of the translated data from the translated value. -/
theorem meanSq_map_sub (c d : K) (l : List K) :
    meanSq (c - d) (l.map (· - d)) = meanSq c l := by
  rw [meanSq, meanSq, List.map_map]
  congr 1
  refine List.map_congr_left fun x _ => ?_
  simp only [Function.comp_apply]
  ring

/-- The mean square distance from `c` in terms of the raw moments of the data. -/
theorem rawMoments_eq (c : K) (l : List K) :
    ((l.map (· ^ 2)).sum - 2 * c * l.sum + l.length * c * c) / l.length = meanSq c l := by
  rw [meanSq, mean, List.length_map, sum_map_sub_sq]
  ring

/-- **Variance decomposition.** -/
theorem meanSq_eq [CharZero K] (c : K) {l : List K} (hl : l ≠ []) :
    meanSq c l = variance l + (mean l - c) ^ 2 := by
  have hlen : (l.length : K) ≠ 0 := by simpa using hl
  rw [variance, ← rawMoments_eq c, ← rawMoments_eq (mean l), mean]
  field_simp
  ring

end Field

/-- The integer mean of numbers lies between the least and the greatest of them. -/
theorem sum_div_card_mem {s : Finset ℕ} (hs : s.Nonempty) (f : ℕ → ℕ) :
    ∃ i ∈ s, ∃ j ∈ s, (∀ k ∈ s, f i ≤ f k ∧ f k ≤ f j) ∧
      f i ≤ (∑ k ∈ s, f k) / s.card ∧ (∑ k ∈ s, f k) / s.card ≤ f j := by
  obtain ⟨i, hi, hmin⟩ := s.exists_min_image f hs
  obtain ⟨j, hj, hmax⟩ := s.exists_max_image f hs
  refine ⟨i, hi, j, hj, fun k hk => ⟨hmin k hk, hmax k hk⟩, ?_, ?_⟩
  · rw [Nat.le_div_iff_mul_le (Finset.card_pos.mpr hs), Nat.mul_comm]
    exact s.card_nsmul_le_sum f _ hmin
  · refine Nat.div_le_of_le_mul ?_
    exact s.sum_le_card_nsmul f _ hmax

section Order

variable {K : Type*} [Field K] [LinearOrder K] [IsStrictOrderedRing K]

theorem mean_nonneg {l : List K} (h : ∀ x ∈ l, 0 ≤ x) : 0 ≤ mean l :=
  div_nonneg (List.sum_nonneg h) (Nat.cast_nonneg _)

/-- The mean lies between any bounds of the data. -/
theorem mean_mem_Icc {l : List K} (hl : l ≠ []) {a b : K} (h : ∀ x ∈ l, a ≤ x ∧ x ≤ b) :
    a ≤ mean l ∧ mean l ≤ b := by
  have hlen : (0 : K) < l.length := by
    exact_mod_cast List.length_pos_of_ne_nil hl
  rw [mean, le_div_iff₀ hlen, div_le_iff₀ hlen]
  constructor
  · simpa [nsmul_eq_mul, mul_comm] using List.card_nsmul_le_sum l a fun x hx => (h x hx).1
  · simpa [nsmul_eq_mul, mul_comm] using List.sum_le_card_nsmul l b fun x hx => (h x hx).2

variable [FloorRing K]

/-- The nearest integer, halves away from zero. -/
def roundAway (x : K) : ℤ := if 0 ≤ x then round x else -round (-x)

omit [IsStrictOrderedRing K] in
theorem roundAway_of_nonneg {x : K} (hx : 0 ≤ x) : roundAway x = round x := by
  rw [roundAway, if_pos hx]

theorem abs_sub_roundAway (x : K) : |x - roundAway x| ≤ 1 / 2 := by
  rw [roundAway]
  split_ifs
  · exact abs_sub_round x
  · have h := abs_sub_round (-x)
    rw [← abs_neg] at h
    simpa [add_comm] using h

/-- Rounding a nonnegative number goes one above the floor from the middle on. -/
theorem roundAway_eq_floor_add {x : K} (hx : 0 ≤ x) :
    roundAway x = ⌊x⌋ + if 1 / 2 ≤ Int.fract x then 1 else 0 := by
  rw [roundAway_of_nonneg hx, round_eq, Int.floor_eq_iff]
  have hsplit := Int.floor_add_fract x
  have hlt := Int.fract_lt_one x
  have hnn := Int.fract_nonneg x
  split_ifs with h
  · push_cast
    constructor <;> linarith
  · rw [not_le] at h
    push_cast
    constructor <;> linarith

/-- Rounding commutes with an integer translation that does not change the sign. -/
theorem roundAway_sub_intCast {x : K} {c : ℤ} (hx : 0 ≤ x) (hc : (c : K) ≤ x) :
    roundAway (x - c) = roundAway x - c := by
  rw [roundAway_of_nonneg hx, roundAway_of_nonneg (sub_nonneg.mpr hc), round_sub_intCast]

/-- Rounding stays between integer bounds. -/
theorem roundAway_mem_Icc {x : K} (hx : 0 ≤ x) {a b : ℤ} (ha : (a : K) ≤ x) (hb : x ≤ b) :
    a ≤ roundAway x ∧ roundAway x ≤ b := by
  rw [roundAway_of_nonneg hx, round_eq]
  constructor
  · exact Int.le_floor.mpr (by linarith)
  · rw [← Int.lt_add_one_iff, Int.floor_lt]
    push_cast
    linarith

end Order

end RunningMean
