import Mathlib.Algebra.BigOperators.Intervals
import Mathlib.Algebra.BigOperators.Ring.Finset
import Mathlib.Data.BitVec
import Mathlib.Order.Bounds.Basic

/-!
# Early processing of samples

The support of `benchmark.h` and `support.c` for the benchmark applications that drop their raw
samples and keep only the sum and the sum of squares (`DATACOLLECT_GET_SUMS`), and the overhead
they subtract (`getMinOverhead`). Cycle counters `ccnt_t` have `w` bits and machine words
`seL4_Word` have `b` bits; all arithmetic on them wraps.

The decision whether a sample is a warm-up run is branch-free: the sign bit of the word `i - n`
is moved to the last position. For indices in the lower half of the word range it is the
comparison `n ≤ i` (`Sel4bench.isCounted_eq`), so that the loop adds up exactly the runs from
`n` on (`Sel4bench.datacollectLoop_sum`, `Sel4bench.datacollectLoop_sum2`).

## Main definitions

* `Sel4bench.datacollectGetSums`, `Sel4bench.datacollectLoop`.
* `Sel4bench.getMinOverhead`.

## Main results

* `Sel4bench.datacollectLoop_sum`, `Sel4bench.datacollectLoop_sum2`.
* `Sel4bench.getMinOverhead_isLeast`.
-/

namespace Sel4bench

/-- A cycle count `ccnt_t` of `w` bits. -/
abbrev Ccnt (w : ℕ) := BitVec w

/-- A machine word `seL4_Word` of `b` bits. -/
abbrev Word (b : ℕ) := BitVec b

/-- The accumulators `sum` and `sum2` of an early-processing loop. -/
structure Sums (w : ℕ) where
  sum : Ccnt w
  sum2 : Ccnt w
deriving DecidableEq, Repr

variable {b w : ℕ}

/-- Two values in the lower half of the counter range are added without a wrap. -/
theorem add_lt_of_lt_half {x y : ℕ} (hx : x < 2 ^ (w - 1)) (hy : y < 2 ^ (w - 1)) :
    x + y < 2 ^ w := by
  rcases w with _ | w
  · rw [Nat.zero_sub, pow_zero] at hx hy
    rw [pow_zero]
    omega
  · rw [Nat.add_sub_cancel] at hx hy
    rw [pow_succ]
    omega

/-- A sum of counter values is the sum of what they stand for, up to wraps. -/
theorem toNat_finsetSum (s : Finset ℕ) (f : ℕ → Ccnt w) (x : ℕ → ℕ)
    (h : ∀ i ∈ s, f i = ((x i : ℕ) : Ccnt w)) :
    (∑ i ∈ s, f i).toNat = (∑ i ∈ s, x i) % 2 ^ w := by
  rw [Finset.sum_congr rfl h, ← Nat.cast_sum, BitVec.natCast_eq_ofNat, BitVec.toNat_ofNat]

/-- A sum of counter values that does not wrap. -/
theorem toNat_finsetSum_of_lt {s : Finset ℕ} {f : ℕ → Ccnt w}
    (h : ∑ i ∈ s, (f i).toNat < 2 ^ w) : (∑ i ∈ s, f i).toNat = ∑ i ∈ s, (f i).toNat := by
  rw [toNat_finsetSum s f (fun i => (f i).toNat), Nat.mod_eq_of_lt h]
  intro i _
  rw [BitVec.natCast_eq_ofNat, BitVec.ofNat_toNat, BitVec.setWidth_eq]

/-! ### One sample -/

/-- `is_counted = ( ~(i - n) ) >> (seL4_WordBits - 1)`. -/
def isCounted (i n : Word b) : Word b := ~~~(i - n) >>> (b - 1)

/-- `sample = is_counted * (e - s - o)`: the product is formed in the wider of the types of its
factors and converted back to `ccnt_t`. -/
def countedSample (counted : Word b) (s e o : Ccnt w) : Ccnt w :=
  (counted.setWidth (max b w) * (e - s - o).setWidth (max b w)).setWidth w

/-- `DATACOLLECT_GET_SUMS(i, n, s, e, o, par_sum, par_sum2)`. -/
def datacollectGetSums (i n : Word b) (s e o : Ccnt w) (acc : Sums w) : Sums w :=
  let sample := countedSample (isCounted i n) s e o
  { sum := acc.sum + sample, sum2 := acc.sum2 + sample * sample }

/-- A word index below `2 ^ (b - 1)` is counted from `n` on. -/
theorem isCounted_eq {i n : ℕ} (hi : i < 2 ^ (b - 1)) (hn : n < 2 ^ (b - 1)) :
    isCounted (BitVec.ofNat b i) (BitVec.ofNat b n) = if n ≤ i then 1 else 0 := by
  rcases b with _ | k
  · exact BitVec.of_length_zero.trans BitVec.of_length_zero.symm
  have hpow : 2 ^ (k + 1) = 2 * 2 ^ k := by omega
  rw [Nat.add_sub_cancel] at hi hn
  apply BitVec.eq_of_toNat_eq
  have hin : i % 2 ^ (k + 1) = i := Nat.mod_eq_of_lt (by omega)
  have hnn : n % 2 ^ (k + 1) = n := Nat.mod_eq_of_lt (by omega)
  have hdiff : (BitVec.ofNat (k + 1) i - BitVec.ofNat (k + 1) n).toNat =
      if n ≤ i then i - n else 2 ^ (k + 1) + i - n := by
    rw [BitVec.toNat_sub, BitVec.toNat_ofNat, BitVec.toNat_ofNat, hin, hnn]
    split_ifs with h
    · rw [show 2 ^ (k + 1) - n + i = i - n + 2 ^ (k + 1) by omega, Nat.add_mod_right,
        Nat.mod_eq_of_lt (by omega)]
    · rw [Nat.mod_eq_of_lt (by omega)]
      omega
  rw [isCounted, BitVec.toNat_ushiftRight, BitVec.toNat_not, hdiff, Nat.add_sub_cancel,
    Nat.shiftRight_eq_div_pow]
  split_ifs with h
  · rw [Nat.div_eq_of_lt_le (k := 1) (by omega) (by omega)]
    simp
  · rw [Nat.div_eq_of_lt (by omega)]
    simp

theorem countedSample_one (s e o : Ccnt w) :
    countedSample (1 : Word (b + 1)) s e o = e - s - o := by
  apply BitVec.eq_of_toNat_eq
  simp [countedSample]

theorem countedSample_zero (s e o : Ccnt w) : countedSample (0 : Word b) s e o = 0 := by
  simp [countedSample]

theorem countedSample_isCounted {i n : ℕ} (hi : i < 2 ^ (b - 1)) (hn : n < 2 ^ (b - 1))
    (hb : 0 < b) (s e o : Ccnt w) :
    countedSample (isCounted (BitVec.ofNat b i) (BitVec.ofNat b n)) s e o =
      if n ≤ i then e - s - o else 0 := by
  obtain ⟨k, rfl⟩ := Nat.exists_eq_add_one_of_ne_zero hb.ne'
  rw [isCounted_eq hi hn]
  split_ifs
  · exact countedSample_one s e o
  · exact countedSample_zero s e o

/-! ### The accumulating loop -/

/-- The loop `for (seL4_Word i = 0; i < runs; i++)` around `DATACOLLECT_GET_SUMS`, from
`sum = sum2 = 0`, on the timestamp pairs of the runs. -/
def datacollectLoop (b : ℕ) (runs ignored : ℕ) (start stop : ℕ → Ccnt w) (o : Ccnt w) : Sums w :=
  (List.range runs).foldl (fun acc i => datacollectGetSums (BitVec.ofNat b i)
    (BitVec.ofNat b ignored) (start i) (stop i) o acc) ⟨0, 0⟩

theorem datacollectLoop_succ (runs ignored : ℕ) (start stop : ℕ → Ccnt w) (o : Ccnt w) :
    datacollectLoop b (runs + 1) ignored start stop o =
      datacollectGetSums (BitVec.ofNat b runs) (BitVec.ofNat b ignored) (start runs) (stop runs) o
        (datacollectLoop b runs ignored start stop o) := by
  simp [datacollectLoop, List.range_succ]

/-- The loop depends only on the timestamps of its runs. -/
theorem datacollectLoop_congr {runs : ℕ} (ignored : ℕ) {start stop start' stop' : ℕ → Ccnt w}
    (o : Ccnt w) (h : ∀ i < runs, start i = start' i ∧ stop i = stop' i) :
    datacollectLoop b runs ignored start stop o =
      datacollectLoop b runs ignored start' stop' o := by
  induction runs with
  | zero => rfl
  | succ n ih =>
    obtain ⟨hstart, hstop⟩ := h n n.lt_succ_self
    rw [datacollectLoop_succ, datacollectLoop_succ, ih fun i hi => h i (hi.trans n.lt_succ_self),
      hstart, hstop]

section Loop

variable {runs ignored : ℕ} (hb : 0 < b) (hr : runs ≤ 2 ^ (b - 1)) (hi : ignored < 2 ^ (b - 1))
  (start stop : ℕ → Ccnt w) (o : Ccnt w)

include hb hr hi

/-- Both accumulators together: `f` is the identity for `sum` and the square for `sum2`. -/
private theorem datacollectLoop_acc :
    (datacollectLoop b runs ignored start stop o).sum =
        ∑ i ∈ Finset.Ico ignored runs, (stop i - start i - o) ∧
      (datacollectLoop b runs ignored start stop o).sum2 =
        ∑ i ∈ Finset.Ico ignored runs, (stop i - start i - o) * (stop i - start i - o) := by
  induction runs with
  | zero => simp [datacollectLoop]
  | succ n ih =>
    obtain ⟨ihs, ihs2⟩ := ih (by omega)
    rw [datacollectLoop_succ, datacollectGetSums,
      countedSample_isCounted (by omega) hi hb]
    rcases Nat.lt_or_ge n ignored with hlt | hge
    · rw [Finset.Ico_eq_empty (by omega)] at ihs ihs2 ⊢
      simp [ihs, ihs2, Nat.not_le.mpr hlt]
    · rw [Finset.sum_Ico_succ_top hge, Finset.sum_Ico_succ_top hge, ← ihs, ← ihs2]
      simp [hge]

/-- **The sum of early processing** is the sum of the samples that are not ignored. -/
theorem datacollectLoop_sum : (datacollectLoop b runs ignored start stop o).sum =
    ∑ i ∈ Finset.Ico ignored runs, (stop i - start i - o) :=
  (datacollectLoop_acc hb hr hi start stop o).1

/-- **The sum of squares of early processing.** -/
theorem datacollectLoop_sum2 : (datacollectLoop b runs ignored start stop o).sum2 =
    ∑ i ∈ Finset.Ico ignored runs, (stop i - start i - o) * (stop i - start i - o) :=
  (datacollectLoop_acc hb hr hi start stop o).2

end Loop

/-! ### The overhead of early processing -/

/-- `getMinOverhead`: the loop starts from the largest `ccnt_t`. -/
def getMinOverhead (overhead : ℕ → Ccnt w) (overheadSize : ℕ) : Ccnt w :=
  (List.range overheadSize).foldl (fun min i => if overhead i < min then overhead i else min) (-1)

theorem getMinOverhead_succ (overhead : ℕ → Ccnt w) (n : ℕ) :
    getMinOverhead overhead (n + 1) = if overhead n < getMinOverhead overhead n then overhead n
      else getMinOverhead overhead n := by
  rw [getMinOverhead, List.range_succ, List.foldl_append]
  rfl

/-- The least overhead only depends on the overheads in the array. -/
theorem getMinOverhead_congr {f g : ℕ → Ccnt w} {n : ℕ} (h : ∀ i < n, f i = g i) :
    getMinOverhead f n = getMinOverhead g n := by
  induction n with
  | zero => rfl
  | succ n ih =>
    rw [getMinOverhead_succ, getMinOverhead_succ, ih fun i hi => h i (by omega), h n (by omega)]

theorem getMinOverhead_le (overhead : ℕ → Ccnt w) {n i : ℕ} (hi : i < n) :
    getMinOverhead overhead n ≤ overhead i := by
  induction n with
  | zero => omega
  | succ n ih =>
    rw [getMinOverhead_succ]
    rcases Nat.lt_succ_iff_lt_or_eq.mp hi with hi | rfl
    · split_ifs with h
      · exact BitVec.le_trans (BitVec.le_of_lt h) (ih hi)
      · exact ih hi
    · split_ifs with h
      · exact BitVec.le_refl _
      · exact BitVec.not_lt.mp h

theorem exists_eq_getMinOverhead (overhead : ℕ → Ccnt w) {n : ℕ} (hn : 0 < n) :
    ∃ i < n, overhead i = getMinOverhead overhead n := by
  induction n with
  | zero => omega
  | succ n ih =>
    rw [getMinOverhead_succ]
    split_ifs with h
    · exact ⟨n, n.lt_succ_self, rfl⟩
    · rcases Nat.eq_zero_or_pos n with rfl | hn
      · refine ⟨0, Nat.one_pos, ?_⟩
        -- Nothing is above the initial value, so the first datum is equal to it.
        have hmax : getMinOverhead overhead 0 = BitVec.allOnes w := BitVec.neg_one_eq_allOnes
        rw [hmax] at h ⊢
        exact BitVec.le_antisymm (BitVec.le_def.mpr (by simp; omega)) (BitVec.not_lt.mp h)
      · obtain ⟨i, hi, heq⟩ := ih hn
        exact ⟨i, hi.trans n.lt_succ_self, heq⟩

theorem getMinOverhead_isLeast (overhead : ℕ → Ccnt w) {n : ℕ} (hn : 0 < n) :
    IsLeast (overhead '' Set.Iio n) (getMinOverhead overhead n) := by
  constructor
  · obtain ⟨i, hi, heq⟩ := exists_eq_getMinOverhead overhead hn
    exact ⟨i, hi, heq⟩
  · rintro _ ⟨i, hi, rfl⟩
    exact getMinOverhead_le overhead hi

end Sel4bench
