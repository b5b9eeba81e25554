import Sel4bench.Driver.Benchmarks

/-!
# The samples of the applications

What the measuring loops of the applications store, as a function of the timestamps that they
read: the late loops store every difference, the early loops accumulate the ones that are not
ignored. The difference that a late loop stores and the driver then processes is the sample that
the early loop counts (`Sel4bench.early_late_accumulation`).

Run counts are `int` in the driver, so that the window of `process_result` is the whole of the
counted runs only for counts below `2 ^ 31`; above, its size wraps
(`Sel4bench.windowSize_wraps`).

## Main definitions

* `Sel4bench.storeElapsed`, `Sel4bench.earlyRun` — the two kinds of loops.
* `Sel4bench.lowPrioSignalFn`, `Sel4bench.lowPrioSignalEarlyProcFn`, `Sel4bench.lowFn`,
  `Sel4bench.lowFnEp`, `Sel4bench.hardwareMain`.

## Main results

* `Sel4bench.early_late_accumulation`.
-/

namespace Sel4bench

variable {w : ℕ}

/-- The timestamp pairs that a measuring loop reads. -/
structure Readings (w : ℕ) where
  start : ℕ → Ccnt w
  stop : ℕ → Ccnt w

/-- The readings with those of run `i` replaced. -/
def Readings.set (r : Readings w) (i : ℕ) (start stop : Ccnt w) : Readings w :=
  ⟨Function.update r.start i start, Function.update r.stop i stop⟩

section Set

variable (r : Readings w) {i j : ℕ} (start stop : Ccnt w)

@[simp] theorem Readings.set_start_self : (r.set i start stop).start i = start :=
  Function.update_self ..

@[simp] theorem Readings.set_stop_self : (r.set i start stop).stop i = stop :=
  Function.update_self ..

theorem Readings.set_start_of_ne (h : j ≠ i) : (r.set i start stop).start j = r.start j :=
  Function.update_of_ne h ..

theorem Readings.set_stop_of_ne (h : j ≠ i) : (r.set i start stop).stop j = r.stop j :=
  Function.update_of_ne h ..

/-- A further run of a loop with early processing. -/
theorem datacollectLoop_set (b runs ignored : ℕ) (o : Ccnt w) :
    datacollectLoop b (runs + 1) ignored (r.set runs start stop).start (r.set runs start stop).stop
        o =
      datacollectGetSums (BitVec.ofNat b runs) (BitVec.ofNat b ignored) start stop o
        (datacollectLoop b runs ignored r.start r.stop o) := by
  rw [datacollectLoop_succ, r.set_start_self, r.set_stop_self]
  congr 1
  exact datacollectLoop_congr ignored o fun i hi =>
    ⟨r.set_start_of_ne start stop hi.ne, r.set_stop_of_ne start stop hi.ne⟩

end Set

/-! ### The two kinds of loops -/

/-- The loop `for (int i = 0; i < runs; i++) results[i] = end - start`. -/
def storeElapsed (runs : ℕ) (r : Readings w) (results : ℕ → Ccnt w) : ℕ → Ccnt w :=
  (List.range runs).foldl (fun a i => Function.update a i (r.stop i - r.start i)) results

theorem storeElapsed_apply (runs : ℕ) (r : Readings w) (results : ℕ → Ccnt w) (k : ℕ) :
    storeElapsed runs r results k = if k < runs then r.stop k - r.start k else results k := by
  induction runs with
  | zero => simp [storeElapsed]
  | succ n ih =>
    have hsucc : storeElapsed (n + 1) r results =
        Function.update (storeElapsed n r results) n (r.stop n - r.start n) := by
      rw [storeElapsed, List.range_succ, List.foldl_append]
      rfl
    rw [hsucc, Function.update_apply]
    by_cases hk : k = n
    · rw [if_pos hk, if_pos (by omega), hk]
    · rw [if_neg hk, ih]
      congr 1
      apply propext
      omega

/-- The loop around `DATACOLLECT_GET_SUMS` and the three stores after it. -/
def earlyRun (b runs ignored : ℕ) (r : Readings w) (overhead : Ccnt w) : EarlyResults w :=
  let s := datacollectLoop b runs ignored r.start r.stop overhead
  { sum := s.sum, sum2 := s.sum2, num := BitVec.ofInt w ((runs : ℤ) - ignored) }

/-! ### Signal -/

/-- `low_prio_signal_fn`: the results block after its loop over `lo_prio_results`. -/
def lowPrioSignalFn (runs : ℕ) (r : Readings w) (results : SignalResults w) : SignalResults w :=
  results.setArray .loPrioResults (storeElapsed runs r (results.array .loPrioResults))

/-- `low_prio_signal_early_proc_fn`: the results block after its loop. -/
def lowPrioSignalEarlyProcFn (b runs ignored : ℕ) (r : Readings w) (results : SignalResults w) :
    SignalResults w :=
  { results with
    fields := { results.fields with lo := earlyRun b runs ignored r results.fields.overheadMin } }

section Accumulation

variable {b N g : ℕ} (hg : g ≤ N) (hN : N < 2 ^ (b - 1)) (r : Readings w) (o : Ccnt w)

include hg hN

theorem earlyRun_sum :
    (earlyRun b N g r o).sum = ∑ i ∈ Finset.Ico g N, (r.stop i - r.start i - o) := by
  rcases Nat.eq_zero_or_pos b with rfl | hb
  · have hzero : N = 0 := by simpa using hN
    simp [earlyRun, datacollectLoop, hzero]
  · exact datacollectLoop_sum hb hN.le (hg.trans_lt hN) r.start r.stop o

theorem earlyRun_sum2 : (earlyRun b N g r o).sum2 =
    ∑ i ∈ Finset.Ico g N, (r.stop i - r.start i - o) * (r.stop i - r.start i - o) := by
  rcases Nat.eq_zero_or_pos b with rfl | hb
  · have hzero : N = 0 := by simpa using hN
    simp [earlyRun, datacollectLoop, hzero]
  · exact datacollectLoop_sum2 hb hN.le (hg.trans_lt hN) r.start r.stop o

omit hN in
theorem earlyRun_num : (earlyRun b N g r o).num = BitVec.ofNat w (N - g) := by
  change BitVec.ofInt w ((N : ℤ) - g) = _
  rw [← Nat.cast_sub hg, BitVec.ofInt_natCast]

end Accumulation

/-- **Early processing agrees with late processing.** For fewer than `2 ^ 31` runs, the sums that
the early loop stores are the sum and the sum of squares of the samples that `process_result`
leaves in the array of the late loop, and the numbers of samples are the same. -/
theorem early_late_accumulation (cfg : Config) {b N g : ℕ} (hg : g ≤ N) (hN : N < 2 ^ (b - 1))
    (hint : N < 2 ^ 31) (r : Readings w) (results : SignalResults w) :
    let o := results.fields.overheadMin
    let early := (lowPrioSignalEarlyProcFn b N g r results).fields.lo
    let late := processArray cfg N .loPrioResults
      { stable := false, overhead := o, ignored := g } (lowPrioSignalFn N r results)
    let sample := late.2.array .loPrioResults
    early.sum = ∑ i ∈ Finset.Ico g N, sample i ∧
      early.sum2 = ∑ i ∈ Finset.Ico g N, sample i * sample i ∧
      early.num = BitVec.ofNat w late.1.samples ∧ (31 ≤ w → early.num.toNat = late.1.samples) ∧
      late.1.samples = N - g := by
  intro o early late sample
  have hacc : Accepted cfg ((lowPrioSignalFn N r results).array .loPrioResults)
      { stable := false, overhead := o, ignored := g } N := fun h => absurd h Bool.false_ne_true
  have hsize : windowSize N g = N - g := windowSize_eq hg (by omega)
  have hsample : ∀ i ∈ Finset.Ico g N, sample i = r.stop i - r.start i - o := fun i hi => by
    rw [Finset.mem_Ico] at hi
    have hproc := processResult_array cfg _ _ (RawRef.block (w := w) SignalArray.loPrioResults)
      hacc hi.1 (by change i < g + windowSize N g; omega)
    rw [lowPrioSignalFn, Block.setArray_self, storeElapsed_apply, if_pos hi.2] at hproc
    simpa [sample, late, processArray, lowPrioSignalFn] using hproc
  have hsamples : late.1.samples = N - g :=
    (processResult_samples cfg _ _ _ hacc).trans hsize
  have hnum : early.num = BitVec.ofNat w (N - g) := by
    change BitVec.ofInt w ((N : ℤ) - g) = _
    rw [← Nat.cast_sub hg, BitVec.ofInt_natCast]
  have hsquare : ∀ i ∈ Finset.Ico g N, sample i * sample i =
      (r.stop i - r.start i - o) * (r.stop i - r.start i - o) := fun i hi => by rw [hsample i hi]
  rw [Finset.sum_congr rfl hsample, Finset.sum_congr rfl hsquare, hsamples]
  refine ⟨earlyRun_sum hg hN r o, earlyRun_sum2 hg hN r o, hnum, fun hw => ?_, rfl⟩
  have hpow : 2 ^ 31 ≤ 2 ^ w := Nat.pow_le_pow_right (by omega) hw
  rw [hnum, BitVec.toNat_ofNat, Nat.mod_eq_of_lt (by omega)]

/-- Twelve runs with two warm-up runs, on a 32-bit counter that wraps. -/
theorem early_late_accumulation_twelve :
    let r : Readings 32 :=
      ⟨fun i => BitVec.ofNat 32 (4294967290 + i), fun i => BitVec.ofNat 32 (3 * i)⟩
    let results : SignalResults 32 := ⟨fun _ _ => 0, ⟨⟨0, 0, 0⟩, 5⟩⟩
    2 ≤ 12 ∧ 12 < 2 ^ (32 - 1) ∧ 12 < 2 ^ 31 ∧
      (lowPrioSignalEarlyProcFn 32 12 2 r results).fields.lo.sum =
        ∑ i ∈ Finset.Ico 2 12, (processArray Config.plain 12 .loPrioResults
          { stable := false, overhead := 5, ignored := 2 }
          (lowPrioSignalFn 12 r results)).2.array .loPrioResults i :=
  ⟨by decide, by decide, by decide,
    (early_late_accumulation Config.plain (by decide) (by decide) (by decide) _ _).1⟩

/-- For `2 ^ 32 + 1` runs the window of `process_result` has one sample. -/
theorem windowSize_wraps : windowSize (2 ^ 32 + 1) 0 = 1 := by decide

/-- The counts of the early and the late path differ for `2 ^ 32 + 1` runs on a 64-bit platform. -/
theorem early_late_accumulation_wraps :
    let N := 2 ^ 32 + 1
    let r : Readings 64 := ⟨fun _ => 0, fun _ => 7⟩
    let results : SignalResults 64 := ⟨fun _ _ => 0, ⟨⟨0, 0, 0⟩, 5⟩⟩
    0 ≤ N ∧ N < 2 ^ (64 - 1) ∧
      (lowPrioSignalEarlyProcFn 64 N 0 r results).fields.lo.num.toNat = N ∧
      (processArray Config.plain N .loPrioResults
        { stable := false, overhead := results.fields.overheadMin, ignored := 0 }
        (lowPrioSignalFn N r results)).1.samples = 1 := by
  intro N r results
  refine ⟨by decide, by decide, ?_, ?_⟩
  · change (BitVec.ofInt 64 ((N : ℤ) - (0 : ℕ))).toNat = N
    decide
  · exact (processResult_samples _ _ _ _ fun h => absurd h Bool.false_ne_true).trans
      windowSize_wraps

/-! ### Scheduler -/

/-- `low_fn`: the array `results` after its loop. -/
def lowFn (r : Readings w) (results : ℕ → Ccnt w) : ℕ → Ccnt w := storeElapsed nRuns r results

/-- A counter value passed to a thread as a word argument: it is cast to `seL4_Word`, written in
decimal, read back by `atol` as a signed word, and converted to `ccnt_t`. -/
def wordArg (b : ℕ) (v : Ccnt w) : Ccnt w := (v.setWidth b).signExtend w

/-- `low_fn_ep` with its argument `overhead`. -/
def lowFnEp (b : ℕ) (r : Readings w) (overhead : Ccnt w) : EarlyResults w :=
  earlyRun b nRuns nIgnored r overhead

/-- `results->overhead_ccnt_min = getMinOverhead(results->overhead_ccnt, N_RUNS)` of `main`. -/
def setOverheadCcntMin (results : SchedulerResults w) : SchedulerResults w :=
  { results with fields :=
    { results.fields with overheadCcntMin := getMinOverhead (results.array .overheadCcnt) nRuns } }

/-- One level of `benchmark_prio_threads_ep` or `benchmark_prio_processes_ep`, which both pass
`results->overhead_ccnt_min` to `low_fn_ep`. -/
def benchmarkPrioEp (b : ℕ) (r : Readings w) (results : SchedulerResults w) : EarlyResults w :=
  lowFnEp b r (wordArg b results.fields.overheadCcntMin)

/-! ### Hardware -/

/-- `measure_nullsyscall_overhead`. -/
def measureNullsyscallOverhead (r : Readings w) (results : ℕ → Ccnt w) : ℕ → Ccnt w :=
  storeElapsed nRuns r results

/-- `measure_nullsyscall`. -/
def measureNullsyscall (r : Readings w) (results : ℕ → Ccnt w) : ℕ → Ccnt w :=
  storeElapsed nRuns r results

/-- `measure_nullsyscall_ep`. -/
def measureNullsyscallEp (b : ℕ) (r : Readings w) (results : HardwareResults w) :
    HardwareResults w :=
  { results with fields := { results.fields with
      nullSyscall := earlyRun b nRuns nIgnored r results.fields.overheadMin } }

/-- A zeroed results page. -/
def HardwareResults.zero : HardwareResults w := ⟨fun _ _ => 0, ⟨0, ⟨0, 0, 0⟩⟩⟩

/-- `main` of the hardware application up to `benchmark_finished`, with the readings of its three
loops. -/
def hardwareMain (b : ℕ) (overhead real ep : Readings w) (results : HardwareResults w) :
    HardwareResults w :=
  let results := results.setArray .nullSyscallOverhead
    (measureNullsyscallOverhead overhead (results.array .nullSyscallOverhead))
  let results := results.setArray .nullSyscallResults
    (measureNullsyscall real (results.array .nullSyscallResults))
  measureNullsyscallEp b ep results

end Sel4bench
