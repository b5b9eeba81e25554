import Sel4bench.Driver.Frame
import Sel4bench.Overhead.Samples
import Mathlib.Data.Nat.ModEq

/-!
# Agreement of the overheads of early and late processing

An application subtracts an overhead while it measures (early processing), the driver subtracts
one afterwards (late processing). Over the `100` counted runs, two overheads give the same sum if
and only if they agree modulo `2 ^ (w - 2)` (`Sel4bench.sum_sub_eq_iff`), so that the sums of two
paths compare exactly when their overheads do.

* The scheduler takes the early overhead from `overhead_ccnt` and the late one from
  `overhead_signal`.
* The hardware application takes the early overhead from a field that is never set.
* The other benchmarks take both from one array, the early one with the warm-up samples and the
  late one without.

## Main definitions

* `Sel4bench.SharedOverhead`, `Sel4bench.earlyOverhead`, `Sel4bench.lateOverhead`.

## Main results

* `Sel4bench.scheduler_sums_eq_iff`, `Sel4bench.hardware_sum_eq_iff`,
  `Sel4bench.earlyOverhead_le_lateOverhead`.
-/

namespace Sel4bench

variable {w : ℕ}

/-! ### Sums with two overheads -/

/-- `100 = 4 * 25` and `25` is invertible: multiples of `100` are equal modulo `2 ^ w` when the
factors are modulo `2 ^ (w - 2)`. -/
theorem nsmul_hundred_eq_iff (a b : Ccnt w) :
    100 • a = 100 • b ↔ a.toNat ≡ b.toNat [MOD 2 ^ (w - 2)] := by
  have hmod : 100 • a = 100 • b ↔ 100 * a.toNat ≡ 100 * b.toNat [MOD 2 ^ w] := by
    rw [nsmul_eq_mul, nsmul_eq_mul, ← BitVec.toNat_inj]
    simp [Nat.ModEq, BitVec.toNat_mul]
  rw [hmod]
  rcases Nat.lt_or_ge w 2 with hw | hw
  · have hone : 2 ^ (w - 2) = 1 := by rw [Nat.sub_eq_zero_of_le hw.le, pow_zero]
    rw [hone]
    refine iff_of_true ?_ Nat.modEq_one
    have hdvd : 2 ^ w ∣ 100 := (pow_dvd_pow 2 hw.le).trans (by decide)
    exact ((Nat.modEq_zero_iff_dvd.mpr (hdvd.mul_right _)).trans
      (Nat.modEq_zero_iff_dvd.mpr (hdvd.mul_right _)).symm)
  · have hpow : 2 ^ w = 4 * 2 ^ (w - 2) := by
      rw [show (4 : ℕ) = 2 ^ 2 from rfl, ← pow_add, Nat.add_sub_cancel' hw]
    have hcoprime : Nat.gcd (2 ^ (w - 2)) 25 = 1 := Nat.Coprime.pow_left _ (by decide)
    rw [hpow, show 100 = 4 * 25 from rfl, mul_assoc, mul_assoc,
      Nat.ModEq.mul_left_cancel_iff' (by decide)]
    exact ⟨Nat.ModEq.cancel_left_of_coprime hcoprime, Nat.ModEq.mul_left 25⟩

/-- The sums of the counted samples with two overheads. -/
theorem sum_sub_eq_iff (f : ℕ → Ccnt w) (a b : Ccnt w) :
    ∑ i ∈ Finset.Ico nIgnored nRuns, (f i - a) = ∑ i ∈ Finset.Ico nIgnored nRuns, (f i - b) ↔
      a.toNat ≡ b.toNat [MOD 2 ^ (w - 2)] := by
  rw [Finset.sum_sub_distrib, Finset.sum_sub_distrib, sub_right_inj, Finset.sum_const,
    Finset.sum_const, Nat.card_Ico]
  exact nsmul_hundred_eq_iff a b

theorem isLeast_unique {s : Set (Ccnt w)} {a b : Ccnt w} (ha : IsLeast s a) (hb : IsLeast s b) :
    a = b :=
  BitVec.le_antisymm (ha.2 hb.1) (hb.2 ha.1)

theorem nRuns_lt_wordBits (cfg : Config) : nRuns < 2 ^ (cfg.wordBits - 1) := by
  rcases cfg.wordBits_eq with h | h <;> rw [h] <;> decide

theorem windowSize_nRuns : windowSize nRuns nIgnored = 100 := by decide

/-- The window of a processed array, after the warm-up samples. -/
theorem exists_lt_windowSize_iff {P : ℕ → Prop} :
    (∃ i < windowSize nRuns nIgnored, P (nIgnored + i)) ↔ ∃ i ∈ Set.Ico nIgnored nRuns, P i := by
  rw [windowSize_nRuns]
  constructor
  · rintro ⟨i, hi, h⟩
    exact ⟨nIgnored + i, ⟨by omega, by simp only [nRuns]; omega⟩, h⟩
  · rintro ⟨i, ⟨hlo, hhi⟩, h⟩
    simp only [nRuns] at hhi
    exact ⟨i - nIgnored, by omega, by rwa [Nat.add_sub_cancel' hlo]⟩

section Counted

variable {ρ : Type*} (cfg : Config) (array : ℕ → Ccnt w) (desc : ResultDesc w) (addr : ℕ → ρ)

/-- The counted samples of an accepted array have the overhead subtracted. -/
theorem processResult_counted (h : Accepted cfg array desc nRuns)
    (hignored : desc.ignored = nIgnored) {k : ℕ} (hk : k ∈ Finset.Ico nIgnored nRuns) :
    (processResult cfg nRuns array desc addr).2 k = array k - desc.overhead := by
  rw [Finset.mem_Ico] at hk
  refine processResult_array cfg array desc addr h (hignored ▸ hk.1) ?_
  rw [hignored, windowSize_nRuns]
  exact hk.2

/-- The minimum of an accepted array of overheads is that of its counted samples. -/
theorem processResult_min_counted (h : Accepted cfg array desc nRuns)
    (hignored : desc.ignored = nIgnored) (hoverhead : desc.overhead = 0) :
    IsLeast (array '' Set.Ico nIgnored nRuns) (processResult cfg nRuns array desc addr).1.min := by
  have hleast := processResult_min_isLeast cfg array desc addr h
    (by rw [hignored, windowSize_nRuns]; decide)
  have hset : {x | ∃ i < windowSize nRuns desc.ignored,
      array (desc.ignored + i) - desc.overhead = x} = array '' Set.Ico nIgnored nRuns := by
    ext x
    rw [Set.mem_ofPred_eq, hignored, hoverhead]
    exact exists_lt_windowSize_iff (P := fun i => array i - 0 = x) |>.trans (by simp)
  rwa [hset] at hleast

end Counted

/-! ### Scheduler -/

/-- The overhead that `process_scheduler_results` subtracts. -/
def signalOverhead (cfg : Config) (raw : SchedulerResults w) : Ccnt w :=
  (processResult cfg nRuns (raw.array .overheadSignal)
    { stable := true, name := "Signal overhead", ignored := nIgnored }
    (RawRef.block (w := w) SchedulerArray.overheadSignal)).1.min

/-- The late samples of a priority level after `process_scheduler_results`. -/
theorem processSchedulerResults_array (cfg : Config) (raw : SchedulerResults w)
    {rows : ℕ → SchedulerArray} (hrows : rows = .threadResults ∨ rows = .processResults) {p : ℕ}
    (hp : p < nPrios cfg) {k : ℕ} (hk : k ∈ Finset.Ico nIgnored nRuns) :
    (processSchedulerResults cfg [] raw).2.array (rows p) k =
      raw.array (rows p) k - signalOverhead cfg raw := by
  have hacc (array : ℕ → Ccnt w) : Accepted cfg array
      { name := some "Signal overhead", overhead := signalOverhead cfg raw, ignored := nIgnored }
      nRuns := fun h => absurd h Bool.false_ne_true
  simp only [processSchedulerResults, Driver.bind_apply, appendAverageCounters_block,
    appendResultSet_block, Driver.get_apply]
  rcases hrows with rfl | rfl
  · rw [keeps_processAverageResults, keeps_processResults,
      processResults_array (fun _ _ h => by injection h) _ _ _ _ _ hp, keeps_processArray]
    · exact processResult_counted cfg _ _ _ (hacc _) rfl hk
    all_goals simp
  · rw [keeps_processAverageResults,
      processResults_array (fun _ _ h => by injection h) _ _ _ _ _ hp,
      keeps_processResults, keeps_processArray]
    · exact processResult_counted cfg _ _ _ (hacc _) rfl hk
    all_goals simp

/-- A constant overhead is the one that `process_scheduler_results` subtracts. -/
theorem signalOverhead_eq (cfg : Config) (raw : SchedulerResults w) {s : Ccnt w}
    (hs : ∀ i ∈ Set.Ico nIgnored nRuns, raw.array .overheadSignal i = s) :
    signalOverhead cfg raw = s := by
  have hacc : Accepted cfg (raw.array .overheadSignal)
      { stable := true, name := "Signal overhead", ignored := nIgnored } nRuns := by
    intro _ _ i hi
    rw [windowSize_nRuns] at hi
    rw [hs nIgnored (by decide), hs (nIgnored + i) ⟨by omega, by simp only [nRuns]; omega⟩]
  obtain ⟨⟨i, hi, hmin⟩, -⟩ := processResult_min_counted cfg _ _
    (RawRef.block (w := w) SchedulerArray.overheadSignal) hacc rfl rfl
  exact hmin.symm.trans (hs i hi)

section Scheduler

variable (cfg : Config) (raw : SchedulerResults w) (r : Readings w)

/-- The sum of the late samples of `low_fn`. -/
theorem scheduler_late_sum {s : Ccnt w}
    (hs : ∀ i ∈ Set.Ico nIgnored nRuns, raw.array .overheadSignal i = s)
    {rows : ℕ → SchedulerArray} (hrows : rows = .threadResults ∨ rows = .processResults) {p : ℕ}
    (hp : p < nPrios cfg) :
    ∑ i ∈ Finset.Ico nIgnored nRuns, (processSchedulerResults cfg []
        (raw.setArray (rows p) (lowFn r (raw.array (rows p))))).2.array (rows p) i =
      ∑ i ∈ Finset.Ico nIgnored nRuns, (r.stop i - r.start i - s) := by
  have hne : SchedulerArray.overheadSignal ≠ rows p := by
    rcases hrows with rfl | rfl <;> nofun
  refine Finset.sum_congr rfl fun i hi => ?_
  rw [processSchedulerResults_array cfg _ hrows hp hi,
    signalOverhead_eq cfg _ (s := s) (by rwa [Block.setArray_of_ne _ hne]), Block.setArray_self,
    lowFn, storeElapsed_apply, if_pos (Finset.mem_Ico.mp hi).2]

/-- The sum that `low_fn_ep` stores. -/
theorem scheduler_early_sum : (benchmarkPrioEp cfg.wordBits r (setOverheadCcntMin raw)).sum =
    ∑ i ∈ Finset.Ico nIgnored nRuns, (r.stop i - r.start i -
      wordArg cfg.wordBits (getMinOverhead (raw.array .overheadCcnt) nRuns)) := by
  simp only [benchmarkPrioEp, lowFnEp, setOverheadCcntMin]
  rw [earlyRun_sum (by decide) (nRuns_lt_wordBits cfg)]

/-- **The two overheads of the scheduler benchmark.** The early and the late samples of a priority
level have the same sum exactly when the minimum of `overhead_ccnt`, as `low_fn_ep` receives it,
agrees with the constant signal overhead modulo `2 ^ (w - 2)`. -/
theorem scheduler_sums_eq_iff {s : Ccnt w}
    (hs : ∀ i ∈ Set.Ico nIgnored nRuns, raw.array .overheadSignal i = s)
    {rows : ℕ → SchedulerArray} (hrows : rows = .threadResults ∨ rows = .processResults) {p : ℕ}
    (hp : p < nPrios cfg) :
    let late := (processSchedulerResults cfg []
      (raw.setArray (rows p) (lowFn r (raw.array (rows p))))).2.array (rows p)
    let early := benchmarkPrioEp cfg.wordBits r (setOverheadCcntMin raw)
    ∑ i ∈ Finset.Ico nIgnored nRuns, late i = early.sum ↔
      ∃ m, IsLeast (raw.array .overheadCcnt '' Set.Iio nRuns) m ∧
        s.toNat ≡ (wordArg cfg.wordBits m).toNat [MOD 2 ^ (w - 2)] := by
  intro late early
  have hmin := getMinOverhead_isLeast (raw.array .overheadCcnt) (n := nRuns) (by decide)
  rw [scheduler_late_sum cfg raw r hs hrows hp, scheduler_early_sum, sum_sub_eq_iff]
  constructor
  · exact fun h => ⟨_, hmin, h⟩
  · rintro ⟨m, hm, h⟩
    rwa [isLeast_unique hm hmin] at h

end Scheduler

/-- A signal overhead of `5` cycles, and a cycle counter that is read for free. Every sum of early
processing is that of `100` counted runs. -/
def signalOverheadFive : SchedulerResults 64 where
  array a _ := if a = .overheadSignal then 5 else 0
  fields := ⟨0, ⟨0, 0, 100⟩, fun _ => ⟨0, 0, 100⟩, ⟨0, 0, 100⟩, fun _ => ⟨0, 0, 100⟩⟩

/-- The two sums differ at the first priority level. -/
theorem scheduler_sums_differ :
    let r : Readings 64 := ⟨fun _ => 0, fun _ => 20⟩
    (∀ i ∈ Set.Ico nIgnored nRuns, signalOverheadFive.array .overheadSignal i = 5) ∧
      0 < nPrios Config.plain ∧
      ∑ i ∈ Finset.Ico nIgnored nRuns, (processSchedulerResults Config.plain []
        (signalOverheadFive.setArray (.threadResults 0)
          (lowFn r (signalOverheadFive.array (.threadResults 0))))).2.array (.threadResults 0) i ≠
        (benchmarkPrioEp Config.plain.wordBits r (setOverheadCcntMin signalOverheadFive)).sum := by
  intro r
  have hs : ∀ i ∈ Set.Ico nIgnored nRuns, signalOverheadFive.array .overheadSignal i = 5 :=
    fun _ _ => rfl
  obtain ⟨i, -, hmin⟩ := exists_eq_getMinOverhead (signalOverheadFive.array .overheadCcnt)
    (n := nRuns) (by decide)
  refine ⟨hs, by decide, ?_⟩
  have hlate := scheduler_late_sum Config.plain signalOverheadFive r hs
    (Or.inl (Eq.refl SchedulerArray.threadResults)) (show 0 < nPrios Config.plain by decide)
  rw [hlate, scheduler_early_sum, Ne, sum_sub_eq_iff, ← hmin,
    show signalOverheadFive.array .overheadCcnt i = 0 from rfl]
  decide

/-- The same samples with both overheads equal to `0`. -/
theorem scheduler_sums_eq_iff_free :
    let raw : SchedulerResults 64 := ⟨fun _ _ => 0, signalOverheadFive.fields⟩
    let r : Readings 64 := ⟨fun _ => 0, fun _ => 20⟩
    (∀ i ∈ Set.Ico nIgnored nRuns, raw.array .overheadSignal i = 0) ∧ 0 < nPrios Config.plain ∧
      ∑ i ∈ Finset.Ico nIgnored nRuns, (processSchedulerResults Config.plain []
        (raw.setArray (.threadResults 0) (lowFn r (raw.array (.threadResults 0))))).2.array
          (.threadResults 0) i =
        (benchmarkPrioEp Config.plain.wordBits r (setOverheadCcntMin raw)).sum :=
  ⟨fun _ _ => rfl, by decide,
    (scheduler_sums_eq_iff Config.plain _ _ (fun _ _ => rfl) (Or.inl rfl) (by decide)).mpr
      ⟨0, ⟨⟨0, by decide, rfl⟩, fun x ⟨_, _, h⟩ => h ▸ BitVec.le_refl _⟩, rfl⟩⟩

/-! ### Hardware -/

/-- The overhead that `hardware_process` derives and subtracts. -/
def hardwareOverhead (cfg : Config) (raw : HardwareResults w) : Ccnt w :=
  (processArray cfg nRuns .nullSyscallOverhead
    { stable := false, name := "Nop syscall overhead", ignored := nIgnored } raw).1.min

/-- The late samples after `hardware_process`. -/
theorem hardwareProcess_array (cfg : Config) (raw : HardwareResults w) {k : ℕ}
    (hk : k ∈ Finset.Ico nIgnored nRuns) :
    (hardwareProcess cfg raw).2.array .nullSyscallResults k =
      raw.array .nullSyscallResults k - hardwareOverhead cfg raw := by
  simp only [hardwareProcess, returnJson_apply, hardwareOutput, Driver.bind_apply,
    appendResultSet_block, Driver.get_apply, Driver.pure_apply]
  rw [processArray_array, keeps_processArray]
  · exact processResult_counted cfg _ _ _ (fun h => absurd h Bool.false_ne_true) rfl hk
  · simp

section Hardware

variable (cfg : Config) (overhead real ep : Readings w)

/-- The early sum of the hardware benchmark has nothing subtracted. -/
theorem hardware_early_sum :
    (hardwareMain cfg.wordBits overhead real ep HardwareResults.zero).fields.nullSyscall.sum =
      ∑ i ∈ Finset.Ico nIgnored nRuns, (ep.stop i - ep.start i - 0) :=
  earlyRun_sum (by decide) (nRuns_lt_wordBits cfg) ep 0

/-- The overhead that the driver derives is the least counted one. -/
theorem hardwareOverhead_isLeast :
    IsLeast ((fun i => overhead.stop i - overhead.start i) '' Set.Ico nIgnored nRuns)
      (hardwareOverhead cfg
        (hardwareMain cfg.wordBits overhead real ep HardwareResults.zero)) := by
  set results := hardwareMain cfg.wordBits overhead real ep HardwareResults.zero with hresults
  have hleast := processResult_min_counted cfg (results.array .nullSyscallOverhead)
    { stable := false, name := "Nop syscall overhead", ignored := nIgnored }
    (RawRef.block (w := w) HardwareArray.nullSyscallOverhead)
    (fun h => absurd h Bool.false_ne_true) rfl rfl
  have himage : results.array .nullSyscallOverhead '' Set.Ico nIgnored nRuns =
      (fun i => overhead.stop i - overhead.start i) '' Set.Ico nIgnored nRuns :=
    Set.image_congr fun i hi => (storeElapsed_apply ..).trans (if_pos hi.2)
  rwa [himage] at hleast

/-- **The overhead of the hardware benchmark.** `main` does not set `overhead_min`, so that the
early sum has the measured overhead subtracted exactly when that overhead is a multiple of
`2 ^ (w - 2)`. -/
theorem hardware_sum_eq_iff :
    (hardwareMain cfg.wordBits overhead real ep HardwareResults.zero).fields.nullSyscall.sum =
        ∑ i ∈ Finset.Ico nIgnored nRuns, (ep.stop i - ep.start i -
          hardwareOverhead cfg
            (hardwareMain cfg.wordBits overhead real ep HardwareResults.zero)) ↔
      ∃ m, IsLeast ((fun i => overhead.stop i - overhead.start i) '' Set.Ico nIgnored nRuns) m ∧
        2 ^ (w - 2) ∣ m.toNat := by
  have hmin := hardwareOverhead_isLeast cfg overhead real ep
  rw [hardware_early_sum, sum_sub_eq_iff, show BitVec.toNat (0 : Ccnt w) = 0 from BitVec.toNat_zero]
  constructor
  · exact fun h => ⟨_, hmin, Nat.modEq_zero_iff_dvd.mp h.symm⟩
  · rintro ⟨m, hm, h⟩
    rw [isLeast_unique hmin hm]
    exact (Nat.modEq_zero_iff_dvd.mpr h).symm

end Hardware

/-- An overhead of one cycle is not subtracted. -/
theorem hardware_sum_differs :
    let overhead : Readings 64 := ⟨fun _ => 0, fun _ => 1⟩
    let ep : Readings 64 := ⟨fun _ => 0, fun _ => 20⟩
    let results := hardwareMain Config.plain.wordBits overhead ep ep HardwareResults.zero
    results.fields.nullSyscall.sum ≠ ∑ i ∈ Finset.Ico nIgnored nRuns,
      (ep.stop i - ep.start i - hardwareOverhead Config.plain results) := by
  intro overhead ep results
  obtain ⟨⟨i, -, hmin⟩, -⟩ := hardwareOverhead_isLeast Config.plain overhead ep ep
  rw [hardware_early_sum, Ne, sum_sub_eq_iff, ← hmin,
    show (fun i => overhead.stop i - overhead.start i) i = 1 from sub_zero 1]
  decide

/-! ### Overheads from one array -/

/-- The measurements whose early and late results draw their overhead from the same array. -/
inductive SharedOverhead
  | signal
  | irquser
  | faultRoundTrip
  | fault
  | faultReply
  | threadYield
  | processYield
deriving DecidableEq

/-- The flag `stable` with which the driver processes the array of overheads. -/
def SharedOverhead.stable : SharedOverhead → Bool
  | irquser => false
  | signal | faultRoundTrip | fault | faultReply | threadYield | processYield => true

/-- The name with which the driver processes the array of overheads. -/
def SharedOverhead.name : SharedOverhead → String
  | signal => "signal overhead"
  | irquser => "IRQ user measurement overhead"
  | faultRoundTrip | fault | faultReply => "fault overhead"
  | threadYield | processYield => "Read ccnt overhead"

/-- The overhead that the application passes to the early loop. -/
def earlyOverhead (overheads : ℕ → Ccnt w) : Ccnt w := getMinOverhead overheads nRuns

/-- The description with which the driver processes the array of overheads. -/
def SharedOverhead.desc (m : SharedOverhead) : ResultDesc w :=
  { stable := m.stable, name := m.name, ignored := nIgnored }

/-- The overhead `desc.overhead` that the driver subtracts from the late samples. -/
def lateOverhead (cfg : Config) (m : SharedOverhead) (overheads : ℕ → Ccnt w) : Ccnt w :=
  (processResult cfg nRuns overheads m.desc id).1.min

theorem processArray_min {A S : Type} [DecidableEq A] (cfg : Config) (m : SharedOverhead) (a : A)
    (raw : Block A S w) :
    (processArray cfg nRuns a m.desc raw).1.min = lateOverhead cfg m (raw.array a) :=
  processResult_min_addr cfg (raw.array a) m.desc _ id

section Driver

variable (cfg : Config) {k : ℕ} (hk : k ∈ Finset.Ico nIgnored nRuns)

include hk

/-- The late samples of the signal benchmark. -/
theorem signalProcess_array (raw : SignalResults w) :
    (signalProcess cfg raw).2.array .loPrioResults k =
      raw.array .loPrioResults k - lateOverhead cfg .signal (raw.array .overhead) := by
  simp only [signalProcess, returnJson_apply, signalOutput, Driver.bind_apply,
    appendAverageCounters_block, appendResultSet_block, Driver.get_apply, Driver.pure_apply]
  rw [keeps_processAverageResults, keeps_processArray, processArray_array, keeps_processArray,
    ← processArray_min]
  · exact processResult_counted cfg _ _ _ (fun h => absurd h Bool.false_ne_true) rfl hk
  all_goals simp

/-- The late samples of the irquser benchmark. -/
theorem irquserProcess_array (raw : IrquserResults w) {a : IrquserArray} (ha : a ≠ .overheads) :
    (irquserProcess cfg raw).2.array a k =
      raw.array a k - lateOverhead cfg .irquser (raw.array .overheads) := by
  simp only [irquserProcess, returnJson_apply, irquserOutput, Driver.bind_apply,
    appendResultSet_block, Driver.get_apply, Driver.pure_apply]
  cases a with
  | overheads => exact absurd rfl ha
  | threadResults =>
    rw [keeps_processArray, processArray_array, keeps_processArray, ← processArray_min]
    · exact processResult_counted cfg _ _ _ (fun h => absurd h Bool.false_ne_true) rfl hk
    all_goals simp
  | processResults =>
    rw [processArray_array, keeps_processArray, keeps_processArray, ← processArray_min]
    · exact processResult_counted cfg _ _ _ (fun h => absurd h Bool.false_ne_true) rfl hk
    all_goals simp

/-- The overhead that `fault_process` subtracts from the samples of a measurement. -/
theorem faultProcess_array (raw : FaultResults w) :
    (faultProcess cfg raw).2.array .roundTrip k = raw.array .roundTrip k -
        lateOverhead cfg .faultRoundTrip (raw.array .replyRecvOverhead) ∧
      (faultProcess cfg raw).2.array .fault k = raw.array .fault k -
        lateOverhead cfg .fault (raw.array .replyRecvOverhead) ∧
      (faultProcess cfg raw).2.array .faultReply k = raw.array .faultReply k -
        lateOverhead cfg .faultReply (raw.array .ccntOverhead) := by
  simp only [faultProcess, returnJson_apply, faultOutput, Driver.bind_apply, appendResultSet_block,
    Driver.get_apply, Driver.pure_apply]
  refine ⟨?_, ?_, ?_⟩
  · rw [keeps_processArray, keeps_processArray, keeps_processArray, processArray_array,
      keeps_processArray, ← processArray_min]
    · exact processResult_counted cfg _ _ _ (fun h => absurd h Bool.false_ne_true) rfl hk
    all_goals simp
  · rw [keeps_processArray, keeps_processArray, processArray_array, keeps_processArray,
      keeps_processArray, ← processArray_min]
    · exact processResult_counted cfg _ _ _ (fun h => absurd h Bool.false_ne_true) rfl hk
    all_goals simp
  · rw [processArray_array, keeps_processArray, keeps_processArray, keeps_processArray,
      keeps_processArray]
    · refine (processResult_counted cfg _ _ _ (fun h => absurd h Bool.false_ne_true) rfl
        hk).trans ?_
      refine congrArg _ ((processArray_min cfg .faultReply _ _).trans ?_)
      rw [keeps_processArray, keeps_processArray, keeps_processArray]
      all_goals simp
    all_goals simp

omit hk in
theorem keeps_processSchedulerResults {a : SchedulerArray} (h₁ : a ≠ .overheadSignal)
    (h₂ : ∀ i, a ≠ .threadResults i) (h₃ : ∀ i, a ≠ .processResults i)
    (h₄ : ∀ i, a ≠ .setPrioAverage i) (array : Output SchedulerArray (SchedulerFields w) w) :
    Keeps a (processSchedulerResults cfg array) := fun blk => by
  simp only [processSchedulerResults, Driver.bind_apply, appendAverageCounters_block,
    appendResultSet_block, Driver.get_apply]
  rw [keeps_processAverageResults h₄, keeps_processResults h₃, keeps_processResults h₂,
    keeps_processArray h₁]

/-- The late samples of the yield measurements. -/
theorem schedulerProcess_array (raw : SchedulerResults w) :
    (schedulerProcess cfg raw).2.array .threadYield k =
        raw.array .threadYield k - lateOverhead cfg .threadYield (raw.array .overheadCcnt) ∧
      (schedulerProcess cfg raw).2.array .processYield k =
        raw.array .processYield k - lateOverhead cfg .processYield (raw.array .overheadCcnt) := by
  simp only [schedulerProcess, returnJson_apply, schedulerOutput, processYieldResults,
    Driver.bind_apply, appendResultSet_block, appendAverageCounters_block, Driver.get_apply,
    Driver.pure_apply]
  have hkeeps : (processSchedulerResults cfg [] raw).2.array .overheadCcnt =
      raw.array .overheadCcnt := by
    rw [keeps_processSchedulerResults] <;> simp
  have hthread := processArray_min cfg .threadYield .overheadCcnt
    (processSchedulerResults cfg [] raw).2
  have hprocess := processArray_min cfg .processYield .overheadCcnt
    (processSchedulerResults cfg [] raw).2
  simp only [SharedOverhead.desc, SharedOverhead.stable, SharedOverhead.name, hkeeps]
    at hthread hprocess
  refine ⟨?_, ?_⟩
  · rw [keeps_processAverageResults, keeps_processArray, processArray_array, keeps_processArray,
      keeps_processSchedulerResults, ← hthread]
    · rw [processResult_counted cfg _ _ _ (fun h => absurd h Bool.false_ne_true) rfl hk]
    all_goals simp
  · rw [keeps_processAverageResults, processArray_array, keeps_processArray, keeps_processArray,
      keeps_processSchedulerResults, ← hprocess]
    · rw [processResult_counted cfg _ _ _ (fun h => absurd h Bool.false_ne_true) rfl hk]
    all_goals simp

end Driver

section Agreement

variable (cfg : Config) (m : SharedOverhead) (overheads : ℕ → Ccnt w)

theorem earlyOverhead_isLeast :
    IsLeast (overheads '' Set.Iio nRuns) (earlyOverhead overheads) :=
  getMinOverhead_isLeast overheads (by decide)

theorem lateOverhead_isLeast (h : Accepted cfg overheads m.desc nRuns) :
    IsLeast (overheads '' Set.Ico nIgnored nRuns) (lateOverhead cfg m overheads) :=
  processResult_min_counted cfg overheads m.desc id h rfl rfl

/-- **Early and late overheads from one array.** Where the check of the driver does not stop it,
the early overhead is the least of all samples and the late overhead the least of those after the
warm-up. So the early overhead is at most the late one, and they are equal exactly when no warm-up
sample is below all the others. -/
theorem earlyOverhead_le_lateOverhead (h : Accepted cfg overheads m.desc nRuns) :
    IsLeast (overheads '' Set.Iio nRuns) (earlyOverhead overheads) ∧
      IsLeast (overheads '' Set.Ico nIgnored nRuns) (lateOverhead cfg m overheads) ∧
      earlyOverhead overheads ≤ lateOverhead cfg m overheads ∧
      (earlyOverhead overheads = lateOverhead cfg m overheads ↔
        ∀ i < nIgnored, ∃ j ∈ Set.Ico nIgnored nRuns, overheads j ≤ overheads i) := by
  have hearly := earlyOverhead_isLeast overheads
  have hlate := lateOverhead_isLeast cfg m overheads h
  obtain ⟨j, hj, hjmin⟩ := hlate.1
  have hle : earlyOverhead overheads ≤ lateOverhead cfg m overheads :=
    hjmin ▸ hearly.2 ⟨j, hj.2, rfl⟩
  refine ⟨hearly, hlate, hle, fun heq i hi => ?_, fun hwarm => BitVec.le_antisymm hle ?_⟩
  · have hlei : earlyOverhead overheads ≤ overheads i :=
      hearly.2 ⟨i, Set.mem_Iio.mpr (hi.trans (by decide)), rfl⟩
    exact ⟨j, hj, by rwa [hjmin, ← heq]⟩
  · obtain ⟨i, hi, himin⟩ := hearly.1
    rw [← himin]
    rcases lt_or_ge i nIgnored with hlt | hge
    · obtain ⟨k, hk, hlek⟩ := hwarm i hlt
      exact BitVec.le_trans (hlate.2 ⟨k, hk, rfl⟩) hlek
    · exact hlate.2 ⟨i, ⟨hge, hi⟩, rfl⟩

end Agreement

/-- The first warm-up sample is `3` and all others are `7`. -/
def fastWarmUp : ℕ → Ccnt 64 := fun i => if i = 0 then 3 else 7

theorem fastWarmUp_accepted :
    Accepted Config.plain fastWarmUp SharedOverhead.signal.desc nRuns := fun _ _ i _ => by
  have hpos : nIgnored + i ≠ 0 := Nat.ne_of_gt (Nat.add_pos_left (by decide) i)
  exact (if_neg hpos).trans (if_neg (by decide)).symm

theorem earlyOverhead_le_lateOverhead_fastWarmUp :
    Accepted Config.plain fastWarmUp SharedOverhead.signal.desc nRuns ∧
      earlyOverhead fastWarmUp ≤ lateOverhead Config.plain .signal fastWarmUp :=
  ⟨fastWarmUp_accepted, (earlyOverhead_le_lateOverhead _ _ _ fastWarmUp_accepted).2.2.1⟩

/-- The overheads of the two paths differ for a fast warm-up sample. -/
theorem earlyOverhead_ne_lateOverhead :
    earlyOverhead fastWarmUp ≠ lateOverhead Config.plain .signal fastWarmUp := by
  intro heq
  obtain ⟨j, hj, hjmin⟩ := (lateOverhead_isLeast Config.plain .signal _ fastWarmUp_accepted).1
  have hle : earlyOverhead fastWarmUp ≤ fastWarmUp 0 :=
    (earlyOverhead_isLeast fastWarmUp).2 ⟨0, by decide, rfl⟩
  have hj0 : fastWarmUp j = 7 := if_neg fun h => absurd hj.1 (by rw [h]; decide)
  rw [heq, ← hjmin, hj0] at hle
  exact absurd hle (by decide)

end Sel4bench
