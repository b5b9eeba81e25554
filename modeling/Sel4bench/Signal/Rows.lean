import Sel4bench.Driver.Benchmarks
import Sel4bench.Driver.Rows
import Sel4bench.Overhead.Agreement
import Sel4bench.Signal.Samples

/-!
# What the signal benchmark publishes

The results block that the signal application leaves is processed by `signal_process`. The
published samples of a low round are the times between the signals of the signaller and the wake-ups
of the waiting thread, those of the third round are the times between readings of the signaller. The
samples of late processing have the least counted overhead subtracted, or nothing when the check for
stability stops `process_result`, the sums of early processing the least of all overheads, which
includes those of the warm-up.

## Main definitions

* `Sel4bench.Signal.resultsBlock` — the block that the driver gets.

## Main results

* `Sel4bench.Signal.signalProcess_rows` — the output of the driver.
* `Sel4bench.Signal.signal_published_rows` — from the readings of the threads to the output.
-/

namespace Sel4bench.Signal

open Machine

variable {w : ℕ}

/-! ### The output of the driver -/

/-- The description with which `signal_process` starts. -/
def signalDesc : ResultDesc w := { stable := true, name := "signal overhead", ignored := nIgnored }

/-- The row of the overhead: that of the counted samples, or of the zero record if the check for
stability stops `process_result`. -/
def overheadMembers (cfg : Sel4bench.Config) (array : ℕ → Ccnt w) : List (String × Json) :=
  if Accepted cfg array signalDesc nRuns then
    samplesMembers cfg (lateSamples array nRuns nIgnored 0)
  else resultToJson cfg (fun (_ : Unit) _ => 0) (Result.zero : Result Unit w)

/-- The overhead that is subtracted from the late samples: the least counted one, or nothing if the
check for stability stops `process_result`. -/
def IsOverhead (cfg : Sel4bench.Config) (array : ℕ → Ccnt w) (overhead : Ccnt w) : Prop :=
  if Accepted cfg array signalDesc nRuns then IsLeast (array '' Set.Ico nIgnored nRuns) overhead
  else overhead = 0

section Overhead

variable (cfg : Sel4bench.Config)

/-- Only the counted samples matter. -/
theorem accepted_iff_of_eq {array array' : ℕ → Ccnt w} (h : ∀ i < nRuns, array i = array' i) :
    Accepted cfg array signalDesc nRuns ↔ Accepted cfg array' signalDesc nRuns :=
  have hlt : nIgnored < nRuns := by decide
  ⟨accepted_congr cfg hlt (by decide) fun i _ hi => h i hi,
    accepted_congr cfg hlt (by decide) fun i _ hi => (h i hi).symm⟩

theorem overheadMembers_congr {array array' : ℕ → Ccnt w} (h : ∀ i < nRuns, array i = array' i) :
    overheadMembers cfg array = overheadMembers cfg array' := by
  rw [overheadMembers, overheadMembers, lateSamples_congr 0 fun i _ hi => h i hi]
  exact if_congr (accepted_iff_of_eq cfg h) rfl rfl

theorem isOverhead_congr {array array' : ℕ → Ccnt w} (h : ∀ i < nRuns, array i = array' i)
    (overhead : Ccnt w) : IsOverhead cfg array overhead ↔ IsOverhead cfg array' overhead := by
  have himage : array '' Set.Ico nIgnored nRuns = array' '' Set.Ico nIgnored nRuns :=
    Set.image_congr fun i hi => h i hi.2
  rw [IsOverhead, IsOverhead, himage]
  exact iff_of_eq (if_congr (accepted_iff_of_eq cfg h) rfl rfl)

variable (blk : SignalResults w)

/-- The record of the overhead. -/
def overheadResult : Result (RawRef SignalArray w) w :=
  (processResult cfg nRuns (blk.array .overhead) signalDesc (RawRef.block .overhead)).1

theorem overheadResult_of_accepted
    (h : Accepted cfg (blk.array .overhead) signalDesc nRuns) : overheadResult cfg blk =
      calculateResults (lateSamples (blk.array .overhead) nRuns nIgnored 0)
        (.block .overhead nIgnored) :=
  congrArg Prod.fst (processArray_apply cfg h (show nIgnored ≤ nRuns by decide) (by decide))

theorem overheadResult_of_not_accepted
    (h : ¬Accepted cfg (blk.array .overhead) signalDesc nRuns) :
    overheadResult cfg blk = Result.zero :=
  congrArg Prod.fst (processResult_of_not_accepted cfg _ _ _ h)

theorem resultToJson_overheadResult :
    resultToJson cfg blk.deref (overheadResult cfg blk) =
      overheadMembers cfg (blk.array .overhead) := by
  have hle : nIgnored ≤ nRuns := by decide
  by_cases h : Accepted cfg (blk.array .overhead) signalDesc nRuns
  · have hblock : blk.subtract .overhead nRuns nIgnored 0 = blk :=
      (congrArg Prod.snd (processArray_apply cfg h hle (by decide))).symm.trans
        (processArray_block_of_overhead_zero cfg nRuns .overhead signalDesc blk rfl)
    rw [overheadMembers, if_pos h, overheadResult_of_accepted cfg blk h]
    exact resultToJson_of_array_eq cfg (congrArg (Block.array · .overhead) hblock.symm)
  · rw [overheadMembers, if_neg h, overheadResult_of_not_accepted cfg blk h]
    exact resultToJson_zero cfg _ _

theorem isOverhead_min : IsOverhead cfg (blk.array .overhead) (overheadResult cfg blk).min := by
  by_cases h : Accepted cfg (blk.array .overhead) signalDesc nRuns
  · rw [IsOverhead, if_pos h, overheadResult_of_accepted cfg blk h]
    exact isLeast_min_lateSamples _ (by decide) _
  · rw [IsOverhead, if_neg h, overheadResult_of_not_accepted cfg blk h]
    rfl

end Overhead

/-- The rows of `signal_process`, from the arrays of the block. -/
def signalRows (cfg : Sel4bench.Config) (blk : SignalResults w) (overhead : Ccnt w) : List Json :=
  [singleSet "Signal overhead" (overheadMembers cfg (blk.array .overhead)),
    singleSet "Signal to high prio thread (early processing)"
      (earlyMembers cfg blk.fields.lo.num blk.fields.lo.sum blk.fields.lo.sum2),
    singleSet "Signal to high prio thread"
      (samplesMembers cfg (lateSamples (blk.array .loPrioResults) nRuns nIgnored overhead)),
    singleSet "Signal to low prio thread"
      (samplesMembers cfg (lateSamples (blk.array .hiPrioResults) nRuns nIgnored overhead)),
    .object [("Benchmark", .string "Average signal to low prio thread"), ("Results", .array
      ((cfg.genericEventNames ++ ["Cycle counter"]).zipIdx.map fun r =>
        .object (("Event", .string r.1) ::
          samplesMembers cfg (averageColumn blk .hiPrioAverage nRuns r.2))))]]

/-- **The output of `signal_process`.** -/
theorem signalProcess_rows (cfg : Sel4bench.Config) (blk : SignalResults w) :
    ∃ overhead, IsOverhead cfg (blk.array .overhead) overhead ∧
      (signalProcess cfg blk).1 = some (.array (signalRows cfg blk overhead)) := by
  have hle : nIgnored ≤ nRuns := by decide
  have hlt : nRuns < 2 ^ 31 := by decide
  refine ⟨_, isOverhead_min cfg blk, ?_⟩
  suffices hpost : Post (signalProcess cfg) blk fun json _ =>
      json = some (.array (signalRows cfg blk (overheadResult cfg blk).min)) from hpost
  rw [signalProcess, post_returnJson, signalOutput]
  refine post_processArray_zero cfg rfl ?_
  refine post_appendRow cfg (resultToJson_overheadResult cfg blk) fun array₁ h₁ => ?_
  rw [post_bind, post_get]
  refine post_appendEarly cfg fun array₂ h₂ => ?_
  refine post_processArray_append cfg (accepted_of_stable_eq_false cfg rfl _) hle hlt
    fun array₃ h₃ => ?_
  refine post_processArray_append cfg (accepted_of_stable_eq_false cfg rfl _) hle hlt
    fun array₄ h₄ => ?_
  rw [← bind_assoc, post_bind]
  refine (averageCounters_rows cfg (fun _ _ h => SignalArray.hiPrioAverage.inj h) nRuns _ _ _).mono
    fun out _ hout => ?_
  rw [h₄, h₃, h₂, h₁] at hout
  rw [post_pure, Option.map_some, Output.toJson, hout]
  have hhi : SignalArray.hiPrioResults ≠ .loPrioResults := by decide
  have havg : ∀ i, SignalArray.hiPrioAverage i ≠ .loPrioResults := fun _ => by simp
  have havg' : ∀ i, SignalArray.hiPrioAverage i ≠ .hiPrioResults := fun _ => by simp
  simp only [signalRows, averageColumn, Block.subtract_of_ne _ hhi, Block.subtract_of_ne _ (havg _),
    Block.subtract_of_ne _ (havg' _)]
  rfl

/-! ### From the readings to the rows -/

/-- `results` when `main` has ended. The cells of the generic event counters are `events`. -/
def resultsBlock (drv : Sel4bench.Config) (events : ℕ → ℕ → Ccnt w) (mem : ∀ x, Val w x) :
    SignalResults w where
  array
    | .loPrioResults => fun i => mem (.loPrioResults i)
    | .hiPrioResults => fun i => mem (.hiPrioResults i)
    | .hiPrioAverage j => fun c =>
      if c = drv.genericEventNames.length then mem (.hiPrioAverage j) else events j c
    | .overhead => fun i => mem (.overhead i)
  fields := { lo := ⟨mem .loSum, mem .loSum2, mem .loNum⟩, overheadMin := mem .overheadMin }

/-- The elapsed times of the readings. -/
def elapsed (r : Readings w) (i : ℕ) : Ccnt w := r.stop i - r.start i

/-- The rows of the signal benchmark, as functions of what its threads have read. -/
def publishedRows (drv : Sel4bench.Config) (chunks : ℕ) (events : ℕ → ℕ → Ccnt w)
    (r₀ late early high average : Readings w) (overhead earlyOverhead : Ccnt w) : List Json :=
  [singleSet "Signal overhead" (overheadMembers drv (elapsed r₀)),
    singleSet "Signal to high prio thread (early processing)"
      (earlyMembers drv (BitVec.ofNat w (nRuns - nIgnored))
        (∑ i ∈ Finset.Ico nIgnored nRuns, (elapsed early i - earlyOverhead))
        (∑ i ∈ Finset.Ico nIgnored nRuns,
          (elapsed early i - earlyOverhead) * (elapsed early i - earlyOverhead))),
    singleSet "Signal to high prio thread"
      (samplesMembers drv (lateSamples (elapsed late) nRuns nIgnored overhead)),
    singleSet "Signal to low prio thread"
      (samplesMembers drv (lateSamples (elapsed high) nRuns nIgnored overhead)),
    .object [("Benchmark", .string "Average signal to low prio thread"), ("Results", .array
      ((drv.genericEventNames ++ ["Cycle counter"]).zipIdx.map fun r =>
        .object (("Event", .string r.1) :: samplesMembers drv ((List.range nRuns).map fun j =>
          (if r.2 = drv.genericEventNames.length then elapsed average ((j + 1) * chunks - 1)
            else events j r.2) / BitVec.ofNat w averageRuns))))]]

/-- What the threads leave in the memory, as functions of what they have read. -/
structure Written (cfg : Config) (mem : ∀ x, Val w x) (r₀ late early high average : Readings w) :
    Prop where
  overhead : ∀ i < nRuns, mem (.overhead i) = elapsed r₀ i
  overheadMin : mem .overheadMin = getMinOverhead (elapsed r₀) nRuns
  late : ∀ i < nRuns, mem (.loPrioResults i) = elapsed late i
  early : let res := earlyRun cfg.wordBits nRuns nIgnored early (mem .overheadMin)
    mem .loSum = res.sum ∧ mem .loSum2 = res.sum2 ∧ mem .loNum = res.num
  high : ∀ i < nRuns, mem (.hiPrioResults i) = elapsed high i
  average : ∀ j < nRuns, mem (.hiPrioAverage j) = elapsed average ((j + 1) * cfg.chunks - 1)

theorem Written.rows {drv : Sel4bench.Config} {cfg : Config} {events : ℕ → ℕ → Ccnt w}
    {mem : ∀ x, Val w x} {r₀ late early high average : Readings w}
    (h : Written cfg mem r₀ late early high average) (hbits : nRuns < 2 ^ (cfg.wordBits - 1)) :
    ∃ overhead earlyOverhead, IsOverhead drv (elapsed r₀) overhead ∧
      IsLeast (elapsed r₀ '' Set.Iio nRuns) earlyOverhead ∧
      (signalProcess drv (resultsBlock drv events mem)).1 = some (.array
        (publishedRows drv cfg.chunks events r₀ late early high average overhead
          earlyOverhead)) := by
  let blk := resultsBlock drv events mem
  have hle : nIgnored ≤ nRuns := by decide
  obtain ⟨overhead, hmin, hrows⟩ := signalProcess_rows drv blk
  have hoverhead : overheadMembers drv (blk.array .overhead) = overheadMembers drv (elapsed r₀) :=
    overheadMembers_congr drv h.overhead
  have hlate : lateSamples (blk.array .loPrioResults) nRuns nIgnored overhead =
      lateSamples (elapsed late) nRuns nIgnored overhead :=
    lateSamples_congr overhead fun i _ hi => h.late i hi
  have hhigh : lateSamples (blk.array .hiPrioResults) nRuns nIgnored overhead =
      lateSamples (elapsed high) nRuns nIgnored overhead :=
    lateSamples_congr overhead fun i _ hi => h.high i hi
  obtain ⟨hsum, hsum2, hnum⟩ := h.early
  have hsum : blk.fields.lo.sum = _ := hsum.trans (earlyRun_sum hle hbits early _)
  have hsum2 : blk.fields.lo.sum2 = _ := hsum2.trans (earlyRun_sum2 hle hbits early _)
  have hnum : blk.fields.lo.num = _ := hnum.trans (earlyRun_num hle early _)
  have haverage : ∀ c, averageColumn blk .hiPrioAverage nRuns c = (List.range nRuns).map fun j =>
      (if c = drv.genericEventNames.length then elapsed average ((j + 1) * cfg.chunks - 1)
        else events j c) / BitVec.ofNat w averageRuns := by
    refine fun c => List.map_congr_left fun j hj => ?_
    rw [← h.average j (List.mem_range.mp hj)]
    rfl
  refine ⟨overhead, mem .overheadMin, (isOverhead_congr drv h.overhead overhead).mp hmin, ?_, ?_⟩
  · rw [h.overheadMin]
    exact getMinOverhead_isLeast (elapsed r₀) (by decide)
  · rw [hrows]
    simp only [signalRows, publishedRows, hoverhead, hsum, hsum2, hnum, hlate, hhigh, haverage]
    rfl

/-- **The published rows of the signal benchmark.** When `main` has ended, under fixed priorities
that it changes between its rounds, in the first two rounds every signal of the signaller has woken
the waiting thread once. The rows for late processing have the times between these signals and
wake-ups, and between the readings of the third round, less the least of the counted overheads. When
the counted overheads vary and the driver does not allow this, the row of the overhead is that of
the zero record, and nothing is subtracted in the rows for late processing. The sums of early
processing always have the least of all overheads subtracted, and the last row has the average of
the last chunk of every run. -/
theorem signal_published_rows (drv : Sel4bench.Config) (cfg : Config) (hruns : cfg.runs = nRuns)
    (hignored : cfg.ignored = nIgnored) (hbits : nRuns < 2 ^ (cfg.wordBits - 1))
    (hprios : 2 ≤ cfg.maxPrio) (hchunks : 0 < cfg.chunks) (events : ℕ → ℕ → Ccnt w)
    (mem : ∀ x, Val w x) {s : State (sig w)}
    (hrun : Run (code cfg) (FixedPriority (code cfg) prio) (init cfg mem) s)
    (hfin : s.thread .main = .halt) : ∃ r₀ late early high average : Readings w,
      clocks (s.hist .main) = pairs r₀ nRuns ∧ Paired cfg .late late s ∧
      Paired cfg .early early s ∧
      clocks (phase (s.hist .signal) 2) = pairs high nRuns ++ pairs average (nRuns * cfg.chunks) ∧
      ∃ overhead earlyOverhead, IsOverhead drv (elapsed r₀) overhead ∧
        IsLeast (elapsed r₀ '' Set.Iio nRuns) earlyOverhead ∧
        (signalProcess drv (resultsBlock drv events s.kernel.mem)).1 = some (.array
          (publishedRows drv cfg.chunks events r₀ late early high average overhead
            earlyOverhead)) := by
  let e : Setup w := { toConfig := cfg, mem := mem, prios := hprios }
  have hrun' : Run (code e.toConfig) (FixedPriority (code e.toConfig) prio)
      (init e.toConfig e.mem) s := hrun
  obtain ⟨r₀, hclocks, hoverheads, hmin⟩ := measured_of_halt hrun' hfin
  obtain ⟨late, hlate, hlate'⟩ := low_of_halt hrun' hfin .late
  obtain ⟨early, hearly, hearly'⟩ := low_of_halt hrun' hfin .early
  obtain ⟨high, average, hhigh⟩ := high_of_halt hrun' hfin
  obtain ⟨o, ho, hsum, hsum2, hnum⟩ := hearly.results
  obtain rfl := overhead_of_mem hrun' ho
  have hwritten : Written cfg s.kernel.mem r₀ late early high average := by
    constructor
    case overhead =>
      exact fun i hi => mem_of_lastStore hrun' (x := .overhead i) (hoverheads i (hruns ▸ hi))
    case overheadMin =>
      exact hruns ▸ mem_of_lastStore hrun' (x := .overheadMin) hmin
    case late =>
      exact fun i hi => mem_of_lastStore hrun' (x := .loPrioResults i)
        (hlate.results i (hruns ▸ hi))
    case early =>
      rw [← hruns, ← hignored]
      exact ⟨mem_of_lastStore hrun' (x := .loSum) hsum, mem_of_lastStore hrun' (x := .loSum2) hsum2,
        mem_of_lastStore hrun' (x := .loNum) hnum⟩
    case high =>
      exact fun i hi => mem_of_lastStore hrun' (x := .hiPrioResults i)
        (hhigh.results i (hruns ▸ hi))
    case average =>
      exact fun j hj => mem_of_lastStore hrun' (x := .hiPrioAverage j)
        (hhigh.average hchunks j (hruns ▸ hj))
  exact ⟨r₀, late, early, high, average, hruns ▸ hclocks,
    ⟨hlate.clocks, hlate.signals, hlate'⟩, ⟨hearly.clocks, hearly.signals, hearly'⟩,
    hruns ▸ hhigh.clocks, hwritten.rows hbits⟩

/-- The five result sets of a driver that does not allow unstable overheads. -/
theorem signal_published_rows_five : ∃ (s : State (sig 64)) (late : Readings 64) (rows : List Json),
    Paired ⟨64, nRuns, nIgnored, 255, 1, averageRuns⟩ .late late s ∧ rows.length = 5 ∧
      (signalProcess Sel4bench.Config.plain
        (resultsBlock Sel4bench.Config.plain (fun _ _ => 0) s.kernel.mem)).1 =
          some (.array rows) := by
  let e : Setup 64 :=
    { toConfig := ⟨64, nRuns, nIgnored, 255, 1, averageRuns⟩, mem := zeroMem, prios := by decide }
  obtain ⟨s, hrun, hfin⟩ := exists_run_halt (e := e) .refl
  obtain ⟨r₀, late, early, high, average, -, hlate, -, -, overhead, earlyOverhead, -, -, hout⟩ :=
    signal_published_rows Sel4bench.Config.plain e.toConfig rfl rfl (by decide) e.prios
      (by decide) (fun _ _ => 0) e.mem hrun hfin
  exact ⟨s, late, _, hlate, rfl, hout⟩

end Sel4bench.Signal
