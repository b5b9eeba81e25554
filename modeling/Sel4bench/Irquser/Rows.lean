import Sel4bench.Driver.Benchmarks
import Sel4bench.Driver.Rows
import Sel4bench.Overhead.Agreement
import Sel4bench.Irquser.Completion

/-!
# What the interrupt benchmark publishes

The results block that the irquser application leaves is processed by `irquser_process`, which
publishes one set with five rows. Every round has a row of its own, with its samples or their sums.
As for signals, the samples of late processing have the least counted overhead subtracted and the
sums of early processing the least of all overheads, which the ticker gets as a word.

## Main definitions

* `Sel4bench.Irquser.resultsBlock` — the block that the driver gets.

## Main results

* `Sel4bench.Irquser.irquserProcess_rows` — the output of the driver.
* `Sel4bench.Irquser.irquser_published_rows` — from the interrupts to the output.
-/

namespace Sel4bench.Irquser

open Machine

variable {w : ℕ}

/-! ### The output of the driver -/

/-- The result set of `irquser_process`, with the types and the members of its rows. -/
def pathSet (rows : List (String × List (String × Json))) : Json :=
  .object [("Benchmark", .string "IRQ path cycle count (measured from user level)"),
    ("Results", .array (rows.map fun r => .object (("Type", .string r.1) :: r.2)))]

/-- The rows of `irquser_process`, from the arrays of the block. -/
def irquserRows (cfg : Sel4bench.Config) (blk : IrquserResults w) (overhead : Ccnt w) :
    List (String × List (String × Json)) :=
  let thread := blk.fields.thread
  let process := blk.fields.process
  [("Measurement overhead",
      samplesMembers cfg (lateSamples (blk.array .overheads) nRuns nIgnored 0)),
    ("Without context switch",
      samplesMembers cfg (lateSamples (blk.array .threadResults) nRuns nIgnored overhead)),
    ("Without context switch (early processing)",
      earlyMembers cfg thread.num thread.sum thread.sum2),
    ("With context switch",
      samplesMembers cfg (lateSamples (blk.array .processResults) nRuns nIgnored overhead)),
    ("With context switch (early processing)",
      earlyMembers cfg process.num process.sum process.sum2)]

/-- **The output of `irquser_process`**, which accepts every overhead. -/
theorem irquserProcess_rows (cfg : Sel4bench.Config) (blk : IrquserResults w) :
    ∃ overhead, IsLeast (blk.array .overheads '' Set.Ico nIgnored nRuns) overhead ∧
      (irquserProcess cfg blk).1 = some (.array [pathSet (irquserRows cfg blk overhead)]) := by
  let result : Result (RawRef IrquserArray w) w :=
    calculateResults (lateSamples (blk.array .overheads) nRuns nIgnored 0)
      (.block .overheads nIgnored)
  have hle : nIgnored ≤ nRuns := by decide
  have hlt : nRuns < 2 ^ 31 := by decide
  refine ⟨result.min, isLeast_min_lateSamples _ (by decide) _, ?_⟩
  suffices hpost : Post (irquserProcess cfg) blk fun json _ =>
      json = some (.array [pathSet (irquserRows cfg blk result.min)]) from hpost
  rw [irquserProcess, post_returnJson]
  refine post_processArray_apply cfg (accepted_of_stable_eq_false cfg rfl _) hle hlt ?_
  refine post_processArray_apply cfg (accepted_of_stable_eq_false cfg rfl _) hle hlt ?_
  rw [post_bind, post_get]
  refine post_processArray_apply cfg (accepted_of_stable_eq_false cfg rfl _) hle hlt ?_
  rw [post_bind, post_get]
  rw [post_bind, Post]
  dsimp only [appendResultSet]
  rw [post_pure, List.nil_append]
  -- The pointers of the results show the arrays after all of them have been processed.
  let blk₁ := blk.subtract .overheads nRuns nIgnored 0
  let blk₂ := blk₁.subtract .threadResults nRuns nIgnored result.min
  let blk₃ := blk₂.subtract .processResults nRuns nIgnored result.min
  have hthread : blk₁.array .threadResults = blk.array .threadResults :=
    blk.subtract_of_ne (by decide) ..
  have hprocess : blk₂.array .processResults = blk.array .processResults :=
    (blk₁.subtract_of_ne (by decide) ..).trans (blk.subtract_of_ne (by decide) ..)
  have hrow : resultToJson cfg blk₃.deref result =
      samplesMembers cfg (lateSamples (blk.array .overheads) nRuns nIgnored 0) :=
    resultToJson_of_array_eq cfg
      ((blk₂.subtract_of_ne (by decide) ..).trans (blk₁.subtract_of_ne (by decide) ..))
  have hrow₁ : resultToJson cfg blk₃.deref (calculateResults (lateSamples
      (blk₁.array .threadResults) nRuns nIgnored result.min) (.block .threadResults nIgnored)) =
      samplesMembers cfg (lateSamples (blk₁.array .threadResults) nRuns nIgnored result.min) :=
    resultToJson_of_array_eq cfg (blk₂.subtract_of_ne (by decide) ..)
  have hrow₂ : resultToJson cfg blk₃.deref (calculateResults (lateSamples
      (blk₂.array .processResults) nRuns nIgnored result.min) (.block .processResults nIgnored)) =
      samplesMembers cfg (lateSamples (blk₂.array .processResults) nRuns nIgnored result.min) :=
    resultToJson_subtract ..
  rw [hthread] at hrow₁
  rw [hprocess] at hrow₂
  have hearly : ∀ e : EarlyResults w,
      resultToJson cfg blk₃.deref (processEarly cfg e) = earlyMembers cfg e.num e.sum e.sum2 :=
    fun e => resultToJson_early ..
  refine congrArg (fun j => some (Json.array [j])) ?_
  rw [irquserRows, ← hrow, ← hrow₁, ← hrow₂, ← hearly, ← hearly]
  rfl

/-! ### From the interrupts to the rows -/

/-- `results` when `main` has ended. -/
def resultsBlock (mem : Var → Ccnt w) : IrquserResults w where
  array
    | .overheads => fun i => mem (.overheads i)
    | .threadResults => fun i => mem (.results .thread i)
    | .processResults => fun i => mem (.results .process i)
  fields :=
    { overheadMin := mem .overheadMin
      thread := ⟨mem (.epSum .thread), mem (.epSum2 .thread), mem (.epNum .thread)⟩
      process := ⟨mem (.epSum .process), mem (.epSum2 .process), mem (.epNum .process)⟩ }

/-- The row of a round with late processing, from all samples `r`. -/
def lateRow (drv : Sel4bench.Config) (cfg : Config) (r : Readings w) (k : Kind)
    (overhead : Ccnt w) : List (String × Json) :=
  samplesMembers drv
    (lateSamples ((Round.late k).readings cfg r).stop nRuns nIgnored overhead)

/-- The row of a round with early processing. -/
def earlyRow (drv : Sel4bench.Config) (cfg : Config) (r : Readings w) (k : Kind)
    (overhead : Ccnt w) : List (String × Json) :=
  let sample i := ((Round.early k).readings cfg r).stop i - overhead
  earlyMembers drv (BitVec.ofNat w (nRuns - nIgnored)) (∑ i ∈ Finset.Ico nIgnored nRuns, sample i)
    (∑ i ∈ Finset.Ico nIgnored nRuns, sample i * sample i)

/-- The rows of the interrupt benchmark, as functions of what its threads have read. -/
def publishedRows (drv : Sel4bench.Config) (cfg : Config) (r₀ r : Readings w)
    (overhead earlyOverhead : Ccnt w) : List (String × List (String × Json)) :=
  [("Measurement overhead",
      samplesMembers drv (lateSamples (fun i => r₀.stop i - r₀.start i) nRuns nIgnored 0)),
    ("Without context switch", lateRow drv cfg r .thread overhead),
    ("Without context switch (early processing)", earlyRow drv cfg r .thread earlyOverhead),
    ("With context switch", lateRow drv cfg r .process overhead),
    ("With context switch (early processing)", earlyRow drv cfg r .process earlyOverhead)]

section Rows

variable {cfg : Config} {r : Readings w} {o : Ccnt w} {k : Kind}

theorem lateRow_eq (drv : Sel4bench.Config) {array : ℕ → Ccnt w}
    (h : ∀ i < nRuns, array i = ((Round.late k).readings cfg r).stop i) :
    samplesMembers drv (lateSamples array nRuns nIgnored o) = lateRow drv cfg r k o :=
  congrArg (samplesMembers drv) (lateSamples_congr o fun i _ hi => h i hi)

theorem earlyRow_eq (drv : Sel4bench.Config) (hbits : nRuns < 2 ^ (cfg.wordBits - 1)) :
    (let res := earlyRun cfg.wordBits nRuns nIgnored ((Round.early k).readings cfg r) o
    earlyMembers drv res.num res.sum res.sum2) = earlyRow drv cfg r k o := by
  have hle : nIgnored ≤ nRuns := by decide
  simp only [earlyRow, earlyRun_num hle, earlyRun_sum hle hbits, earlyRun_sum2 hle hbits]
  have hstart : ∀ i, ((Round.early k).readings cfg r).start i = 0 := fun _ => rfl
  simp only [hstart, sub_zero]

end Rows

/-- **The published rows of the interrupt benchmark.** When `main` has ended, under fixed priorities
and whatever the timer does, the rows are those of the samples of the four rounds: the times from
the last publication of the spinner before an interrupt woke the ticker to the reading of the
ticker. Those of late processing are less the least of the counted overheads, and those whose sums
are published less the least of all overheads, cut to a word. -/
theorem irquser_published_rows (drv : Sel4bench.Config) (cfg : Config) (hruns : cfg.runs = nRuns)
    (hignored : cfg.ignored = nIgnored) (hbits : nRuns < 2 ^ (cfg.wordBits - 1))
    (hprios : 2 ≤ cfg.maxPrio) (mem : Var → Ccnt w) {s : State (sig w)}
    (hrun : Run (code cfg) (Scheduled cfg) (init cfg mem) s) (hfin : s.thread .main = .halt) :
    ∃ (r₀ r : Readings w) (overhead earlyOverhead : Ccnt w),
      clocks (s.hist .main) = (List.range nRuns).flatMap (fun i => [r₀.start i, r₀.stop i]) ∧
      (watch (mem .currentTime) s.log).samples =
        (List.range (4 * nRuns)).map (fun i => (r.start i, r.stop i)) ∧
      IsLeast ((fun i => r₀.stop i - r₀.start i) '' Set.Ico nIgnored nRuns) overhead ∧
      IsLeast ((fun i => r₀.stop i - r₀.start i) '' Set.Iio nRuns) earlyOverhead ∧
      (irquserProcess drv (resultsBlock s.kernel.mem)).1 = some (.array
        [pathSet (publishedRows drv cfg r₀ r overhead (wordArg cfg.wordBits earlyOverhead))]) := by
  obtain ⟨r₀, hclocks, hover, hmin⟩ := measured_of_halt hrun hfin
  obtain ⟨⟨r, hs, hres⟩, -⟩ := recorded_of_halt hrun hfin
  obtain ⟨hsamples, -⟩ := samples_of_halt hrun hfin hprios hs
  rw [hruns] at hclocks hsamples hmin
  let blk := resultsBlock s.kernel.mem
  have hoverhead : ∀ i < nRuns, blk.array .overheads i = r₀.stop i - r₀.start i := fun i hi =>
    mem_of_lastStore hrun (x := .overheads i) nofun (hover i (hruns ▸ hi))
  have hlate : ∀ k, ∀ i < nRuns,
      s.kernel.mem (.results k i) = ((Round.late k).readings cfg r).stop i := fun k i hi =>
    mem_of_lastStore hrun (x := .results k i) nofun
      (hres (.late k) (Round.index_lt _) i (hruns ▸ hi))
  have hearly : ∀ k, earlyMembers drv (s.kernel.mem (.epNum k)) (s.kernel.mem (.epSum k))
      (s.kernel.mem (.epSum2 k)) =
        earlyRow drv cfg r k (wordArg cfg.wordBits (s.kernel.mem .overheadMin)) := by
    intro k
    obtain ⟨o, ho, hsum, hsum2, hnum⟩ := hres (.early k) (Round.index_lt _)
    rw [overhead_of_mem hrun ho, mem_of_lastStore hrun (x := .epNum k) nofun hnum,
      mem_of_lastStore hrun (x := .epSum k) nofun hsum,
      mem_of_lastStore hrun (x := .epSum2 k) nofun hsum2, hruns, hignored]
    exact earlyRow_eq drv hbits
  obtain ⟨overhead, hleast, hrows⟩ := irquserProcess_rows drv blk
  have himage : blk.array .overheads '' Set.Ico nIgnored nRuns =
      (fun i => r₀.stop i - r₀.start i) '' Set.Ico nIgnored nRuns :=
    Set.image_congr fun i hi => hoverhead i hi.2
  refine ⟨r₀, r, overhead, s.kernel.mem .overheadMin, hclocks, hsamples, himage ▸ hleast, ?_, ?_⟩
  · rw [mem_of_lastStore hrun (x := .overheadMin) nofun hmin]
    exact getMinOverhead_isLeast _ (by decide)
  · have hrow : lateSamples (blk.array .overheads) nRuns nIgnored 0 =
        lateSamples (fun i => r₀.stop i - r₀.start i) nRuns nIgnored 0 :=
      lateSamples_congr 0 fun i _ hi => hoverhead i hi
    rw [hrows, irquserRows, publishedRows, hrow, ← lateRow_eq drv (hlate .thread),
      ← lateRow_eq drv (hlate .process), ← hearly, ← hearly]
    rfl

/-- The benchmark with its own numbers of runs has an execution, and publishes five rows. -/
theorem irquser_published_rows_five : ∃ (s : State (sig 64)) (r : Readings 64)
    (rows : List (String × List (String × Json))),
    (watch 0 s.log).samples = (List.range 440).map (fun i => (r.start i, r.stop i)) ∧
      rows.length = 5 ∧
      (irquserProcess Sel4bench.Config.plain (resultsBlock s.kernel.mem)).1 =
        some (.array [pathSet rows]) := by
  let cfg : Config := ⟨64, nRuns, nIgnored, 255⟩
  let s₀ : State (sig 64) := init cfg fun _ => 0
  obtain ⟨s, hrun, hfin⟩ : ∃ s, Run (code cfg) (Scheduled cfg) s₀ s ∧ s.thread .main = .halt :=
    exists_run_halt .refl
  obtain ⟨r₀, r, overhead, earlyOverhead, -, hsamples, -, -, hrows⟩ := irquser_published_rows
    Sel4bench.Config.plain cfg rfl rfl (by decide) (by decide) _ hrun hfin
  exact ⟨s, r, _, hsamples, rfl, hrows⟩

end Sel4bench.Irquser
