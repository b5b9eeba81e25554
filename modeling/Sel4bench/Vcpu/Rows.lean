import Mathlib.Algebra.BigOperators.Group.Finset.Basic
import Sel4bench.Driver.Vcpu
import Sel4bench.Vcpu.Extremes
import Sel4bench.Vcpu.Transfer

/-!
# What the VCPU benchmark publishes

The monitor measures the overhead of reading the cycle counter, the guest measures and reports its
benchmarks, and the driver processes the results block that the monitor leaves. The differences of
successive readings add up to the difference of the last and the first one, whatever happens in
between, so that the overhead is a tenth of it. The published rows are those of the times that the
guest has measured, iteration by iteration, less the overhead.

## Main definitions

* `Sel4bench.Vcpu.getCcntReadOverheadAvg`, `Sel4bench.Vcpu.measureAndRun`.
* `Sel4bench.Vcpu.resultsBlock` — the block that the driver gets.

## Main results

* `Sel4bench.Vcpu.ends_getCcntReadOverheadAvg`.
* `Sel4bench.Vcpu.vcpu_published_rows` — from the stamps of the guest to the output.
-/

namespace Sel4bench.Vcpu

open Total

variable (P : Platform)

/-! ### The overhead of reading the cycle counter -/

/-- `N_ITERATIONS` of `get_ccnt_read_overhead_avg`. -/
def overheadIterations : ℕ := 10

/-- An iteration of `get_ccnt_read_overhead_avg`, on `prev_stamp` and `total_overhead`. The extremes
are only logged. -/
def overheadIteration (acc : Word × Word) : VcpuM (Word × Word) := do
  let currStamp ← readCcnt P
  let currOverhead := currStamp - acc.1
  return (currStamp, acc.2 + currOverhead)

/-- `get_ccnt_read_overhead_avg`. -/
def getCcntReadOverheadAvg : VcpuM Word := do
  let prevStamp ← readCcnt P
  let acc ← (List.range overheadIterations).foldlM (fun acc _ => overheadIteration P acc)
    (prevStamp, 0)
  cDiv acc.2 (ofCInt overheadIterations)

/-- The average overhead, from the readings with the numbers `first, …, first + 10`. -/
def averageOverhead (first : ℕ) : Word := (P.ccnt (first + 10) - P.ccnt first) / 10

variable {P}

theorem ends_readCcnt {w : World} {Q : Word → World → Prop} :
    Ends (readCcnt P) w Q ↔ Q (P.ccnt w.ccntReads) { w with ccntReads := w.ccntReads + 1 } := by
  simp only [readCcnt, ends_bind, ends_get, ends_set, ends_pure]

/-- The differences of successive readings add up. -/
theorem ends_getCcntReadOverheadAvg (w : World) :
    Ends (getCcntReadOverheadAvg P) w fun overhead w' =>
      overhead = averageOverhead P w.ccntReads ∧
        w' = { w with ccntReads := w.ccntReads + 11 } := by
  refine Ends.bind (Q := fun stamp w' => stamp = P.ccnt w.ccntReads ∧
    w' = { w with ccntReads := w.ccntReads + 1 }) (ends_readCcnt.mpr ⟨rfl, rfl⟩) ?_
  rintro _ _ ⟨rfl, rfl⟩
  refine Ends.bind (Q := fun acc w' =>
    acc.2 = P.ccnt (w.ccntReads + overheadIterations) - P.ccnt w.ccntReads ∧
      w' = { w with ccntReads := w.ccntReads + overheadIterations + 1 }) ?_ ?_
  · refine (Ends.foldlM_range (fun i acc w' => acc.1 = P.ccnt (w.ccntReads + i) ∧
      acc.2 = P.ccnt (w.ccntReads + i) - P.ccnt w.ccntReads ∧
        w' = { w with ccntReads := w.ccntReads + i + 1 }) ?_ ?_).mono fun _ _ h => h.2
    · exact ⟨rfl, (sub_self _).symm, rfl⟩
    · rintro i - acc _ ⟨hprev, htotal, rfl⟩
      simp only [overheadIteration, ends_bind, ends_readCcnt, ends_pure, hprev, htotal]
      exact ⟨rfl, by rw [add_comm, sub_add_sub_cancel]; rfl, rfl⟩
  · rintro acc _ ⟨htotal, rfl⟩
    exact ends_cDiv (by decide) ⟨by rw [htotal]; rfl, rfl⟩

/-- While the counter does not go through its whole range, the overhead is the average of the
differences of successive readings. -/
theorem toNat_averageOverhead {first : ℕ}
    (h : ∑ i ∈ Finset.range 10, (P.ccnt (first + i + 1) - P.ccnt (first + i)).toNat < 2 ^ 64) :
    (averageOverhead P first).toNat =
      (∑ i ∈ Finset.range 10, (P.ccnt (first + i + 1) - P.ccnt (first + i)).toNat) / 10 := by
  have hsum : ∀ n, BitVec.ofNat 64
      (∑ i ∈ Finset.range n, (P.ccnt (first + i + 1) - P.ccnt (first + i)).toNat) =
        P.ccnt (first + n) - P.ccnt first := by
    intro n
    induction n with
    | zero => exact (sub_self _).symm
    | succ n ih =>
      rw [Finset.sum_range_succ, BitVec.ofNat_add, ih, BitVec.ofNat_toNat, BitVec.setWidth_eq,
        add_comm, sub_add_sub_cancel]
      rfl
  have hten : (10 : Word).toNat = 10 := rfl
  rw [averageOverhead, ← hsum 10, BitVec.toNat_udiv, BitVec.toNat_ofNat, Nat.mod_eq_of_lt h, hten]

/-! ### From the stamps to the rows -/

variable (P) in
/-- The measurements of `main`: the overhead, and then what the guest reports. -/
def measureAndRun (length : ℕ) : VcpuM Word := do
  let overhead ← getCcntReadOverheadAvg P
  guestMain P length
  return overhead

/-- The results block when the monitor is done. -/
def resultsBlock (overhead : Word) (w : World) : VcpuResults 64 where
  array
    | .elapsed bm => fun i => (w.results bm).elapsed i
  fields := ⟨overhead⟩

/-- The times that the guest has measured in a benchmark, without the iterations that the driver
ignores, less the overhead. -/
def World.publishedTimes (w : World) (overhead : Word) (bm : Benchmark) : List Word :=
  ((w.stamps bm).drop vcpuIterationsIgnored).map fun p => p.2 - p.1 - overhead

/-- The guest reports all its stamps. -/
theorem ends_guestMain (length : ℕ) (w : World) (h₀ : w.measured = []) :
    Ends (guestMain P length) w fun _ w' => w'.exitStatus = some 0 ∧ ∀ bm : Benchmark,
      (w'.stamps bm).length = P.nIterations ∧ (w'.results bm.toNat).Holds (w'.stamps bm) := by
  refine (ends_vmmPrintf length w).bind fun _ w₁ h₁ => ?_
  refine (ends_guestRunBenchmarks w₁ (h₁.measured.trans h₀)).bind fun _ w₂ h₂ => ?_
  obtain ⟨h₂, -⟩ := h₂
  refine (ends_vmmCallExitThread w₂).mono fun _ w' h => ?_
  obtain ⟨hexit, hresults, -, hmeasured⟩ := h
  refine ⟨hexit, fun bm => ?_⟩
  have hstamps : w'.stamps bm = w₂.stamps bm := by rw [World.stamps, World.stamps, hmeasured]
  rw [hstamps, hresults]
  exact ⟨h₂.length bm (mem_benchmarks bm), h₂.holds bm (mem_benchmarks bm)⟩

/-- The samples that the driver takes from arrays that hold the stamps. -/
theorem lateSamples_elapsed {d : DeepData} {l : List (Word × Word)} (h : d.Holds l)
    (ignored : ℕ) (overhead : Word) :
    lateSamples (fun i => d.elapsed i) l.length ignored overhead =
      (l.drop ignored).map fun p => p.2 - p.1 - overhead := by
  refine List.ext_getElem (by simp) fun i h1 _ => ?_
  rw [length_lateSamples] at h1
  have hlt : ignored + i < l.length := by omega
  obtain ⟨-, -, helapsed⟩ := h (ignored + i) l[ignored + i] (List.getElem?_eq_getElem hlt)
  have hget := getD_lateSamples (fun i : ℕ => d.elapsed i) overhead h1
  rw [List.getElem_map, List.getElem_drop, ← helapsed, ← hget]
  simp [h1]

/-- **The published rows of the VCPU benchmark.** For every platform, the overhead is a tenth of
what the cycle counter advances in ten readings, the guest completes all iterations of all
benchmarks, and the driver emits for every benchmark one row, whose samples are the times between
the stamps of the guest in the order of the iterations, without the ignored ones and less the
overhead. -/
theorem vcpu_published_rows (cfg : Config) (P : Platform) (hP : P.nIterations = vcpuIterations)
    (length : ℕ) (w₀ : World) : ∃ w, measureAndRun P length { w₀ with measured := [] } =
        some (averageOverhead P w₀.ccntReads, w) ∧
      w.exitStatus = some 0 ∧
      (∀ bm, (w.stamps bm).length = vcpuIterations) ∧
      (processVcpuResults cfg (resultsBlock (averageOverhead P w₀.ccntReads) w)).1 =
        some (.array ((vcpuResultSets.zip benchmarks).map fun r =>
          singleSet r.1 (samplesMembers cfg
            (w.publishedTimes (averageOverhead P w₀.ccntReads) r.2)))) := by
  have hends : Ends (measureAndRun P length) { w₀ with measured := [] } fun overhead w =>
      overhead = averageOverhead P w₀.ccntReads ∧ w.exitStatus = some 0 ∧ ∀ bm : Benchmark,
        (w.stamps bm).length = P.nIterations ∧ (w.results bm.toNat).Holds (w.stamps bm) := by
    refine (ends_getCcntReadOverheadAvg _).bind fun overhead w₁ h₁ => ?_
    obtain ⟨hoverhead, rfl⟩ := h₁
    refine (ends_guestMain length _ rfl).bind fun _ w h => ?_
    exact ends_pure.mpr ⟨hoverhead, h⟩
  obtain ⟨_, w, hrun, rfl, hexit, hbm⟩ := hends
  rw [hP] at hbm
  refine ⟨w, hrun, hexit, fun bm => (hbm bm).1, ?_⟩
  have htimes : ∀ bm : Benchmark, lateSamples (fun i => (w.results bm.toNat).elapsed i)
      vcpuIterations vcpuIterationsIgnored (averageOverhead P w₀.ccntReads) =
        w.publishedTimes (averageOverhead P w₀.ccntReads) bm := by
    intro bm
    obtain ⟨hlength, hholds⟩ := hbm bm
    rw [← hlength]
    exact lateSamples_elapsed hholds _ _
  have hsets : vcpuResultSets.zipIdx =
      (vcpuResultSets.zip benchmarks).map fun r => (r.1, r.2.toNat) := by decide
  rw [processVcpuResults_eq, hsets, List.map_map]
  refine congrArg (fun array => some (Json.array array)) (List.map_congr_left fun r _ => ?_)
  rw [← htimes r.2]
  rfl

/-- A platform with the number of iterations of the benchmark. -/
def everyFiveHundredTen : Platform where
  ccnt n := 5 * BitVec.ofNat 64 n
  kernelLog _ := (0, 0)
  nIterations := vcpuIterations
  nIterations_pos := by decide
  nIterations_lt := by decide

/-- Reading the counter takes five cycles. -/
theorem vcpu_published_rows_everyFive : ∃ w,
    measureAndRun everyFiveHundredTen 0 { World.blank with measured := [] } = some (5, w) ∧
      w.exitStatus = some 0 ∧ ∀ bm, (w.publishedTimes 5 bm).length = 100 := by
  obtain ⟨w, hrun, hexit, hlength, -⟩ :=
    vcpu_published_rows .plain everyFiveHundredTen rfl 0 World.blank
  refine ⟨w, hrun, hexit, fun bm => ?_⟩
  rw [World.publishedTimes, List.length_map, List.length_drop, hlength]
  rfl

end Sel4bench.Vcpu
