import Sel4bench.Driver.Frame
import Sel4bench.Driver.Ipc

/-!
# The overheads of the IPC driver and the first sample

`process_ipc_results` checks the samples of an overhead from the second on, `RUNS - 1` of them,
and then takes the minimum of the first `RUNS - 1` samples: both windows have the same length, but
they start at different elements. The overhead that is subtracted from the benchmarks is the
common value that was checked exactly when the first sample is not below it
(`Sel4bench.ipcOverhead_eq_iff`).

## Main results

* `Sel4bench.checkOverheads_of_usable` — the loop over overheads that pass the check.
* `Sel4bench.processIpcResults_array` — the benchmarks after the driver.
* `Sel4bench.processIpcResults_overhead_iff`.
-/

namespace Sel4bench

variable {w : ℕ}

/-! ### The check of the overheads -/

section Check

variable (cfg : Config)

/-- The loop over stable overheads fills the variables of all of them and changes no array. -/
theorem checkOverheads_of_usable (l : List Overhead) (overheads : Overhead → Ccnt w)
    (blk : IpcResults w) (h : ∀ i ∈ l, overheadUsable cfg blk i = true) :
    checkOverheads cfg l overheads blk =
      (some fun i => if i ∈ l then ipcOverhead cfg (blk.array (.overheadBenchmarks i))
        else overheads i, blk) := by
  induction l generalizing overheads with
  | nil => simp [checkOverheads]
  | cons j rest ih =>
    rw [checkOverheads_cons, if_pos (h j List.mem_cons_self),
      ih _ fun i hi => h i (List.mem_cons_of_mem _ hi)]
    refine congrArg (fun v => (some v, blk)) (funext fun i => ?_)
    by_cases hij : i = j
    · subst hij
      simp
    · simp [hij]

/-- The driver returns a result only if all overheads pass the check. -/
theorem overheadUsable_of_processIpcResults {blk : IpcResults w}
    (h : (processIpcResults cfg blk).1 ≠ none) (i : Overhead) :
    overheadUsable cfg blk i = true := by
  by_contra hi
  exact h (processIpcResults_eq_none cfg blk ⟨i, by simpa using hi⟩)

/-- It does return one then. -/
theorem processIpcResults_ne_none {blk : IpcResults w}
    (h : ∀ i, overheadUsable cfg blk i = true) : (processIpcResults cfg blk).1 ≠ none := by
  simp only [processIpcResults, returnJson_apply, ipcOutput, Driver.bind_apply, Driver.pure_apply,
    checkOverheads_of_usable cfg Overhead.all _ blk fun i _ => h i]
  exact Option.some_ne_none _

/-- The variable `overheads` of a call that returns a result. -/
theorem checkOverheads_of_processIpcResults {blk : IpcResults w}
    (h : (processIpcResults cfg blk).1 ≠ none) :
    checkOverheads cfg Overhead.all (fun _ => 0) blk =
      (some fun i => ipcOverhead cfg (blk.array (.overheadBenchmarks i)), blk) := by
  rw [checkOverheads_of_usable cfg Overhead.all _ blk fun i _ =>
    overheadUsable_of_processIpcResults cfg h i]
  simp only [if_pos (mem_overheadAll _)]

end Check

/-! ### The two windows -/

/-- The overhead is the minimum of the first `RUNS - 1` samples. -/
theorem ipcOverhead_isLeast (cfg : Config) (array : ℕ → Ccnt w) :
    IsLeast (array '' Set.Iio (ipcRuns - 1)) (ipcOverhead cfg array) := by
  have hsize : windowSize (ipcRuns - 1) 0 = ipcRuns - 1 := by decide
  have hleast := processResult_min_isLeast cfg array ipcOverheadDesc id (n := ipcRuns - 1)
    (fun h => absurd h Bool.false_ne_true) (show 0 < windowSize (ipcRuns - 1) 0 by decide)
  have hset : {x | ∃ i < windowSize (ipcRuns - 1) (ipcOverheadDesc (w := w)).ignored,
      array ((ipcOverheadDesc (w := w)).ignored + i) - (ipcOverheadDesc (w := w)).overhead = x} =
        array '' Set.Iio (ipcRuns - 1) := by
    ext x
    simp only [Set.mem_ofPred_eq, Set.mem_image, Set.mem_Iio, ipcOverheadDesc, hsize, zero_add,
      sub_zero]
  rwa [hset] at hleast

/-- The overhead is the value that was checked, if the first sample is not below it. -/
theorem ipcOverhead_eq_iff (cfg : Config) {array : ℕ → Ccnt w} {c : Ccnt w}
    (hc : ∀ k ∈ Set.Ico 1 ipcRuns, array k = c) : ipcOverhead cfg array = c ↔ c ≤ array 0 := by
  obtain ⟨⟨i, hi, hmin⟩, hle⟩ := ipcOverhead_isLeast cfg array
  constructor
  · rintro rfl
    exact hle ⟨0, by decide, rfl⟩
  · intro h0
    refine BitVec.le_antisymm ?_ ?_
    · rw [← hc 1 (by decide)]
      exact hle ⟨1, by decide, rfl⟩
    · rw [← hmin]
      rcases Nat.eq_zero_or_pos i with rfl | hpos
      · exact h0
      · rw [hc i ⟨hpos, (Set.mem_Iio.mp hi).trans (by decide)⟩]
        exact BitVec.le_refl _

/-- A stable overhead has a common value from the second sample on. -/
theorem exists_stable_value {cfg : Config} (hoff : cfg.allowUnstableOverhead = false)
    {blk : IpcResults w} {i : Overhead} (h : overheadUsable cfg blk i = true) :
    ∀ k ∈ Set.Ico 1 ipcRuns,
      blk.array (.overheadBenchmarks i) k = blk.array (.overheadBenchmarks i) 1 := by
  rw [overheadUsable, hoff, Bool.or_false, resultsStable_iff] at h
  rintro k ⟨hlo, hhi⟩
  obtain ⟨j, rfl⟩ := Nat.exists_eq_add_of_le hlo
  exact h j (by omega)

/-! ### The benchmarks -/

theorem accepted_of_not_stable (cfg : Config) (array : ℕ → Ccnt w) {desc : ResultDesc w}
    (h : desc.stable = false) (n : ℕ) : Accepted cfg array desc n :=
  fun hstable => absurd (h.symm.trans hstable) Bool.false_ne_true

/-- The samples of a benchmark after a call that returns a result. -/
theorem processIpcResults_array (cfg : Config) {blk : IpcResults w}
    (h : (processIpcResults cfg blk).1 ≠ none) {j : ℕ} (hj : j < benchmarkParams.length) {k : ℕ}
    (hk : k < ipcRuns) :
    (processIpcResults cfg blk).2.array (.benchmarks j) k = blk.array (.benchmarks j) k -
      ipcOverhead cfg (blk.array (.overheadBenchmarks benchmarkParams[j].overheadId)) := by
  have hcheck := checkOverheads_of_processIpcResults cfg h
  have hnodup : (benchmarkParams.zipIdx.map fun p => IpcArray.benchmarks p.2).Nodup := by decide
  have hmem : (benchmarkParams[j], j) ∈ benchmarkParams.zipIdx := by
    rw [List.mk_mem_zipIdx_iff_getElem?]
    exact List.getElem?_eq_getElem hj
  have harrays := (mapM_processArray (fun p : BenchmarkParams × ℕ =>
    ({ name := p.1.name,
       overhead := ipcOverhead cfg (blk.array (.overheadBenchmarks p.1.overheadId)) } :
      ResultDesc w)) cfg ipcRuns hnodup blk).2 _ hmem
  simp only [processIpcResults, returnJson_apply, ipcOutput, Driver.bind_apply, hcheck,
    appendResultSet_block, Driver.pure_apply, harrays]
  rw [processResult_array cfg _ _ _ (accepted_of_not_stable cfg _ rfl ipcRuns) (Nat.zero_le k)]
  rw [show windowSize ipcRuns 0 = ipcRuns by decide, Nat.zero_add]
  exact hk

/-- **The overhead of an IPC benchmark and the value that was checked.** In a call that returns a
result, with instability not allowed, the overhead that is subtracted from the samples of the
benchmarks is equal to all the samples that were checked if and only if the first sample, which
was not, is not below them. -/
theorem processIpcResults_overhead_iff (cfg : Config) (hoff : cfg.allowUnstableOverhead = false)
    (blk : IpcResults w) (h : (processIpcResults cfg blk).1 ≠ none) :
    ∃ overheads, (checkOverheads cfg Overhead.all (fun _ => 0) blk).1 = some overheads ∧
      (∀ j, ∀ hj : j < benchmarkParams.length, ∀ k < ipcRuns,
        (processIpcResults cfg blk).2.array (.benchmarks j) k =
          blk.array (.benchmarks j) k - overheads benchmarkParams[j].overheadId) ∧
      ∀ i, (∀ k ∈ Set.Ico 1 ipcRuns, overheads i = blk.array (.overheadBenchmarks i) k) ↔
        blk.array (.overheadBenchmarks i) 1 ≤ blk.array (.overheadBenchmarks i) 0 := by
  rw [checkOverheads_of_processIpcResults cfg h]
  refine ⟨_, rfl, fun j hj k hk => processIpcResults_array cfg h hj hk, fun i => ?_⟩
  have hstable := exists_stable_value hoff (overheadUsable_of_processIpcResults cfg h i)
  rw [← ipcOverhead_eq_iff cfg hstable]
  exact ⟨fun heq => heq 1 (by decide), fun heq k hk => heq.trans (hstable k hk).symm⟩

/-- The samples of all overheads are `7` from the second on. -/
def constantFrom (first : Ccnt 64) : IpcResults 64 where
  array _ k := if k = 0 then first else 7
  fields := ()

theorem constantFrom_ne_none (first : Ccnt 64) :
    (processIpcResults Config.plain (constantFrom first)).1 ≠ none := by
  refine processIpcResults_ne_none Config.plain fun i => ?_
  rw [overheadUsable, Bool.or_eq_true, resultsStable_iff]
  refine .inl fun k _ => ?_
  simp [constantFrom, Nat.add_comm 1]

/-- A first sample of `3` becomes the overhead. -/
theorem constantFrom_three_overhead :
    Config.plain.allowUnstableOverhead = false ∧
    (processIpcResults Config.plain (constantFrom 3)).1 ≠ none ∧
    ¬∃ overheads, (checkOverheads Config.plain Overhead.all (fun _ => 0) (constantFrom 3)).1 =
        some overheads ∧
      ∀ i, ∀ k ∈ Set.Ico 1 ipcRuns,
        overheads i = (constantFrom 3).array (.overheadBenchmarks i) k := by
  refine ⟨rfl, constantFrom_ne_none 3, ?_⟩
  rw [checkOverheads_of_processIpcResults Config.plain (constantFrom_ne_none 3)]
  rintro ⟨_, hsome, hall⟩
  obtain rfl := Option.some.inj hsome
  have hchecked : ∀ k ∈ Set.Ico 1 ipcRuns,
      (constantFrom 3).array (.overheadBenchmarks .call) k = 7 := fun k hk =>
    if_neg (Nat.one_le_iff_ne_zero.mp hk.1)
  have hle := (ipcOverhead_eq_iff Config.plain hchecked).mp (hall .call 1 (by decide))
  exact absurd hle (by decide)

/-- A first sample of `9` does not. -/
theorem processIpcResults_overhead_iff_nine :
    ∃ overheads, (checkOverheads Config.plain Overhead.all (fun _ => 0) (constantFrom 9)).1 =
        some overheads ∧
      ∀ k ∈ Set.Ico 1 ipcRuns,
        overheads .call = (constantFrom 9).array (.overheadBenchmarks .call) k := by
  obtain ⟨overheads, hsome, -, h⟩ := processIpcResults_overhead_iff Config.plain rfl
    (constantFrom 9) (constantFrom_ne_none 9)
  exact ⟨overheads, hsome, (h .call).mpr (by decide)⟩

end Sel4bench
