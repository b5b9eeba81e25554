import Sel4bench.Driver.Json
import Sel4bench.Ipc.Params

/-!
# The driver function of the IPC benchmark

`process_ipc_results` of `ipc.c`: every overhead is checked for stability on its runs from the
second on; if one is unstable and that is not allowed, the function gives up with a null pointer.
Otherwise the least overhead is subtracted from the benchmarks that name it.

## Main definitions

* `Sel4bench.processIpcResults`.
* `Sel4bench.ipcOverhead` — the overhead that the driver derives from an array of samples.

## Main results

* `Sel4bench.processIpcResults_eq_none` — an unstable overhead stops the driver.
-/

namespace Sel4bench

variable {w : ℕ}

/-- `RUNS`. -/
def ipcRuns : ℕ := 16

/-- The arrays of `ipc_results_t`. -/
inductive IpcArray
  | overheadBenchmarks (i : Overhead)
  | benchmarks (j : ℕ)
deriving DecidableEq

/-- `ipc_results_t`. -/
abbrev IpcResults (w : ℕ) := Block IpcArray Unit w

/-- The check of one overhead: `results_stable(&raw_results->overhead_benchmarks[i][1], RUNS - 1)`,
or instability is allowed. -/
def overheadUsable (cfg : Config) (blk : IpcResults w) (i : Overhead) : Bool :=
  resultsStable (fun k => blk.array (.overheadBenchmarks i) (1 + k)) (ipcRuns - 1) ||
    cfg.allowUnstableOverhead

/-- The loop over the overheads in `process_ipc_results`, which fills `overheads`; `none` is its
early return. -/
def checkOverheads (cfg : Config) :
    List Overhead → (Overhead → Ccnt w) → Driver IpcArray Unit w (Option (Overhead → Ccnt w))
  | [], overheads => return some overheads
  | i :: rest, overheads => do
    if overheadUsable cfg (← get) i then
      let desc : ResultDesc w :=
        { stable := false, name := "overhead", ignored := 0, overhead := 0 }
      let overheadResult ← processArray cfg (ipcRuns - 1) (.overheadBenchmarks i) desc
      checkOverheads cfg rest (Function.update overheads i overheadResult.min)
    else
      return none

/-- The output array of `process_ipc_results`. -/
def ipcOutput (cfg : Config) : Driver IpcArray Unit w (Option (Output IpcArray Unit w)) := do
  let some overheads ← checkOverheads cfg Overhead.all (fun _ => 0) | return none
  let extraCols : List Column :=
    [{ header := "Function", values := .strings (benchmarkParams.map (·.name)) },
      { header := "Direction", values := .strings (benchmarkParams.map fun p =>
          if p.direction = .to then "client->server" else "server->client") },
      { header := "Client Prio", values := .integers (benchmarkParams.map fun p =>
          (cfg.maxPrio : ℤ) - p.clientPrio) },
      { header := "Server Prio", values := .integers (benchmarkParams.map fun p =>
          (cfg.maxPrio : ℤ) - p.serverPrio) },
      { header := "Same vspace?", values := .bools (benchmarkParams.map (·.sameVspace)) },
      { header := "IPC length", values := .integers (benchmarkParams.map fun p =>
          (p.length : ℤ)) }]
  let results ← benchmarkParams.zipIdx.mapM fun p =>
    processArray cfg ipcRuns (.benchmarks p.2)
      { name := p.1.name, overhead := overheads p.1.overheadId }
  let array ← appendResultSet []
    { name := "One way IPC microbenchmarks", extraCols, results }
  return some array

/-- `process_ipc_results`. -/
def processIpcResults (cfg : Config) : Driver IpcArray Unit w (Option Json) :=
  returnJson cfg (ipcOutput cfg)

/-! ### The stability check -/

/-- The description with which the samples of an overhead are processed. -/
def ipcOverheadDesc : ResultDesc w :=
  { stable := false, name := "overhead", ignored := 0, overhead := 0 }

/-- The overhead that `process_ipc_results` derives from an array of samples. -/
def ipcOverhead (cfg : Config) (array : ℕ → Ccnt w) : Ccnt w :=
  (processResult cfg (ipcRuns - 1) array ipcOverheadDesc id).1.min

section Check

variable (cfg : Config)

theorem checkOverheads_cons (i : Overhead) (rest : List Overhead) (overheads : Overhead → Ccnt w)
    (blk : IpcResults w) : checkOverheads cfg (i :: rest) overheads blk =
      if overheadUsable cfg blk i then
        checkOverheads cfg rest (Function.update overheads i
          (ipcOverhead cfg (blk.array (.overheadBenchmarks i)))) blk
      else (none, blk) := by
  have hblock := processArray_block_of_overhead_zero cfg (ipcRuns - 1)
    (IpcArray.overheadBenchmarks i) ipcOverheadDesc blk rfl
  rw [ipcOverheadDesc] at hblock
  by_cases husable : overheadUsable cfg blk i = true
  · simp only [checkOverheads, Driver.bind_apply, Driver.get_apply, husable, if_true, hblock]
    rfl
  · simp only [checkOverheads, Driver.bind_apply, Driver.get_apply, husable]
    rfl

/-- One overhead that is not stable stops the driver before any array is changed. -/
theorem checkOverheads_of_not_usable (l : List Overhead) (overheads : Overhead → Ccnt w)
    (blk : IpcResults w) (h : ∃ i ∈ l, overheadUsable cfg blk i = false) :
    checkOverheads cfg l overheads blk = (none, blk) := by
  induction l generalizing overheads with
  | nil => simp at h
  | cons j rest ih =>
    rw [checkOverheads_cons]
    split_ifs with husable
    · refine ih _ ?_
      obtain ⟨i, hi, hunstable⟩ := h
      rcases List.mem_cons.mp hi with rfl | hi
      · exact absurd husable (by simp [hunstable])
      · exact ⟨i, hi, hunstable⟩
    · rfl

end Check

theorem mem_overheadAll (i : Overhead) : i ∈ Overhead.all := by
  cases i <;> decide

/-- **An unstable overhead stops the IPC driver.** -/
theorem processIpcResults_eq_none (cfg : Config) (blk : IpcResults w)
    (h : ∃ i, overheadUsable cfg blk i = false) : (processIpcResults cfg blk).1 = none := by
  obtain ⟨i, hi⟩ := h
  have hnone : (checkOverheads cfg Overhead.all (fun _ => 0) blk).1 = none :=
    congrArg Prod.fst (checkOverheads_of_not_usable cfg _ _ blk ⟨i, mem_overheadAll i, hi⟩)
  simp only [processIpcResults, returnJson_apply, ipcOutput, Driver.bind_apply, hnone,
    Driver.pure_apply, Option.map_none]

end Sel4bench
