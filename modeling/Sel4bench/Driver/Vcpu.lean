import Sel4bench.Driver.Rows

/-!
# The driver function of the VCPU benchmark

`process_vcpu_results` of `vcpu.c`: the measured overhead of reading the cycle counter is
subtracted from the elapsed times of every benchmark of the guest, and every benchmark has a result
set with one row.

## Main definitions

* `Sel4bench.processVcpuResults`.

## Main results

* `Sel4bench.processVcpuResults_eq`.
-/

namespace Sel4bench

variable {w : ℕ}

/-- `VCPU_BENCH_N_ITERATIONS_IGNORED`. -/
def vcpuIterationsIgnored : ℕ := 10

/-- `VCPU_BENCH_N_ITERATIONS`. -/
def vcpuIterations : ℕ := 100 + vcpuIterationsIgnored

/-- The arrays `deep_data.elapsed` of `vcpu_benchmark_overall_results_t`. -/
inductive VcpuArray
  | elapsed (bm : ℕ)
deriving DecidableEq

/-- The other fields of `vcpu_benchmark_overall_results_t` that the driver reads. -/
structure VcpuFields (w : ℕ) where
  ccntReadOverhead : Ccnt w

/-- `vcpu_benchmark_overall_results_t`. -/
abbrev VcpuResults (w : ℕ) := Block VcpuArray (VcpuFields w) w

/-- The names of `bm_result_sets`, in their order. The set with index `i` points to `results[i]`. -/
def vcpuResultSets : List String :=
  ["HVC Privilege Escalation", "ERET Privilege De-escalation",
    "NULL HVC kernel hypercall invocation", "seL4_Call IPC from VCPU thread",
    "seL4_Reply IPC to VCPU thread"]

/-- `all_bms_result_desc`. -/
def allBmsResultDesc (ccntReadOverhead : Ccnt w) : ResultDesc w where
  stable := false
  name := some "VCPU benchmark"
  overhead := ccntReadOverhead
  ignored := vcpuIterationsIgnored

/-- The output array of `process_vcpu_results`. -/
def vcpuOutput (cfg : Config) :
    Driver VcpuArray (VcpuFields w) w (Option (Output VcpuArray (VcpuFields w) w)) := do
  let desc := allBmsResultDesc (← get).fields.ccntReadOverhead
  let sets := vcpuResultSets.zipIdx.map fun r => (r.1, VcpuArray.elapsed r.2)
  let array ← sets.foldlM (fun array r => processAppend cfg vcpuIterations desc array r.1 r.2) []
  return some array

/-- `process_vcpu_results`. -/
def processVcpuResults (cfg : Config) : Driver VcpuArray (VcpuFields w) w (Option Json) :=
  returnJson cfg (vcpuOutput cfg)

/-- **The output of the VCPU driver.** Every benchmark has its own set, whose row is that of its
elapsed times. -/
theorem processVcpuResults_eq (cfg : Config) (blk : VcpuResults w) :
    (processVcpuResults cfg blk).1 = some (.array (vcpuResultSets.zipIdx.map fun r =>
      singleSet r.1 (samplesMembers cfg (lateSamples (blk.array (.elapsed r.2)) vcpuIterations
        vcpuIterationsIgnored blk.fields.ccntReadOverhead)))) := by
  have hnodup : ((vcpuResultSets.zipIdx.map fun r => (r.1, VcpuArray.elapsed r.2)).map
      Prod.snd).Nodup := by decide
  have hle : (allBmsResultDesc blk.fields.ccntReadOverhead).ignored ≤ vcpuIterations :=
    Nat.le_add_left _ _
  have hfold := foldlM_processAppend cfg hnodup rfl hle (by decide) [] blk
  rw [List.map_nil, List.nil_append, List.map_map] at hfold
  exact congrArg (fun array => some (Json.array array)) hfold

end Sel4bench
