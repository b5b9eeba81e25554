import Mathlib.Data.BitVec
import Mathlib.Data.List.Basic
import Sel4bench.Lib.Total

/-!
# The guest and the monitor of the VCPU benchmark

The guest thread of the VCPU benchmark measures five operations and reports the measurements to
the virtual machine monitor with hypercalls. A hypercall is a synchronous call on the fault endpoint
of the monitor: the first message registers of the guest, as many as the length of the message
says, become those of the monitor, `vmm_handle_hypcall` handles the call, and the reply brings back
as many registers as it has. Both sides run in one state monad over the world, which fails when an
assertion of the source fails, or when a division or the access to an element of an array is
undefined.

The cycle counter and the entries of the kernel log are those of the platform. The stamps that the
guest obtains are recorded in the world at the place where `guest_run_bm` gets them.

## Main definitions

* `Sel4bench.Vcpu.Platform`, `Sel4bench.Vcpu.World`.
* `Sel4bench.Vcpu.vmmHandleHypcall`, `Sel4bench.Vcpu.vmmCall`.
* `Sel4bench.Vcpu.guestRunBm`, `Sel4bench.Vcpu.guestReportBmResults`, `Sel4bench.Vcpu.guestMain`.
-/

namespace Sel4bench.Vcpu

open Total

/-- `seL4_Word` and `ccnt_t` of the platforms with the benchmark. -/
abbrev Word := BitVec 64

/-- `enum vcpu_benchmarks`. -/
inductive Benchmark
  | hvcPrivEscalate
  | eretPrivDescalate
  | hvcNullSyscall
  | callSyscall
  | replySyscall
deriving DecidableEq

/-- The values of the enumeration. -/
def Benchmark.toNat : Benchmark → ℕ
  | .hvcPrivEscalate => 0
  | .eretPrivDescalate => 1
  | .hvcNullSyscall => 2
  | .callSyscall => 3
  | .replySyscall => 4

/-- `VCPU_BENCHMARK_N_BENCHMARKS`. -/
def nBenchmarks : ℕ := 5

/-- `enum hypcalls`. -/
inductive Hypcall
  | noop
  | putc
  | puts
  | getSel4CallEndStamp
  | getSel4ReplyStartStamp
  | bmReportEndResults
  | bmReportDeepResults
  | el1Fault
  | exitThread
deriving DecidableEq

/-- `vcpu_benchmark_deep_data_t`, with indices of type `int`. -/
structure DeepData where
  start : ℤ → Word
  stop : ℤ → Word
  elapsed : ℤ → Word

/-- Storing a measurement. -/
def DeepData.set (d : DeepData) (idx : ℤ) (start stop : Word) : DeepData where
  start := Function.update d.start idx start
  stop := Function.update d.stop idx stop
  elapsed := Function.update d.elapsed idx (stop - start)

/-- `vcpu_benchmark_results_t`. -/
structure Results where
  name : String
  min : Word
  max : Word
  clippedAvg : Word
  completeAvg : Word
  clippedTotal : Word
  completeTotal : Word
  nAnomalies : BitVec 32
  deepData : DeepData

/-- The record with all bytes zero. -/
def Results.zero : Results where
  name := ""
  min := 0
  max := 0
  clippedAvg := 0
  completeAvg := 0
  clippedTotal := 0
  completeTotal := 0
  nAnomalies := 0
  deepData := ⟨fun _ => 0, fun _ => 0, fun _ => 0⟩

/-- The platform: the readings of the cycle counter, the start times and durations in the entries
of the kernel log, and the number of iterations. -/
structure Platform where
  ccnt : ℕ → Word
  kernelLog : ℕ → Word × Word
  /-- `VCPU_BENCH_N_ITERATIONS`, a value of type `int`. -/
  nIterations : ℕ
  nIterations_pos : 0 < nIterations
  nIterations_lt : nIterations < 2 ^ 31

/-- The state of guest and monitor. -/
structure World where
  /-- The message registers of the guest. -/
  guestMr : ℕ → Word
  /-- The message registers of the monitor. -/
  vmmMr : ℕ → Word
  /-- `guest_results`. -/
  guestResults : Results
  /-- The arrays of `results` in the shared results block, by the value of the benchmark. -/
  results : ℕ → DeepData
  /-- The slots of these arrays that the monitor has stored to. -/
  stored : List (ℕ × ℤ) := []
  /-- `exitstatus` of the guest, when it has exited. -/
  exitStatus : Option (BitVec 32) := none
  /-- How often the cycle counter has been read. -/
  ccntReads : ℕ := 0
  /-- How often the kernel log has been read. -/
  logReads : ℕ := 0
  /-- The stamps that the guest has obtained. -/
  measured : List (Benchmark × Word × Word) := []

/-- Code of the guest or the monitor. -/
abbrev VcpuM := StateT World Option

variable (P : Platform)

/-- The division of unsigned integers. -/
def cDiv (x y : Word) : VcpuM Word := if y = 0 then failure else pure (x / y)

/-- The index of an element of an array with `VCPU_BENCH_N_ITERATIONS` elements. -/
def cIndex (idx : ℤ) : VcpuM Unit := cAssert (0 ≤ idx ∧ idx < P.nIterations)

/-- `SEL4BENCH_READ_CCNT`. -/
def readCcnt : VcpuM Word := do
  let w ← get
  set { w with ccntReads := w.ccntReads + 1 }
  return P.ccnt w.ccntReads

/-- Reading the entry `GUEST_BM_LOG_BUFFER_INDEX` of the log buffer. -/
def readLogBuffer : VcpuM (Word × Word) := do
  let w ← get
  set { w with logReads := w.logReads + 1 }
  return P.kernelLog w.logReads

/-! ### The monitor -/

/-- `vmm_handle_hypcall`: the length of the reply. -/
def vmmHandleHypcall (label : Hypcall) : VcpuM ℕ := do
  match label with
  | .putc | .puts => return 0
  | .exitThread =>
    let w ← get
    set { w with exitStatus := some ((w.vmmMr 1).setWidth 32) }
    return 0
  | .getSel4ReplyStartStamp | .getSel4CallEndStamp =>
    let stamp ← readCcnt P
    modify fun w => { w with vmmMr := Function.update w.vmmMr 0 stamp }
    return 1
  | .bmReportEndResults =>
    let bm := ((← get).vmmMr 0).setWidth 32
    cAssert (bm.toNat < nBenchmarks)
    return 0
  | .bmReportDeepResults =>
    let w ← get
    let bm := ((w.vmmMr 0).setWidth 32).toNat
    cAssert (bm < nBenchmarks)
    let idx := ((w.vmmMr 1).setWidth 32).toInt
    let start := w.vmmMr 2
    let stop := w.vmmMr 3
    cIndex P idx
    set { w with
      results := Function.update w.results bm ((w.results bm).set idx start stop)
      stored := w.stored ++ [(bm, idx)] }
    return 0
  | .noop | .el1Fault => return 0

/-! ### The hypercalls of the guest -/

/-- The hypercalls for which `vmm_call` puts its arguments into message registers. -/
def Hypcall.hasArgs : Hypcall → Bool
  | .putc | .puts | .exitThread | .el1Fault | .bmReportDeepResults | .bmReportEndResults => true
  | _ => false

/-- The registers of a receiver after a message of `length` registers. -/
def transfer (length : ℕ) (sender receiver : ℕ → Word) : ℕ → Word := fun i =>
  if i < length then sender i else receiver i

/-- `vmm_call`. The result is what is stored through the pointer `out_stamp`. -/
def vmmCall (hypcallno : Hypcall) (args : List Word) : VcpuM Word := do
  if hypcallno.hasArgs then
    modify fun w => { w with guestMr := fun i => args.getD i (w.guestMr i) }
  -- `seL4_HypCall`: the monitor receives the message and replies.
  modify fun w => { w with vmmMr := transfer args.length w.guestMr w.vmmMr }
  let length ← vmmHandleHypcall P hypcallno
  modify fun w => { w with guestMr := transfer length w.vmmMr w.guestMr }
  return (← get).guestMr 0

/-- A value of type `int` as an argument for `seL4_Word`. -/
def ofCInt (n : ℤ) : Word := BitVec.ofInt 64 n

/-- `vmm_call_exit_thread`. -/
def vmmCallExitThread (wasEl1Fault : Bool) (exitstatus : ℤ) (misc : Word) : VcpuM Unit := do
  let _ ← vmmCall P .exitThread [if wasEl1Fault then 1 else 0, ofCInt exitstatus, misc]

/-- `vmm_call_report_end_results`. -/
def vmmCallReportEndResults (bm : Benchmark)
    (min max clippedAvg completeAvg clippedTotal completeTotal nAnomalies : Word) :
    VcpuM Unit := do
  let _ ← vmmCall P .bmReportEndResults [ofCInt bm.toNat, min, max, clippedAvg, completeAvg,
    clippedTotal, completeTotal, nAnomalies]

/-- `vmm_call_report_deep_results`. -/
def vmmCallReportDeepResults (bm : Benchmark) (iteration : ℕ) (min max : Word) : VcpuM Unit := do
  let _ ← vmmCall P .bmReportDeepResults [ofCInt bm.toNat, ofCInt iteration, min, max]

/-- `vmm_printf`: a text of the given length. -/
def vmmPrintf (length : ℕ) : VcpuM Unit := do
  let _ ← vmmCall P .puts [ofCInt length]

/-! ### The measurements -/

/-- `seL4_ARMHyp_Page_Clean_Data` uses the message registers. -/
def cleanLogBuffer : VcpuM Unit :=
  modify fun w => { w with
    guestMr := Function.update (Function.update w.guestMr 0 0) 1 (2 ^ 21 - 1) }

/-- `strncpy(r->name, …)`. -/
def setName (name : String) : VcpuM Unit :=
  modify fun w => { w with guestResults := { w.guestResults with name := name } }

/-- The five functions of type `guest_bm_stamp_getter_fn`, with the stamps `*start` and `*end`. -/
def stampGetter : Benchmark → VcpuM (Word × Word)
  | .hvcPrivEscalate => do
    setName "HVC Priv Escalation"
    let start ← readCcnt P
    cleanLogBuffer
    let (startTime, _) ← readLogBuffer P
    return (start, startTime)
  | .eretPrivDescalate => do
    setName "HVC Priv DE-Escalation"
    let stop ← readCcnt P
    cleanLogBuffer
    let (startTime, duration) ← readLogBuffer P
    return (startTime + duration, stop)
  | .hvcNullSyscall => do
    setName "seL4 NULL syscall"
    let start ← readCcnt P
    let stop ← readCcnt P
    return (start, stop)
  | .callSyscall => do
    setName "seL4_Call full invocation"
    let start ← readCcnt P
    let stop ← vmmCall P .getSel4CallEndStamp [0]
    return (start, stop)
  | .replySyscall => do
    setName "seL4_Reply full invocation"
    let start ← vmmCall P .getSel4ReplyStartStamp [0]
    let stop ← readCcnt P
    return (start, stop)

/-- `VCPU_BENCH_CYCLE_COUNTER_ANOMALY_THRESHOLD`. -/
def anomalyThreshold : Word := 800

/-- `guest_bm_cycle_counter_anomaly_detected`. -/
def anomalyDetected (currIteration : ℕ) (currElapsed : Word) (r : Results) : Bool :=
  let prev := (currIteration : ℤ) - 1
  let prevElapsed := r.deepData.stop prev - r.deepData.start prev
  let diff := if currElapsed > prevElapsed then currElapsed - prevElapsed else 0
  decide (diff ≥ anomalyThreshold)

/-- What an iteration of `guest_run_bm` does to the results. -/
def Results.record (r : Results) (i : ℕ) (start stop : Word) : Results :=
  let elapsed := stop - start
  let r := { r with deepData := r.deepData.set i start stop }
  let isAnomaly := if i = 0 then false else anomalyDetected i elapsed r
  let r := { r with completeTotal := r.completeTotal + elapsed }
  let r := if !isAnomaly then { r with clippedTotal := r.clippedTotal + elapsed }
    else { r with nAnomalies := r.nAnomalies + 1 }
  { r with
    min := if r.min < elapsed then r.min else elapsed
    max := if r.max > elapsed then r.max else elapsed }

/-- An iteration of `guest_run_bm`. -/
def guestRunBmIteration (bm : Benchmark) (i : ℕ) : VcpuM Unit := do
  let (start, stop) ← stampGetter P bm
  modify fun w => { w with
    measured := w.measured ++ [(bm, start, stop)]
    guestResults := w.guestResults.record i start stop }

/-- `guest_run_bm`. -/
def guestRunBm (bm : Benchmark) : VcpuM Unit := do
  modify fun w => { w with guestResults := Results.zero }
  (List.range P.nIterations).forM (guestRunBmIteration P bm)
  let r := (← get).guestResults
  let clippedAvg ← cDiv r.clippedTotal (ofCInt (P.nIterations - r.nAnomalies.toInt))
  let completeAvg ← cDiv r.completeTotal (ofCInt P.nIterations)
  modify fun w => { w with
    guestResults := { w.guestResults with clippedAvg := clippedAvg, completeAvg := completeAvg } }

/-- An iteration of the loop of `guest_report_bm_results`. -/
def guestReportIteration (bm : Benchmark) (i : ℕ) : VcpuM Unit := do
  let r := (← get).guestResults
  vmmCallReportDeepResults P bm i (r.deepData.start i) (r.deepData.stop i)

/-- `guest_report_bm_results`. -/
def guestReportBmResults (bm : Benchmark) : VcpuM Unit := do
  let r := (← get).guestResults
  vmmCallReportEndResults P bm r.min r.max r.clippedAvg r.completeAvg r.clippedTotal
    r.completeTotal (r.nAnomalies.signExtend 64)
  (List.range P.nIterations).forM (guestReportIteration P bm)

/-- Running and reporting one benchmark. -/
def guestRunAndReport (bm : Benchmark) : VcpuM Unit := do
  guestRunBm P bm
  guestReportBmResults P bm

/-- `guest_run_benchmarks`. -/
def guestRunBenchmarks : VcpuM Unit := do
  guestRunAndReport P .hvcPrivEscalate
  guestRunAndReport P .eretPrivDescalate
  guestRunAndReport P .hvcNullSyscall
  guestRunAndReport P .callSyscall
  guestRunAndReport P .replySyscall

/-- `guest_main`, of a guest whose shared data are valid and that runs at EL1. The text that it
prints has the given length. -/
def guestMain (length : ℕ) : VcpuM Unit := do
  vmmPrintf P length
  guestRunBenchmarks P
  vmmCallExitThread P false 0 0

end Sel4bench.Vcpu
