import Sel4bench.Overhead.Samples
import Sel4bench.Lib.Priority
import Sel4bench.Support.WaitChildren

/-!
# The threads of the signal benchmark

The functions of the signal application. A thread `wait` waits for the notification and reads the
time when it has been woken, a thread `signal` or `signal early` reads the time and signals. `main`
measures the overhead, lets the two signallers work against a waiting thread of higher priority, and
then swaps the priorities and lets `signal` work against a waiting thread of lower priority. The
priorities of the threads are kept in the memory of the model, where `main` changes them.

## Main definitions

* `Sel4bench.Signal.waitFn`, `Sel4bench.Signal.lowPrioSignalFn`,
  `Sel4bench.Signal.lowPrioSignalEarlyProcFn`, `Sel4bench.Signal.highPrioSignalFn`.
* `Sel4bench.Signal.measureSignalOverhead`, `Sel4bench.Signal.benchmark`, `Sel4bench.Signal.main`,
  `Sel4bench.Signal.init`.
-/

namespace Sel4bench.Signal

open Machine
open Support (Msg benchmarkWaitChildren)

/-- The threads of the benchmark. -/
inductive Party
  | wait
  | signal
  | signalEarlyProc
  | main
deriving DecidableEq

instance : Fintype Party where
  elems := {.wait, .signal, .signalEarlyProc, .main}
  complete p := by cases p <;> simp

/-- The endpoint for the done messages. -/
inductive Endpoint
  | ep
deriving DecidableEq

inductive Ntfn
  | ntfn
deriving DecidableEq

/-- The priorities, the variable `end` of `benchmark`, and the results: `hiPrioAverage j` is
`results->hi_prio_average[j][CYCLE_COUNT_EVENT]`. -/
inductive Var
  | prio (p : Party)
  | stop
  | loPrioResults (i : ℕ)
  | hiPrioResults (i : ℕ)
  | hiPrioAverage (j : ℕ)
  | overhead (i : ℕ)
  | overheadMin
  | loSum
  | loSum2
  | loNum
deriving DecidableEq

/-- The values of the variables. -/
abbrev Val (w : ℕ) : Var → Type
  | .prio _ => ℕ
  | _ => Ccnt w

/-- The functions that the threads run. -/
inductive Entry
  | waitFn
  | lowPrioSignalFn
  | lowPrioSignalEarlyProcFn
  | highPrioSignalFn
deriving DecidableEq

/-- The types of the signal benchmark. -/
abbrev sig (w : ℕ) : Sig where
  Party := Party
  Endpoint := Endpoint
  Ntfn := Ntfn
  Lock := Empty
  Cond := Empty
  Var := Var
  Val := Val w
  Time := Ccnt w
  Msg := Msg
  Label := Entry

/-- The constants of the application. -/
structure Config where
  /-- `seL4_WordBits`. -/
  wordBits : ℕ
  /-- `N_RUNS`. -/
  runs : ℕ
  /-- `N_IGNORED`. -/
  ignored : ℕ
  /-- `seL4_MaxPrio`. -/
  maxPrio : ℕ
  /-- `sel4bench_get_num_generic_counter_chunks(n_counters)`. -/
  chunks : ℕ
  /-- `AVERAGE_RUNS`. -/
  averageRuns : ℕ

variable {w : ℕ} (cfg : Config)

/-! ### Threads -/

/-- `seL4_Send(done_ep, seL4_MessageInfo_new(0, 0, 0, 0))` and blocking on the notification. -/
def finish : Code (sig w) Unit := do
  Code.send .ep .empty
  Code.wait .ntfn

/-- `wait_fn`. -/
def waitFn : Code (sig w) Unit := do
  Code.loop cfg.runs () fun _ _ => do
    Code.wait .ntfn
    let t ← Code.clock
    Code.store .stop t
  finish

/-- `low_prio_signal_fn`. -/
def lowPrioSignalFn : Code (sig w) Unit := do
  Code.loop cfg.runs () fun i _ => do
    let start ← Code.clock
    Code.signal .ntfn
    let stop ← Code.load (σ := sig w) .stop
    Code.store (.loPrioResults i) (stop - start : Ccnt w)
  finish

/-- `low_prio_signal_early_proc_fn`. -/
def lowPrioSignalEarlyProcFn : Code (sig w) Unit := do
  let overhead ← Code.load (σ := sig w) .overheadMin
  let acc ← Code.loop cfg.runs (⟨0, 0⟩ : Sums w) fun i acc => do
    let start ← Code.clock
    Code.signal .ntfn
    let stop ← Code.load (σ := sig w) .stop
    return datacollectGetSums (BitVec.ofNat cfg.wordBits i)
      (BitVec.ofNat cfg.wordBits cfg.ignored) start stop overhead acc
  Code.store .loSum acc.sum
  Code.store .loSum2 acc.sum2
  Code.store .loNum (BitVec.ofInt w ((cfg.runs : ℤ) - cfg.ignored))
  finish

/-- `high_prio_signal_fn`. The generic event counters, which it also reads, are left out. -/
def highPrioSignalFn : Code (sig w) Unit := do
  Code.loop cfg.runs () fun i _ => do
    let start ← Code.clock
    Code.signal .ntfn
    let stop ← Code.clock
    Code.store (.hiPrioResults i) (stop - start : Ccnt w)
  Code.loop cfg.runs () fun j _ =>
    Code.loop cfg.chunks () fun _ _ => do
      let start ← Code.clock
      Code.loop cfg.averageRuns () fun _ _ => Code.signal .ntfn
      let stop ← Code.clock
      Code.store (.hiPrioAverage j) (stop - start : Ccnt w)
  finish

/-- The threads by function. -/
def code : Entry → Prog (sig w)
  | .waitFn => (waitFn cfg).run
  | .lowPrioSignalFn => (lowPrioSignalFn cfg).run
  | .lowPrioSignalEarlyProcFn => (lowPrioSignalEarlyProcFn cfg).run
  | .highPrioSignalFn => (highPrioSignalFn cfg).run

/-! ### Main -/

/-- `seL4_TCB_SetPriority`. -/
def setPriority (p : Party) (prio : ℕ) : Code (sig w) Unit :=
  Code.store (σ := sig w) (.prio p) prio

/-- `start_threads`. -/
def startThreads (first : Party) (fn : Entry) (second : Party) (fn' : Entry) :
    Code (sig w) Unit := do
  Code.start first fn
  Code.start second fn'

/-- `stop_threads`. -/
def stopThreads (first second : Party) : Code (sig w) Unit := do
  Code.suspend first
  Code.suspend second

/-- `benchmark`. -/
def benchmark : Code (sig w) Unit := do
  setPriority .wait cfg.maxPrio
  setPriority .signal (cfg.maxPrio - 1)
  setPriority .signalEarlyProc (cfg.maxPrio - 1)
  startThreads .signal .lowPrioSignalFn .wait .waitFn
  benchmarkWaitChildren Msg.isFault .ep 2
  stopThreads .signal .wait
  startThreads .signalEarlyProc .lowPrioSignalEarlyProcFn .wait .waitFn
  benchmarkWaitChildren Msg.isFault .ep 2
  stopThreads .signalEarlyProc .wait
  setPriority .wait (cfg.maxPrio - 1)
  setPriority .signal cfg.maxPrio
  setPriority .main (cfg.maxPrio - 2)
  startThreads .wait .waitFn .signal .highPrioSignalFn
  benchmarkWaitChildren Msg.isFault .ep 1
  stopThreads .wait .signal

/-- `measure_signal_overhead`. -/
def measureSignalOverhead : Code (sig w) Unit :=
  Code.loop cfg.runs () fun i _ => do
    let start ← Code.clock
    let stop ← Code.clock
    Code.store (.overhead i) (stop - start : Ccnt w)

/-- `getMinOverhead(results->overhead, N_RUNS)`. -/
def minOverhead : Code (sig w) (Ccnt w) := do
  let overhead : ℕ → Ccnt w ← Code.loop cfg.runs (fun _ => 0) fun i overhead => do
    let x : Ccnt w ← Code.load (σ := sig w) (.overhead i)
    return Function.update overhead i x
  return getMinOverhead overhead cfg.runs

/-- `main`, from the measurement of the overhead to the results. -/
def main : Code (sig w) Unit := do
  measureSignalOverhead cfg
  let overheadMin ← minOverhead cfg
  Code.store .overheadMin overheadMin
  benchmark cfg

/-- The priorities that the scheduler sees. -/
def prio (κ : Kernel (sig w)) (p : Party) : ℕ := κ.mem (.prio p)

/-- The memory in which `main` is called: it runs at the highest priority. -/
def initMem (mem : ∀ x, Val w x) : ∀ x, Val w x := Function.update mem (.prio .main) cfg.maxPrio

/-- The state in which `main` is called: the notification is clear. -/
def init (mem : ∀ x, Val w x) : State (sig w) where
  thread
    | .main => (main cfg).run
    | _ => .halt
  kernel :=
    { mem := initMem cfg mem
      msgs := fun _ => 0
      caller := fun _ => none
      pending := fun _ => false
      owner := nofun }
  log := []

end Sel4bench.Signal
