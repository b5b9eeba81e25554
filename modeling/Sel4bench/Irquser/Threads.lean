import Sel4bench.Overhead.Samples
import Sel4bench.Lib.Priority
import Sel4bench.Support.WaitChildren

/-!
# The threads of the interrupt benchmark

The functions of the irquser application. A spinner writes the time to `*current_time` again and
again, and the ticker, which outranks it, waits for the interrupts of a timer: when one arrives the
ticker reads the time, and then the last time of the interrupted spinner. `main` goes through four
rounds: the spinner is a thread or a process, and the samples are stored or processed early.

The hardware timer is a party of its own, which signals whenever it likes. The FPU settings of the
ticker and the acknowledgement of the interrupts are left out.

## Main definitions

* `Sel4bench.Irquser.spinnerFn`, `Sel4bench.Irquser.tickerFn`, `Sel4bench.Irquser.tickerFnEp`.
* `Sel4bench.Irquser.main`, `Sel4bench.Irquser.init`.
* `Sel4bench.Irquser.Scheduled` — the steps that the kernel allows.
-/

namespace Sel4bench.Irquser

open Machine
open Support (Msg benchmarkWaitChildren)

/-- The threads of the benchmark and the timer. -/
inductive Party
  | main
  | ticker
  | spinner
  | spinnerProcess
  | timer
deriving DecidableEq

instance : Fintype Party where
  elems := {.main, .ticker, .spinner, .spinnerProcess, .timer}
  complete p := by cases p <;> simp

/-- `done_ep`, which is also the fault endpoint of the threads. -/
inductive Endpoint
  | ep
deriving DecidableEq

inductive Ntfn
  | timerSignal
deriving DecidableEq

/-- Where the spinner runs: in the address space of the ticker, or in another one. -/
inductive Kind
  | thread
  | process
deriving DecidableEq

/-- The shared time, and the results: `results k` are `thread_results` and `process_results`, and
`epSum k`, `epSum2 k` and `epNum k` the fields for early processing. -/
inductive Var
  | currentTime
  | overheads (i : ℕ)
  | overheadMin
  | results (k : Kind) (i : ℕ)
  | epSum (k : Kind)
  | epSum2 (k : Kind)
  | epNum (k : Kind)
deriving DecidableEq

/-- The functions that the parties run, with the arguments that differ between the rounds. -/
inductive Entry (w : ℕ)
  | spinnerFn
  | tickerFn (k : Kind)
  | tickerFnEp (k : Kind) (overhead : Ccnt w)
  | timer

/-- The types of the interrupt benchmark. -/
abbrev sig (w : ℕ) : Sig where
  Party := Party
  Endpoint := Endpoint
  Ntfn := Ntfn
  Lock := Empty
  Cond := Empty
  Var := Var
  Val := fun _ => Ccnt w
  Time := Ccnt w
  Msg := Msg
  Label := Entry w

/-- The constants of the application. -/
structure Config where
  /-- `seL4_WordBits`. -/
  wordBits : ℕ
  /-- `N_RUNS`. -/
  runs : ℕ
  /-- `N_IGNORED`. -/
  ignored : ℕ
  /-- `seL4_MaxPrio`. -/
  maxPrio : ℕ

variable {w : ℕ} (cfg : Config)

/-! ### Threads -/

/-- The party that spins in a round. -/
def Kind.spinner : Kind → Party
  | .thread => .spinner
  | .process => .spinnerProcess

/-- `end_low - start`, the difference of two words. -/
def wordElapsed (b : ℕ) (start stop : Ccnt w) : Ccnt w :=
  (stop.setWidth b - start.setWidth b).setWidth w

/-- `spinner_fn`, which never ends. -/
def spinnerFn : Code (sig w) Unit := do
  let t ← Code.clock
  Code.store (σ := sig w) .currentTime t
  Code.goto (σ := sig w) .spinnerFn

/-- `seL4_Send(done_ep, seL4_MessageInfo_new(0, 0, 0, 0))`, after which the function returns. A
thread has nowhere to return to, so it faults. -/
def finish : Code (sig w) Unit := do
  Code.send .ep .empty
  let _ ← Code.call .ep .fault

/-- `ticker_fn`. -/
def tickerFn (k : Kind) : Code (sig w) Unit := do
  Code.loop cfg.runs () fun i _ => do
    Code.wait .timerSignal
    let stop ← Code.clock
    let start ← Code.load (σ := sig w) .currentTime
    Code.store (σ := sig w) (.results k i) (wordElapsed cfg.wordBits start stop)
  finish

/-- `ticker_fn_ep`. Its sample `e - s - o` subtracts the words before the overhead. -/
def tickerFnEp (k : Kind) (overhead : Ccnt w) : Code (sig w) Unit := do
  let acc ← Code.loop cfg.runs (⟨0, 0⟩ : Sums w) fun i acc => do
    Code.wait .timerSignal
    let stop ← Code.clock
    let start ← Code.load (σ := sig w) .currentTime
    return datacollectGetSums (BitVec.ofNat cfg.wordBits i) (BitVec.ofNat cfg.wordBits cfg.ignored)
      0 (wordElapsed cfg.wordBits start stop) overhead acc
  Code.store (σ := sig w) (.epSum k) acc.sum
  Code.store (σ := sig w) (.epSum2 k) acc.sum2
  Code.store (σ := sig w) (.epNum k) (BitVec.ofInt w ((cfg.runs : ℤ) - cfg.ignored))
  finish

/-- The timer raises interrupts forever. -/
def timer : Code (sig w) Unit := do
  Code.signal .timerSignal
  Code.goto (σ := sig w) .timer

/-- The parties by function. -/
def code : Entry w → Prog (sig w)
  | .spinnerFn => spinnerFn.run
  | .tickerFn k => (tickerFn cfg k).run
  | .tickerFnEp k overhead => (tickerFnEp cfg k overhead).run
  | .timer => timer.run

/-! ### Main -/

/-- The measurement of the overhead. -/
def measureOverhead : Code (sig w) Unit :=
  Code.loop cfg.runs () fun i _ => do
    let start ← Code.clock
    let stop ← Code.clock
    Code.store (σ := sig w) (.overheads i) (stop - start : Ccnt w)

/-- `getMinOverhead(results->overheads, N_RUNS)`. -/
def minOverhead : Code (sig w) (Ccnt w) := do
  let overheads : ℕ → Ccnt w ← Code.loop cfg.runs (fun _ => 0) fun i overheads => do
    let x : Ccnt w ← Code.load (σ := sig w) (.overheads i)
    return Function.update overheads i x
  return getMinOverhead overheads cfg.runs

/-- Starting the ticker and the spinner and waiting for the ticker. -/
def runRound (ticker : Entry w) (k : Kind) : Code (sig w) Unit := do
  Code.start (σ := sig w) .ticker ticker
  Code.start (σ := sig w) k.spinner .spinnerFn
  benchmarkWaitChildren Msg.isFault .ep 1

/-- Suspending both. -/
def stopRound (k : Kind) : Code (sig w) Unit := do
  Code.suspend (σ := sig w) k.spinner
  Code.suspend (σ := sig w) .ticker

/-- The round with `ticker_fn_ep`, which gets `results->overhead_min` as an argument. -/
def runRoundEp (k : Kind) : Code (sig w) Unit := do
  let overhead : Ccnt w ← Code.load (σ := sig w) .overheadMin
  runRound (.tickerFnEp k (wordArg cfg.wordBits overhead)) k

/-- The four rounds of `main`. -/
def benchmark : Code (sig w) Unit := do
  runRound (.tickerFn .thread) .thread
  stopRound .thread
  runRoundEp cfg .thread
  stopRound .thread
  runRound (.tickerFn .process) .process
  stopRound .process
  runRoundEp cfg .process

/-- `main`, from the measurement of the overhead to `benchmark_finished`. -/
def main : Code (sig w) Unit := do
  measureOverhead cfg
  let overheadMin ← minOverhead cfg
  Code.store (σ := sig w) .overheadMin overheadMin
  benchmark cfg

/-- The priorities. -/
def prio (_ : Kernel (sig w)) : Party → ℕ
  | .main => cfg.maxPrio
  | .ticker => cfg.maxPrio - 1
  | .spinner | .spinnerProcess => cfg.maxPrio - 2
  | .timer => 0

/-- The threads run by their priorities, the timer at any time. -/
def Scheduled (s : State (sig w)) (ps : List Party) : Prop :=
  ps = [.timer] ∨ FixedPriority (code cfg) (prio cfg) s ps

/-- The state in which `main` is called: no interrupt is pending. -/
def init (mem : Var → Ccnt w) : State (sig w) where
  thread
    | .main => (main cfg).run
    | .timer => .jump .timer
    | _ => .halt
  kernel :=
    { mem := mem
      msgs := fun _ => 0
      caller := fun _ => none
      pending := fun _ => false
      owner := nofun }
  log := []

end Sel4bench.Irquser
