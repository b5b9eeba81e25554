import Sel4bench.Overhead.Samples
import Sel4bench.Lib.Machine
import Mathlib.Data.Fintype.Defs
import Sel4bench.Support.WaitChildren

/-!
# The threads of the scheduler benchmark

The functions `high_fn`, `low_fn` and `low_fn_ep` of the scheduler application, which pass control
to each other through the notifications `produce` and `consume`, and the driver that restarts both
threads for every priority level. The arguments of a function that change from level to level are
part of its entry point: the row of the results, and the overhead.

## Main definitions

* `Sel4bench.Scheduler.highFn`, `Sel4bench.Scheduler.lowFn`, `Sel4bench.Scheduler.lowFnEp`.
* `Sel4bench.Scheduler.benchmarkPrioThreads`, `Sel4bench.Scheduler.benchmarkPrioThreadsEp`,
  `Sel4bench.Scheduler.init`.
* `Sel4bench.Scheduler.FixedPriority` — the scheduler that runs `low` only when `high` is blocked.
-/

namespace Sel4bench.Scheduler

open Machine
open Support (Msg benchmarkWaitChildren)

/-- The threads of the benchmark. -/
inductive Party
  | high
  | low
  | driver
deriving DecidableEq

instance : Fintype Party where
  elems := {.high, .low, .driver}
  complete p := by cases p <;> simp

/-- The endpoint for the done messages. -/
inductive Endpoint
  | ep
deriving DecidableEq

inductive Ntfn
  | produce
  | consume
deriving DecidableEq

/-- The results of early processing at one level. -/
inductive EarlyField
  | sum
  | sum2
  | num
deriving DecidableEq

/-- The shared variable `start`, and the results: `result l i` is `results[l][i]` and `early l .sum`
is `results->thread_results_ep_sum[l]`. -/
inductive Var
  | start
  | result (level i : ℕ)
  | early (level : ℕ) (f : EarlyField)
deriving DecidableEq

/-- The entry points of the threads, with the arguments that depend on the level. -/
inductive Entry (w : ℕ)
  | highFn
  | lowFn (level : ℕ)
  | lowFnEp (level : ℕ) (overhead : Ccnt w)

/-- The types of the scheduler benchmark. -/
abbrev sig (w : ℕ) : Sig where
  Party := Party
  Endpoint := Endpoint
  Ntfn := Ntfn
  Lock := Empty
  Cond := Empty
  Var := Var
  Val _ := Ccnt w
  Time := Ccnt w
  Msg := Msg
  Label := Entry w

/-- The constants of the application. -/
structure Config where
  /-- `seL4_WordBits`. -/
  wordBits : ℕ
  /-- `N_RUNS`. -/
  runs : ℕ
  /-- `N_IGNORED`. -/
  ignored : ℕ
  /-- `N_PRIOS`. -/
  prios : ℕ

variable {w : ℕ} (cfg : Config)

/-! ### Threads -/

/-- `seL4_Send(done_ep, seL4_MessageInfo_new(0, 0, 0, 0))` and blocking on `produce`. -/
def finish : Code (sig w) Unit := do
  Code.send .ep .empty
  Code.wait .produce

/-- Reading the shared variable `start`. -/
def loadStart : Code (sig w) (Ccnt w) := Code.load (σ := sig w) .start

/-- `high_fn`. -/
def highFn : Code (sig w) Unit := do
  Code.loop cfg.runs () fun _ _ => do
    Code.signal .produce
    let t ← Code.clock
    Code.store .start t
    Code.wait .consume
  finish

/-- `low_fn`, with `results` the row of a level. -/
def lowFn (level : ℕ) : Code (sig w) Unit := do
  Code.loop cfg.runs () fun i _ => do
    Code.wait .produce
    let stop ← Code.clock
    let start ← loadStart
    Code.store (.result level i) (stop - start)
    Code.signal .consume
  finish

/-- `low_fn_ep`, with `out_sum`, `out_sum2` and `out_num` those of a level. -/
def lowFnEp (level : ℕ) (overhead : Ccnt w) : Code (sig w) Unit := do
  let acc ← Code.loop cfg.runs (⟨0, 0⟩ : Sums w) fun i acc => do
    Code.wait .produce
    let stop ← Code.clock
    let start ← loadStart
    let acc := datacollectGetSums (BitVec.ofNat cfg.wordBits i)
      (BitVec.ofNat cfg.wordBits cfg.ignored) start stop overhead acc
    Code.signal .consume
    return acc
  Code.store (.early level .sum) acc.sum
  Code.store (.early level .sum2) acc.sum2
  Code.store (.early level .num) (BitVec.ofInt w ((cfg.runs : ℤ) - cfg.ignored))
  finish

/-- The threads by entry point. -/
def code : Entry w → Prog (sig w)
  | .highFn => (highFn cfg).run
  | .lowFn level => (lowFn cfg level).run
  | .lowFnEp level overhead => (lowFnEp cfg level overhead).run

/-! ### Driver -/

/-- The loop over the priority levels, with the entry points of `low`. -/
def benchmarkPrio (low : ℕ → Entry w) : Code (sig w) Unit := do
  Code.loop cfg.prios () fun i _ => do
    Code.start .low (low i)
    Code.start .high .highFn
    benchmarkWaitChildren Msg.isFault .ep 2
  Code.suspend .high
  Code.suspend .low

/-- The two benchmarks with threads. -/
inductive Benchmark (w : ℕ)
  | late
  | early (overheadCcntMin : Ccnt w)

/-- The entry point of `low` at a level. The overhead is passed as a word. -/
def Benchmark.low : Benchmark w → ℕ → Entry w
  | .late => .lowFn
  | .early overheadCcntMin => fun level => .lowFnEp level (wordArg cfg.wordBits overheadCcntMin)

/-- `benchmark_prio_threads`. -/
def benchmarkPrioThreads : Code (sig w) Unit := benchmarkPrio cfg (Benchmark.late.low cfg)

/-- `benchmark_prio_threads_ep`. -/
def benchmarkPrioThreadsEp (overheadCcntMin : Ccnt w) : Code (sig w) Unit :=
  benchmarkPrio cfg ((Benchmark.early overheadCcntMin).low cfg)

/-- The driver of a benchmark. -/
def Benchmark.driver : Benchmark w → Code (sig w) Unit
  | .late => benchmarkPrioThreads cfg
  | .early overheadCcntMin => benchmarkPrioThreadsEp cfg overheadCcntMin

/-- The state in which a benchmark is called: both notifications are clear. -/
def init (mem : Var → Ccnt w) (bm : Benchmark w) : State (sig w) where
  thread
    | .driver => (bm.driver cfg).run
    | .high | .low => .halt
  kernel :=
    { mem := mem
      msgs := fun _ => 0
      caller := fun _ => none
      pending := fun _ => false
      owner := nofun }
  log := []

/-- The fixed-priority rule: `low` only takes steps while `high` is blocked. -/
def FixedPriority (s : State (sig w)) (ps : List Party) : Prop :=
  .low ∈ ps → Blocked (code cfg) s .high

end Sel4bench.Scheduler
