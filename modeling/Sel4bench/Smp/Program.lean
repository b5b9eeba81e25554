import Mathlib.Data.BitVec
import Sel4bench.Driver.Smp
import Sel4bench.Lib.Total

/-!
# The main program of the SMP benchmark

On every core a ping and a pong thread exchange messages, and the ping thread counts its calls in
a 32-bit counter. For every test the main program starts the threads of one core after the other
and takes the samples for this number of cores: it reads the counters, waits for the timer and
reads them again. The program runs against a trace that says how many calls every core completes
between two of its actions; only the threads of a core that has been started complete calls. The
log keeps the actions of the program, and for every reading of a counter how many calls its core
had completed, without wrapping.

## Main definitions

* `Sel4bench.Smp.Event`, `Sel4bench.Smp.World`.
* `Sel4bench.Smp.benchmarkMulticoreDoPingPong`, `Sel4bench.Smp.benchmarkMulticoreIpcThroughput`.
-/

namespace Sel4bench.Smp

/-- `ccnt_t` of the platforms with the benchmark. -/
abbrev Time := Ccnt 64

/-- `NS_IN_S`. -/
def nsInS : Time := 1000000000

/-- `SAMPLE_TIME`, 100 milliseconds. -/
def sampleTime : Time := 100000000

/-- The actions of the main program. -/
inductive Event
  /-- Setting `current_delay_cycle`. -/
  | setDelay (delay : ℚ)
  /-- Resuming the threads of a core and signalling them. -/
  | start (core : ℕ)
  | suspend (core : ℕ)
  /-- Reading the counter of a core that has completed so many calls. -/
  | read (core calls : ℕ)
  | wait
deriving DecidableEq

/-- The threads that have been started and not suspended since. -/
def running (log : List Event) : ℕ → Bool :=
  log.foldl (fun r e =>
    match e with
    | .start core => Function.update r core true
    | .suspend core => Function.update r core false
    | _ => r) fun _ => false

/-- `current_delay_cycle`. -/
def currentDelay (log : List Event) : ℚ :=
  log.foldl (fun d e =>
    match e with
    | .setDelay delay => delay
    | _ => d) 0

/-- The state of the benchmark. -/
structure World where
  /-- How many actions the main program has made. -/
  time : ℕ := 0
  /-- `calls_completed`, by core. -/
  callsCompleted : ℕ → BitVec 32 := fun _ => 0
  /-- How many calls the core has completed since the beginning. -/
  calls : ℕ → ℕ := fun _ => 0
  /-- The memory of the results block, as an array of `ccnt_t`. -/
  results : ℕ → Time
  log : List Event := []

/-- Code of the main program. It fails where an index is out of bounds. -/
abbrev SmpM := StateT World Option

variable (sp : SmpParams) (trace : ℕ → ℕ → ℕ)

/-- What the threads do before the next action of the main program: the core `k` completes
`trace s.time k` calls when its threads are running. -/
def World.advance (s : World) : World :=
  let completed k := if running s.log k then trace s.time k else 0
  { s with
    time := s.time + 1
    callsCompleted := fun k => s.callsCompleted k + BitVec.ofNat 32 (completed k)
    calls := fun k => s.calls k + completed k }

/-- An action of the main program. -/
def World.record (s : World) (e : Event) : World := { s with log := s.log ++ [e] }

/-- An action without further effect. -/
def act (e : Event) : SmpM Unit := modify fun s => (s.advance trace).record e

/-- The index of an element of `pp_threads`, or of a row of `benchmarks_result[test]`. -/
def checkIndex (i : ℕ) : SmpM Unit := if i < sp.maxNumNodes then pure () else failure

/-- Reading `pp_threads[i].pp_ipcs.calls_completed`. -/
def readCalls (i : ℕ) : SmpM (BitVec 32) := do
  checkIndex sp i
  modify fun s => s.advance trace
  let s ← get
  modify fun s => s.record (.read i (s.calls i))
  return s.callsCompleted i

/-- The loops that fill `start` and `end`. -/
def readAll (nrCores : ℕ) : SmpM (ℕ → BitVec 32) :=
  (List.range nrCores).foldlM (fun a i => do
    let calls ← readCalls sp trace i
    return Function.update a i calls) fun _ => 0

/-- The loop over `total` in `benchmark_multicore_do_ping_pong`. -/
def totalCalls (nrCores : ℕ) (start stop : ℕ → BitVec 32) : Time :=
  (List.range nrCores).foldl (fun total i => total + (stop i - start i).setWidth 64) 0

/-- `benchmark_multicore_do_ping_pong`. -/
def benchmarkMulticoreDoPingPong (nrCores : ℕ) : SmpM Time := do
  let start ← readAll sp trace nrCores
  act trace .wait
  let stop ← readAll sp trace nrCores
  return totalCalls nrCores start stop * nsInS / sampleTime

/-- The index of an element of `benchmarks_result` in the memory of the results block. -/
def resultIndex (test core run : ℕ) : ℕ := (test * sp.maxNumNodes + core) * sp.runs + run

/-- `results->benchmarks_result[test][core][run] = value`. -/
def storeResult (test core run : ℕ) (value : Time) : SmpM Unit := do
  checkIndex sp core
  modify fun s =>
    { s with results := Function.update s.results (resultIndex sp test core run) value }

/-- `benchmark_multicore_reset_test`. -/
def benchmarkMulticoreResetTest (nrCores : ℕ) : SmpM Unit :=
  (List.range nrCores).forM fun i => do
    checkIndex sp i
    act trace (.suspend i)
    modify fun s => { s with callsCompleted := Function.update s.callsCompleted i 0 }

/-- The body of the loop over the cores. -/
def runCore (test core : ℕ) : SmpM Unit := do
  checkIndex sp core
  act trace (.start core)
  act trace .wait
  (List.range sp.runs).forM fun it => do
    let value ← benchmarkMulticoreDoPingPong sp trace (core + 1)
    storeResult sp test core it value

/-- The body of the loop over the tests. -/
def runTest (nrCores test : ℕ) : SmpM Unit := do
  act trace (.setDelay (sp.delay test))
  (List.range nrCores).forM fun core => runCore sp trace test core
  benchmarkMulticoreResetTest sp trace nrCores

/-- `benchmark_multicore_ipc_throughput`. -/
def benchmarkMulticoreIpcThroughput (nrCores : ℕ) : SmpM Unit := do
  act trace .wait
  (List.range sp.tests).forM fun test => runTest sp trace nrCores test

end Sel4bench.Smp
