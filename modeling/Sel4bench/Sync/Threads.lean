import Sel4bench.Overhead.Samples
import Sel4bench.Lib.Machine
import Mathlib.Data.Fintype.Defs
import Sel4bench.Support.WaitChildren

/-!
# The threads of the producer and consumer benchmark

The functions that `SYNC_PRODUCER_CONSUMER_FUNC` and `SYNC_PRODUCER_CONSUMER_FUNC_EP` define in the
sync application, and the driver that runs the benchmark without and then with early processing, on
the same lock and condition variables. The lock and the condition variables are those of
`Machine`: waiting on a condition variable releases the lock in the same step, and a signal wakes
one thread that waits at that moment, which acquires the lock again.

The two loops of a function are entry points of its code: the counting loop with its counter and,
for early processing, the sums, and the loop around waiting.

## Main definitions

* `Sel4bench.Sync.consumerFunc0`, `Sel4bench.Sync.producerFunc0`, `Sel4bench.Sync.consumerFuncEp`,
  `Sel4bench.Sync.producerFuncEp`.
* `Sel4bench.Sync.benchmarkProducerConsumer`, `Sel4bench.Sync.benchmarkProducerConsumerEp`,
  `Sel4bench.Sync.init`.
-/

namespace Sel4bench.Sync

open Machine
open Support (Msg benchmarkWaitChildren)

/-- The two benchmarks, without and with early processing. Each has threads and shared variables of
its own. -/
inductive Bench
  | late
  | early
deriving DecidableEq

inductive Role
  | producer
  | consumer
deriving DecidableEq

/-- The threads of the application. -/
inductive Party
  | thread (b : Bench) (r : Role)
  | driver
deriving DecidableEq

instance : Fintype Party where
  elems := {.thread .late .producer, .thread .late .consumer, .thread .early .producer,
    .thread .early .consumer, .driver}
  complete p := by
    cases p with
    | thread b r => cases b <;> cases r <;> simp
    | driver => simp

inductive Endpoint
  | doneEp
  | blockEp
deriving DecidableEq

inductive Lock
  | lock
deriving DecidableEq

inductive Cond
  | producerCv
  | consumerCv
deriving DecidableEq

/-- The measured series. -/
inductive Series
  | producerToConsumer
  | consumerToProducer
deriving DecidableEq

/-- The results of early processing of a series. -/
inductive EarlyField
  | sum
  | sum2
  | num
deriving DecidableEq

/-- The variables of type `ccnt_t`: those that the benchmark function declares, and the results.
`sample m i` is entry `i` of the array of the series `m`. -/
inductive CcntVar
  | producerSignal (b : Bench)
  | consumerSignal (b : Bench)
  | sample (m : Series) (i : ℕ)
  | early (m : Series) (f : EarlyField)
deriving DecidableEq

/-- The shared variables: the `int` variable `fifo_head` of a benchmark, and the counter values. -/
inductive Var
  | fifoHead (b : Bench)
  | ccnt (x : CcntVar)
deriving DecidableEq

/-- The values of a variable. -/
abbrev Val (w : ℕ) : Var → Type
  | .fifoHead _ => ℤ
  | .ccnt _ => Ccnt w

/-- The pointers that a function gets as its arguments. The lock and the endpoints are the same for
all functions. -/
structure Args where
  waitCv : Cond
  signalCv : Cond
  /-- The `fifo_head` of a benchmark. -/
  fifoHead : Bench
  start : CcntVar
  signal : CcntVar

/-- The functions of the threads. Those without early processing get the array for the samples as
their last argument. -/
inductive Func
  | consumerFunc0 (result : Series)
  | producerFunc0 (result : Series)
  | consumerFuncEp
  | producerFuncEp

/-- The loop heads of a function, with the values of its local variables there. -/
inductive Point (w : ℕ)
  | forLoop (i : ℕ) (acc : Sums w)
  | whileLoop (i : ℕ) (acc : Sums w)

/-- A place in the code of the threads. -/
structure Label (w : ℕ) where
  func : Func
  args : Args
  point : Point w

/-- The types of the sync benchmark. -/
abbrev sig (w : ℕ) : Sig where
  Party := Party
  Endpoint := Endpoint
  Ntfn := Empty
  Lock := Lock
  Cond := Cond
  Var := Var
  Val := Val w
  Time := Ccnt w
  Msg := Msg
  Label := Label w

/-- The constants of the application. -/
structure Config where
  /-- `seL4_WordBits`. -/
  wordBits : ℕ
  /-- `N_RUNS`. -/
  runs : ℕ
  /-- `N_IGNORED`. -/
  ignored : ℕ

/-- `FIFO_SIZE`. -/
def fifoSize : ℤ := 1

variable {w : ℕ} (cfg : Config)

/-! ### Threads -/

/-- Reading `*fifo_head`. -/
def loadFifoHead (b : Bench) : Code (sig w) ℤ := Code.load (σ := sig w) (.fifoHead b)

/-- Writing `*fifo_head`. -/
def storeFifoHead (b : Bench) (n : ℤ) : Code (sig w) Unit :=
  Code.store (σ := sig w) (.fifoHead b) n

/-- Reading a counter value. -/
def loadCcnt (x : CcntVar) : Code (sig w) (Ccnt w) := Code.load (σ := sig w) (.ccnt x)

/-- Writing a counter value. -/
def storeCcnt (x : CcntVar) (t : Ccnt w) : Code (sig w) Unit :=
  Code.store (σ := sig w) (.ccnt x) t

/-- `seL4_Send(done_ep, seL4_MessageInfo_new(0, 0, 0, 0))` and blocking on `block_ep`. -/
def finish : Code (sig w) Unit := do
  Code.send .doneEp .empty
  let _ ← Code.recv .blockEp

/-- The common part of the two macros, with what is done with a sample and at the end. -/
def producerConsumer (f : Func) (a : Args) (condition : ℤ → Bool) (work : ℤ → ℤ)
    (record : ℕ → Sums w → Ccnt w → Ccnt w → Code (sig w) (Sums w))
    (report : Sums w → Code (sig w) Unit) : Point w → Code (sig w) Unit
  | .forLoop i acc =>
    if i < cfg.runs then do
      Code.acquire .lock
      Code.goto ⟨f, a, .whileLoop i acc⟩
    else do
      report acc
      finish
  | .whileLoop i acc => do
    let fifoHead ← loadFifoHead a.fifoHead
    if condition fifoHead then
      Code.waitCond .lock a.waitCv
      Code.goto ⟨f, a, .whileLoop i acc⟩
    else
      let stop ← Code.clock
      let start ← loadCcnt a.start
      let acc ← record i acc start stop
      let fifoHead ← loadFifoHead a.fifoHead
      storeFifoHead a.fifoHead (work fifoHead)
      let t ← Code.clock
      storeCcnt a.signal t
      Code.wake a.signalCv
      Code.release .lock
      Code.goto ⟨f, a, .forLoop (i + 1) acc⟩

/-- What `SYNC_PRODUCER_CONSUMER_FUNC` does with a sample: `result[i] = (end-(*start))`. -/
def storeSample (result : Series) (i : ℕ) (acc : Sums w) (start stop : Ccnt w) :
    Code (sig w) (Sums w) := do
  storeCcnt (.sample result i) (stop - start)
  return acc

/-- What `SYNC_PRODUCER_CONSUMER_FUNC_EP` does with a sample. -/
def addSample (i : ℕ) (acc : Sums w) (start stop : Ccnt w) : Code (sig w) (Sums w) :=
  return datacollectGetSums (BitVec.ofNat cfg.wordBits i) (BitVec.ofNat cfg.wordBits cfg.ignored)
    start stop 0 acc

/-- Storing `direction_ep_sum`, `direction_ep_sum2` and `direction_ep_num`. -/
def storeSums (direction : Series) (acc : Sums w) : Code (sig w) Unit := do
  storeCcnt (.early direction .sum) acc.sum
  storeCcnt (.early direction .sum2) acc.sum2
  storeCcnt (.early direction .num) (BitVec.ofInt w ((cfg.runs : ℤ) - cfg.ignored))

/-- `SYNC_PRODUCER_CONSUMER_FUNC`. -/
def syncProducerConsumerFunc (f : Func) (condition : ℤ → Bool) (work : ℤ → ℤ) (a : Args)
    (result : Series) : Point w → Code (sig w) Unit :=
  producerConsumer cfg f a condition work (storeSample result) fun _ => return ()

/-- `SYNC_PRODUCER_CONSUMER_FUNC_EP`. -/
def syncProducerConsumerFuncEp (f : Func) (condition : ℤ → Bool) (work : ℤ → ℤ)
    (direction : Series) (a : Args) : Point w → Code (sig w) Unit :=
  producerConsumer cfg f a condition work (addSample cfg) (storeSums cfg direction)

/-- `consumer_func0`. -/
def consumerFunc0 (a : Args) (result : Series) : Point w → Code (sig w) Unit :=
  syncProducerConsumerFunc cfg (.consumerFunc0 result) (· == 0) (· - 1) a result

/-- `producer_func0`. -/
def producerFunc0 (a : Args) (result : Series) : Point w → Code (sig w) Unit :=
  syncProducerConsumerFunc cfg (.producerFunc0 result) (· == fifoSize) (· + 1) a result

/-- `consumer_func_ep`. -/
def consumerFuncEp (a : Args) : Point w → Code (sig w) Unit :=
  syncProducerConsumerFuncEp cfg .consumerFuncEp (· == 0) (· - 1) .producerToConsumer a

/-- `producer_func_ep`. -/
def producerFuncEp (a : Args) : Point w → Code (sig w) Unit :=
  syncProducerConsumerFuncEp cfg .producerFuncEp (· == fifoSize) (· + 1) .consumerToProducer a

/-- The code of the threads. -/
def code (ℓ : Label w) : Prog (sig w) :=
  match ℓ.func with
  | .consumerFunc0 result => (consumerFunc0 cfg ℓ.args result ℓ.point).run
  | .producerFunc0 result => (producerFunc0 cfg ℓ.args result ℓ.point).run
  | .consumerFuncEp => (consumerFuncEp cfg ℓ.args ℓ.point).run
  | .producerFuncEp => (producerFuncEp cfg ℓ.args ℓ.point).run

/-! ### Driver -/

/-- The arguments of the producer, as `sel4utils_create_word_args` passes them. -/
def producerArgs (b : Bench) : Args where
  waitCv := .consumerCv
  signalCv := .producerCv
  fifoHead := b
  start := .producerSignal b
  signal := .consumerSignal b

/-- The arguments of the consumer. -/
def consumerArgs (b : Bench) : Args where
  waitCv := .producerCv
  signalCv := .consumerCv
  fifoHead := b
  start := .consumerSignal b
  signal := .producerSignal b

/-- `sel4utils_start_thread`: the function begins with `i`, `sum` and `sum2` zero. -/
def startThread (p : Party) (f : Func) (a : Args) : Code (sig w) Unit :=
  Code.start p ⟨f, a, .forLoop 0 ⟨0, 0⟩⟩

/-- One benchmark with the functions of its threads. -/
def runBenchmark (b : Bench) (producerFunc consumerFunc : Func) : Code (sig w) Unit := do
  storeFifoHead b 0
  startThread (.thread b .producer) producerFunc (producerArgs b)
  startThread (.thread b .consumer) consumerFunc (consumerArgs b)
  benchmarkWaitChildren Msg.isFault .doneEp 2
  Code.suspend (.thread b .producer)
  Code.suspend (.thread b .consumer)

/-- `benchmark_producer_consumer`. `N_PROD_CONS_BENCHMARKS` is one. -/
def benchmarkProducerConsumer : Code (sig w) Unit :=
  runBenchmark .late (.producerFunc0 .consumerToProducer) (.consumerFunc0 .producerToConsumer)

/-- `benchmark_producer_consumer_ep`. -/
def benchmarkProducerConsumerEp : Code (sig w) Unit :=
  runBenchmark .early .producerFuncEp .consumerFuncEp

/-- The two benchmarks, as `main` calls them. -/
def driver : Code (sig w) Unit := do
  benchmarkProducerConsumer
  benchmarkProducerConsumerEp

/-- The state in which the first benchmark is called: the lock is new. -/
def init (mem : ∀ x, Val w x) : State (sig w) where
  thread
    | .driver => driver.run
    | .thread _ _ => .halt
  kernel :=
    { mem := mem
      msgs := fun _ => 0
      caller := fun _ => none
      pending := nofun
      owner := fun _ => none }
  log := []

end Sel4bench.Sync
