import Sel4bench.Overhead.Samples
import Sel4bench.Lib.Machine
import Mathlib.Data.Fintype.Defs
import Sel4bench.Support.WaitChildren

/-!
# The faulters and handlers of the fault benchmark

The functions of the fault application and `run_benchmark`, which starts a pair of them, as threads
over the fault endpoint and `done_ep` in the configuration without MCS. A fault is a call with the
address of the faulting instruction on the fault endpoint; the reply carries the address at which
the thread continues. The variable `start` and the results block are shared memory.

## Main definitions

* `Sel4bench.Fault.measureFaultFn` and the other functions, `Sel4bench.Fault.functions`.
* `Sel4bench.Fault.runBenchmark`, `Sel4bench.Fault.runFaultBenchmark`, `Sel4bench.Fault.init`.
-/

namespace Sel4bench.Fault

open Machine
open Support (benchmarkWaitChildren)

/-- The threads of the fault application. -/
inductive Party
  | faulter
  | handler
  | driver
deriving DecidableEq

instance : Fintype Party where
  elems := {.faulter, .handler, .driver}
  complete p := by cases p <;> simp

/-- The endpoints of `run_fault_benchmark`. -/
inductive Endpoint
  | faultEp
  | doneEp
deriving DecidableEq

/-- A fault at an address, a reply with an address, or a message without content. -/
inductive Msg (b : ℕ)
  | fault (ip : Word b)
  | reply (ip : Word b)
  | empty

/-- The label of the message is that of a fault. -/
def Msg.isFault {b : ℕ} : Msg b → Bool
  | .fault _ => true
  | .reply _ | .empty => false

/-- The measurements of the application. -/
inductive Series
  | roundTrip
  | fault
  | faultReply
deriving DecidableEq

/-- The fields for the early processing of a measurement. -/
inductive EarlyField
  | sum
  | sum2
  | num
  | minOverhead
deriving DecidableEq

/-- The shared variable `start`, and the arrays and fields of `fault_results_t`: `sample .fault i`
is `results->fault[i]` and `early .fault .sum` is `results->fault_ep_sum`. -/
inductive Var
  | start
  | sample (m : Series) (i : ℕ)
  | early (m : Series) (f : EarlyField)
deriving DecidableEq

/-- The functions that are run as faulter or handler. -/
inductive Fn
  | measureFaultFn
  | measureFaultHandlerFn
  | measureFaultHandlerFnEp
  | measureFaultReplyFn
  | measureFaultReplyHandlerFn
  | measureFaultReplyFnEp
  | measureFaultRoundtripFn
  | measureFaultRoundtripFnEp
  | measureFaultRoundtripHandlerFn

/-- The types of the fault benchmark. -/
abbrev sig (b w : ℕ) : Sig where
  Party := Party
  Endpoint := Endpoint
  Ntfn := Empty
  Lock := Empty
  Cond := Empty
  Var := Var
  Val _ := Ccnt w
  Time := Ccnt w
  Msg := Msg b
  Label := Fn

/-- The constants of the application. The fault of number `n` is raised at the address `ip n`. -/
structure Config (b : ℕ) where
  /-- `N_RUNS`. -/
  runs : ℕ
  /-- `N_IGNORED`. -/
  ignored : ℕ
  ip : ℕ → Word b
  /-- `UD_INSTRUCTION_SIZE`. -/
  udInstructionSize : Word b

variable {b w : ℕ} (cfg : Config b)

/-! ### System calls -/

/-- The first message register. -/
def Msg.mr0 : Msg b → Word b
  | .fault ip | .reply ip => ip
  | .empty => 0

/-- `fault`, which the faulter does for the `n`-th time. -/
def fault (n : ℕ) : Code (sig b w) Unit := do
  let _ ← Code.call .faultEp (.fault (cfg.ip n))

/-- Reading a shared variable. -/
def load (x : Var) : Code (sig b w) (Ccnt w) := Code.load x

/-- `SEL4BENCH_READ_CCNT(*start)`. -/
def readStart : Code (sig b w) Unit := do
  let t ← Code.clock
  Code.store .start t

/-- `DO_REAL_REPLY_RECV_1`: the address that is received replaces the one of the reply. -/
def replyRecv1 (ip : Word b) : Code (sig b w) (Word b) := do
  let m ← Code.replyRecv .faultEp (.reply ip)
  return m.mr0

/-- `seL4_Send(done_ep, seL4_MessageInfo_new(0, 0, 0, 0))`. -/
def sendDone : Code (sig b w) Unit := Code.send .doneEp .empty

/-- `fault_handler_start`. -/
def faultHandlerStart : Code (sig b w) (Word b) := do
  let m ← Code.recv .faultEp
  return m.mr0

/-- `fault_handler_done`. -/
def faultHandlerDone (ip : Word b) : Code (sig b w) Unit := do
  Code.reply (.reply (ip + cfg.udInstructionSize))
  sendDone
  let _ ← Code.recv .faultEp

/-- `DATACOLLECT_GET_SUMS` in run `i`. -/
def getSums (i : ℕ) (start stop overhead : Ccnt w) (acc : Sums w) : Sums w :=
  datacollectGetSums (BitVec.ofNat b i) (BitVec.ofNat b cfg.ignored) start stop overhead acc

/-- The stores of the sums after a loop with early processing. -/
def storeSums (m : Series) (acc : Sums w) : Code (sig b w) Unit := do
  Code.store (.early m .sum) acc.sum
  Code.store (.early m .sum2) acc.sum2
  Code.store (.early m .num) (BitVec.ofInt w ((cfg.runs : ℤ) - cfg.ignored))

/-! ### Fault to handler -/

/-- `measure_fault_fn`. -/
def measureFaultFn : Code (sig b w) Unit := do
  Code.loop (cfg.runs + 1) () fun i _ => do
    readStart
    fault cfg i
  sendDone

/-- `measure_fault_handler_fn`. -/
def measureFaultHandlerFn : Code (sig b w) Unit := do
  let ip ← faultHandlerStart
  let ip ← Code.loop cfg.runs ip fun i ip => do
    let ip ← replyRecv1 (ip + cfg.udInstructionSize)
    let stop ← Code.clock
    let start ← load .start
    Code.store (.sample .fault i) (stop - start)
    return ip
  faultHandlerDone cfg ip

/-- `measure_fault_handler_fn_ep`. -/
def measureFaultHandlerFnEp : Code (sig b w) Unit := do
  let overhead ← load (.early .fault .minOverhead)
  let ip ← faultHandlerStart
  let r ← Code.loop cfg.runs (ip, (⟨0, 0⟩ : Sums w)) fun i r => do
    let ip ← replyRecv1 (r.1 + cfg.udInstructionSize)
    let stop ← Code.clock
    let start ← load .start
    return (ip, getSums cfg i start stop overhead r.2)
  storeSums cfg .fault r.2
  faultHandlerDone cfg r.1

/-! ### Handler to faulter -/

/-- `measure_fault_reply_fn`. -/
def measureFaultReplyFn : Code (sig b w) Unit := do
  fault cfg 0
  Code.loop (cfg.runs + 1) () fun i _ => do
    fault cfg (i + 1)
    let stop ← Code.clock
    let start ← load .start
    Code.store (.sample .faultReply i) (stop - start)
  sendDone

/-- `measure_fault_reply_handler_fn`. -/
def measureFaultReplyHandlerFn : Code (sig b w) Unit := do
  let ip ← faultHandlerStart
  let ip ← Code.loop (cfg.runs + 1) ip fun _ ip => do
    readStart
    replyRecv1 (ip + cfg.udInstructionSize)
  faultHandlerDone cfg ip

/-- `measure_fault_reply_fn_ep`. -/
def measureFaultReplyFnEp : Code (sig b w) Unit := do
  let overhead ← load (.early .faultReply .minOverhead)
  fault cfg 0
  let acc ← Code.loop cfg.runs (⟨0, 0⟩ : Sums w) fun i acc => do
    fault cfg (i + 1)
    let stop ← Code.clock
    let start ← load .start
    return getSums cfg i start stop overhead acc
  fault cfg (cfg.runs + 1)
  storeSums cfg .faultReply acc
  sendDone

/-! ### Round trip -/

/-- `measure_fault_roundtrip_fn`. -/
def measureFaultRoundtripFn : Code (sig b w) Unit := do
  Code.loop (cfg.runs + 1) () fun i _ => do
    let start ← Code.clock
    fault cfg i
    let stop ← Code.clock
    Code.store (.sample .roundTrip i) (stop - start)
  sendDone

/-- `measure_fault_roundtrip_fn_ep`. -/
def measureFaultRoundtripFnEp : Code (sig b w) Unit := do
  let overhead ← load (.early .roundTrip .minOverhead)
  let acc ← Code.loop cfg.runs (⟨0, 0⟩ : Sums w) fun i acc => do
    let start ← Code.clock
    fault cfg i
    let stop ← Code.clock
    return getSums cfg i start stop overhead acc
  fault cfg cfg.runs
  storeSums cfg .roundTrip acc
  sendDone

/-- `measure_fault_roundtrip_handler_fn`. -/
def measureFaultRoundtripHandlerFn : Code (sig b w) Unit := do
  let ip ← faultHandlerStart
  let ip ← Code.loop cfg.runs ip fun _ ip => replyRecv1 (ip + cfg.udInstructionSize)
  faultHandlerDone cfg ip

/-- The functions by name. -/
def functions : Fn → Code (sig b w) Unit
  | .measureFaultFn => measureFaultFn cfg
  | .measureFaultHandlerFn => measureFaultHandlerFn cfg
  | .measureFaultHandlerFnEp => measureFaultHandlerFnEp cfg
  | .measureFaultReplyFn => measureFaultReplyFn cfg
  | .measureFaultReplyHandlerFn => measureFaultReplyHandlerFn cfg
  | .measureFaultReplyFnEp => measureFaultReplyFnEp cfg
  | .measureFaultRoundtripFn => measureFaultRoundtripFn cfg
  | .measureFaultRoundtripFnEp => measureFaultRoundtripFnEp cfg
  | .measureFaultRoundtripHandlerFn => measureFaultRoundtripHandlerFn cfg

/-- The threads of the functions. -/
def code (w : ℕ) (f : Fn) : Prog (sig b w) := (functions cfg f).run

/-! ### Driver -/

/-- `run_benchmark`. -/
def runBenchmark (faulterFn handlerFn : Fn) : Code (sig b w) Unit := do
  Code.start .handler handlerFn
  Code.start .faulter faulterFn
  benchmarkWaitChildren Msg.isFault .doneEp 1
  benchmarkWaitChildren Msg.isFault .doneEp 1
  Code.suspend .faulter
  Code.suspend .handler

/-- A call of `run_benchmark`, with what it measures and whether by early processing. -/
structure Benchmark where
  faulterFn : Fn
  handlerFn : Fn
  series : Series
  early : Bool

/-- The calls of `run_benchmark` in `run_fault_benchmark`. -/
def runFaultBenchmark : List Benchmark :=
  [⟨.measureFaultFn, .measureFaultHandlerFn, .fault, false⟩,
    ⟨.measureFaultFn, .measureFaultHandlerFnEp, .fault, true⟩,
    ⟨.measureFaultReplyFn, .measureFaultReplyHandlerFn, .faultReply, false⟩,
    ⟨.measureFaultReplyFnEp, .measureFaultReplyHandlerFn, .faultReply, true⟩,
    ⟨.measureFaultRoundtripFn, .measureFaultRoundtripHandlerFn, .roundTrip, false⟩,
    ⟨.measureFaultRoundtripFnEp, .measureFaultRoundtripHandlerFn, .roundTrip, true⟩]

/-- The state in which `run_benchmark` is called, with any contents of the memory. -/
def init (mem : Var → Ccnt w) (bm : Benchmark) : State (sig b w) where
  thread
    | .driver => (runBenchmark bm.faulterFn bm.handlerFn).run
    | .faulter | .handler => .halt
  kernel :=
    { mem := mem
      msgs := fun _ => 0
      caller := fun _ => none
      pending := nofun
      owner := nofun }
  log := []

end Sel4bench.Fault
