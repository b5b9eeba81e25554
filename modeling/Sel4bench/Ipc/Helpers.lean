import Sel4bench.EarlyProcessing
import Sel4bench.Ipc.Params
import Sel4bench.Lib.Machine
import Mathlib.Data.Fintype.Defs

/-!
# The helpers of the IPC benchmark

The client and server functions of the IPC application and the part of `run_bench` that starts
them and collects their results, as threads over the endpoints `ep` and `result_ep` of the
configuration without MCS. The two macros are definitions with the parameters of the macros; what
a parameter does not do is the empty code (`dummy_seL4_Send`, `dummy_seL4_Call`,
`dummy_seL4_Reply`).

## Main definitions

* `Sel4bench.Ipc.ipcCallMacro`, `Sel4bench.Ipc.ipcReplyRecvMacro`, `Sel4bench.Ipc.benchFuncs`.
* `Sel4bench.Ipc.runBench`, `Sel4bench.Ipc.init`.
-/

namespace Sel4bench.Ipc

open Machine

/-- The threads of a run of `run_bench`. -/
inductive Party
  | client
  | server
  | driver
deriving DecidableEq

instance : Fintype Party where
  elems := {.client, .server, .driver}
  complete p := by cases p <;> simp

/-- The endpoints of a run of `run_bench`. -/
inductive Endpoint
  | ep
  | resultEp
deriving DecidableEq

/-- A message without content of the given length, or a result. -/
inductive Msg (w : ℕ)
  | tag (length : ℕ)
  | result (t : Ccnt w)

/-- The types of the IPC benchmark; the entry points are the helper functions. -/
abbrev sig (w : ℕ) : Sig where
  Party := Party
  Endpoint := Endpoint
  Ntfn := Empty
  Lock := Empty
  Cond := Empty
  Var := Empty
  Val := Empty.elim
  Time := Ccnt w
  Msg := Msg w
  Label := HelperFunc

variable {w : ℕ}

/-! ### Helper functions -/

/-- `send_result`. -/
def sendResult (e : Endpoint) (t : Ccnt w) : Code (sig w) Unit := Code.send e (.result t)

/-- `get_result`. A message without a result has length zero or one. -/
def getResult (e : Endpoint) : Code (sig w) (Ccnt w) := do
  match ← Code.recv e with
  | .result t => return t
  | .tag _ => return 0

/-- The variable that a helper sends as its result: `start` or `end`. -/
inductive StartEnd
  | start
  | stop

/-- The value of the variable. -/
def StartEnd.get (v : StartEnd) (t : Ccnt w × Ccnt w) : Ccnt w :=
  match v with
  | .start => t.1
  | .stop => t.2

/-- The loop of the helpers: `start` and `end` around an operation, `warmups` times. -/
def timed (warmups : ℕ) (op : Code (sig w) Unit) : Code (sig w) (Ccnt w × Ccnt w) :=
  Code.loop warmups (0, 0) fun _ _ => do
    let start ← Code.clock
    op
    let stop ← Code.clock
    return (start, stop)

/-- `seL4_Call`, with the reply not looked at. -/
def seL4Call (tag : Msg w) : Code (sig w) Unit := do
  let _ ← Code.call .ep tag

/-- `seL4_Send`. -/
def seL4Send (tag : Msg w) : Code (sig w) Unit := Code.send .ep tag

/-- `api_recv` and `api_wait`, with the message not looked at. -/
def apiRecv : Code (sig w) Unit := do
  let _ ← Code.recv .ep

/-- `api_reply`. -/
def apiReply (tag : Msg w) : Code (sig w) Unit := Code.reply tag

/-- `DO_REAL_REPLY_RECV`. -/
def replyRecv (tag : Msg w) : Code (sig w) Unit := do
  let _ ← Code.replyRecv .ep tag

/-- The functions that do nothing. -/
def dummy (_ : Msg w) : Code (sig w) Unit := pure ()

/-- `IPC_CALL_FUNC`. -/
def ipcCallMacro (warmups : ℕ) (benchFunc sendFunc callFunc : Msg w → Code (sig w) Unit)
    (sendStartEnd : StartEnd) (length : ℕ) : Code (sig w) Unit := do
  let tag := .tag length
  callFunc tag
  let t ← timed warmups (benchFunc tag)
  sendResult .resultEp (sendStartEnd.get t)
  sendFunc tag
  apiRecv

/-- `IPC_REPLY_RECV_FUNC`. -/
def ipcReplyRecvMacro (warmups : ℕ) (benchFunc replyFunc : Msg w → Code (sig w) Unit)
    (recvFunc : Code (sig w) Unit) (sendStartEnd : StartEnd) (length : ℕ) :
    Code (sig w) Unit := do
  let tag := .tag length
  recvFunc
  let t ← timed warmups (benchFunc tag)
  replyFunc tag
  sendResult .resultEp (sendStartEnd.get t)
  apiRecv

/-- `ipc_recv_func`. -/
def ipcRecvFunc (warmups : ℕ) : Code (sig w) Unit := do
  let t ← timed warmups apiRecv
  apiRecv
  sendResult .resultEp t.2

/-- `ipc_send_func`. -/
def ipcSendFunc (warmups : ℕ) : Code (sig w) Unit := do
  let t ← timed warmups (seL4Send (.tag 0))
  sendResult .resultEp t.1
  seL4Send (.tag 0)

/-- `bench_funcs`. -/
def benchFuncs (warmups : ℕ) : HelperFunc → Code (sig w) Unit
  | .callFunc => ipcCallMacro warmups seL4Call seL4Send dummy .stop 0
  | .callFunc2 => ipcCallMacro warmups seL4Call dummy seL4Call .start 0
  | .call10Func => ipcCallMacro warmups seL4Call seL4Send dummy .stop 10
  | .call10Func2 => ipcCallMacro warmups seL4Call dummy seL4Call .start 10
  | .replyRecvFunc2 => ipcReplyRecvMacro warmups replyRecv apiReply apiRecv .stop 0
  | .replyRecvFunc => ipcReplyRecvMacro warmups replyRecv dummy apiRecv .start 0
  | .replyRecv10Func2 => ipcReplyRecvMacro warmups replyRecv apiReply apiRecv .stop 10
  | .replyRecv10Func => ipcReplyRecvMacro warmups replyRecv dummy apiRecv .start 10
  | .sendFunc => ipcSendFunc warmups
  | .recvFunc => ipcRecvFunc warmups

/-- The threads of the helper functions. -/
def code (w warmups : ℕ) (f : HelperFunc) : Prog (sig w) := (benchFuncs warmups f).run

/-! ### Driver -/

/-- `run_bench`, with the two results. -/
def runBench (params : BenchmarkParams) : Code (sig w) (Ccnt w × Ccnt w) := do
  Code.start .server params.serverFn
  Code.start .client params.clientFn
  let ret1 ← getResult .resultEp
  let ret2 ← getResult .resultEp
  Code.suspend .client
  Code.suspend .server
  return (ret1, ret2)

/-- The kernel before a run: nothing has been sent. -/
def kernel : Kernel (sig w) where
  mem := nofun
  msgs _ := 0
  caller _ := none
  pending := nofun
  owner := nofun

/-- The state in which `run_bench` is called. -/
def init (w : ℕ) (params : BenchmarkParams) : State (sig w) where
  thread
    | .driver => runBench params fun _ => .halt
    | .client | .server => .halt
  kernel := kernel
  log := []

end Sel4bench.Ipc
