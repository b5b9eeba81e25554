import Mathlib.Data.List.Basic

/-!
# The table of IPC benchmarks

`ipc.h`: the benchmarks that the IPC application runs and the driver labels, with the helper
functions of client and server, and the kinds of overhead that are subtracted from them.

## Main definitions

* `Sel4bench.BenchmarkParams`, `Sel4bench.benchmarkParams`.
* `Sel4bench.Overhead`, `Sel4bench.HelperFunc`.
-/

namespace Sel4bench

/-- `enum overheads`. -/
inductive Overhead
  | call
  | replyRecv
  | send
  | recv
  | call10
  | replyRecv10
deriving DecidableEq, Repr

/-- The overheads in the order of the enumeration. -/
def Overhead.all : List Overhead := [.call, .replyRecv, .send, .recv, .call10, .replyRecv10]

/-- `overhead_benchmark_params`. -/
def Overhead.name : Overhead → String
  | .call => "call"
  | .replyRecv => "reply recv"
  | .send => "send"
  | .recv => "recv"
  | .call10 => "call"
  | .replyRecv10 => "reply recv"

/-- `dir_t`: client to server, or server to client. -/
inductive Dir
  | to
  | «from»
deriving DecidableEq, Repr

/-- `helper_func_id_t`. -/
inductive HelperFunc
  | callFunc
  | callFunc2
  | call10Func
  | call10Func2
  | replyRecvFunc2
  | replyRecvFunc
  | replyRecv10Func2
  | replyRecv10Func
  | sendFunc
  | recvFunc
deriving DecidableEq, Repr

/-- `benchmark_params_t`. A priority is an offset below `seL4_MaxPrio`. -/
structure BenchmarkParams where
  name : String
  direction : Dir
  clientFn : HelperFunc
  serverFn : HelperFunc
  sameVspace : Bool
  clientPrio : ℕ
  serverPrio : ℕ
  length : ℕ
  overheadId : Overhead
  passive : Bool
  serverFpu : Bool
deriving DecidableEq, Repr

/-- `benchmark_params`. -/
def benchmarkParams : List BenchmarkParams :=
  [{ name := "seL4_Call", direction := .to, clientFn := .callFunc2, serverFn := .replyRecvFunc2,
     sameVspace := true, clientPrio := 1, serverPrio := 1, length := 0, overheadId := .call,
     passive := true, serverFpu := false },
   { name := "seL4_ReplyRecv", direction := .from, clientFn := .callFunc,
     serverFn := .replyRecvFunc, sameVspace := true, clientPrio := 1, serverPrio := 1,
     length := 0, overheadId := .replyRecv, passive := true, serverFpu := false },
   { name := "seL4_Call", direction := .to, clientFn := .callFunc2, serverFn := .replyRecvFunc2,
     sameVspace := false, clientPrio := 1, serverPrio := 1, length := 0, overheadId := .call,
     passive := true, serverFpu := false },
   { name := "seL4_Call (FPU)", direction := .to, clientFn := .callFunc2,
     serverFn := .replyRecvFunc2, sameVspace := false, clientPrio := 1, serverPrio := 1,
     length := 0, overheadId := .call, passive := true, serverFpu := true },
   { name := "seL4_ReplyRecv", direction := .from, clientFn := .callFunc,
     serverFn := .replyRecvFunc, sameVspace := false, clientPrio := 1, serverPrio := 1,
     length := 0, overheadId := .replyRecv, passive := true, serverFpu := false },
   { name := "seL4_ReplyRecv (FPU)", direction := .from, clientFn := .callFunc,
     serverFn := .replyRecvFunc, sameVspace := false, clientPrio := 1, serverPrio := 1,
     length := 0, overheadId := .replyRecv, passive := true, serverFpu := true },
   { name := "seL4_Send", direction := .to, clientFn := .sendFunc, serverFn := .recvFunc,
     sameVspace := false, clientPrio := 2, serverPrio := 1, length := 0, overheadId := .send,
     passive := false, serverFpu := false },
   { name := "seL4_Call", direction := .to, clientFn := .call10Func2,
     serverFn := .replyRecv10Func2, sameVspace := false, clientPrio := 1, serverPrio := 1,
     length := 10, overheadId := .call10, passive := false, serverFpu := false },
   { name := "seL4_ReplyRecv", direction := .from, clientFn := .call10Func,
     serverFn := .replyRecv10Func, sameVspace := false, clientPrio := 1, serverPrio := 1,
     length := 10, overheadId := .replyRecv10, passive := false, serverFpu := false }]

end Sel4bench
