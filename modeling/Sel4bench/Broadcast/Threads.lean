import Sel4bench.Lib.Machine
import Sel4bench.Sync.Threads

/-!
# The threads of the broadcast benchmark

The functions that `SYNC_WAITER_FUNC` and `SYNC_BROADCAST_FUNC` define in the sync application, and
`benchmark_broadcast`, which restarts all threads for every run. The number of waiters is any
number. The lock and the condition variable are those of `Machine`: waiting releases the lock in
the same step, and a woken thread has to acquire the lock again. Broadcasting wakes the threads that
wait at that moment one after the other, until there is none; the broadcaster holds the lock, so
that no thread begins to wait in between.

The loop around waiting and the loop of broadcasting are entry points of the functions. The
argument of a function that changes from run to run, the address of its result, is part of the
entry point.

## Main definitions

* `Sel4bench.Broadcast.waiterFunc0`, `Sel4bench.Broadcast.broadcastFunc0`.
* `Sel4bench.Broadcast.benchmarkBroadcast`, `Sel4bench.Broadcast.init`.
-/

namespace Sel4bench.Broadcast

open Machine
open Sync (Endpoint Lock)
open Support (Msg benchmarkWaitChildren)

/-- The threads of the application. -/
inductive Party (W : ℕ)
  | waiter (i : Fin W)
  | broadcaster
  | driver
deriving DecidableEq

inductive Cond
  | cv
deriving DecidableEq

/-- The variables of type `ccnt_t`: `start` of the benchmark function, and the results.
`N_BROADCAST_BENCHMARKS` is one. -/
inductive CcntVar (W : ℕ)
  | start
  | broadcastWaitTime (i : Fin W) (run : ℕ)
  | broadcastBroadcastTime (run : ℕ)
deriving DecidableEq

/-- The shared variables: the `int` variable `shared`, and the counter values. -/
inductive Var (W : ℕ)
  | shared
  | ccnt (x : CcntVar W)
deriving DecidableEq

/-- The values of a variable. -/
abbrev Val (W w : ℕ) : Var W → Type
  | .shared => ℤ
  | .ccnt _ => Ccnt w

/-- The functions of the threads, with the address of the result. -/
inductive Func (W : ℕ)
  | waiterFunc0 (result : CcntVar W)
  | broadcastFunc0 (result : CcntVar W)

/-- The entry of a function and the head of its loop. -/
inductive Point
  | entry
  | loop

/-- A place in the code of the threads. -/
structure Label (W : ℕ) where
  func : Func W
  point : Point

/-- The types of the broadcast benchmark. -/
abbrev sig (W w : ℕ) : Sig where
  Party := Party W
  Endpoint := Endpoint
  Ntfn := Empty
  Lock := Lock
  Cond := Cond
  Var := Var W
  Val := Val W w
  Time := Ccnt w
  Msg := Msg
  Label := Label W

variable {W w : ℕ}

/-! ### Threads -/

/-- Reading `*shared`. -/
def loadShared : Code (sig W w) ℤ := Code.load (σ := sig W w) .shared

/-- Writing `*shared`. -/
def storeShared (n : ℤ) : Code (sig W w) Unit := Code.store (σ := sig W w) .shared n

/-- Reading a counter value. -/
def loadCcnt (x : CcntVar W) : Code (sig W w) (Ccnt w) := Code.load (σ := sig W w) (.ccnt x)

/-- Writing a counter value. -/
def storeCcnt (x : CcntVar W) (t : Ccnt w) : Code (sig W w) Unit :=
  Code.store (σ := sig W w) (.ccnt x) t

/-- The end of both functions: releasing the lock, `seL4_Send` on `done_ep` and blocking on
`block_ep`. -/
def finish : Code (sig W w) Unit := do
  Code.release .lock
  Code.send .doneEp .empty
  let _ ← Code.recv .blockEp

/-- `waiter_func0`. -/
def waiterFunc0 (result : CcntVar W) : Point → Code (sig W w) Unit
  | .entry => do
    Code.acquire .lock
    Code.goto ⟨.waiterFunc0 result, .loop⟩
  | .loop => do
    let shared ← loadShared
    if shared == 0 then
      Code.waitCond .lock .cv
      Code.goto ⟨.waiterFunc0 result, .loop⟩
    else
      let stop ← Code.clock
      let start ← loadCcnt .start
      storeCcnt result (stop - start)
      finish

/-- `broadcast_func0`. The loop is that of `sync_cv_broadcast`. -/
def broadcastFunc0 (result : CcntVar W) : Point → Code (sig W w) Unit
  | .entry => do
    Code.acquire .lock
    storeShared W
    let t ← Code.clock
    storeCcnt .start t
    Code.goto ⟨.broadcastFunc0 result, .loop⟩
  | .loop => do
    match ← Code.op (σ := sig W w) (.wake .cv) with
    | some _ => Code.goto ⟨.broadcastFunc0 result, .loop⟩
    | none =>
      let stop ← Code.clock
      let start ← loadCcnt .start
      storeCcnt result (stop - start)
      finish

/-- The code of the threads. -/
def code (ℓ : Label W) : Prog (sig W w) :=
  match ℓ.func with
  | .waiterFunc0 result => (waiterFunc0 result ℓ.point).run
  | .broadcastFunc0 result => (broadcastFunc0 result ℓ.point).run

/-! ### Driver -/

/-- The threads that are started in a run, in this order, and where they begin. -/
def entry (run : ℕ) : Party W → Label W
  | .waiter i => ⟨.waiterFunc0 (.broadcastWaitTime i run), .entry⟩
  | _ => ⟨.broadcastFunc0 (.broadcastBroadcastTime run), .entry⟩

/-- The loop over the waiters in a run. -/
def startWaiters (run : ℕ) : Code (sig W w) Unit :=
  Code.loop W () fun i _ =>
    if h : i < W then Code.start (.waiter ⟨i, h⟩) (entry run (.waiter ⟨i, h⟩)) else return ()

/-- One run. -/
def runBroadcast (run : ℕ) : Code (sig W w) Unit := do
  storeShared 0
  startWaiters run
  Code.start .broadcaster (entry run .broadcaster)
  benchmarkWaitChildren Msg.isFault .doneEp (W + 1)

/-- `benchmark_broadcast`. -/
def benchmarkBroadcast (runs : ℕ) : Code (sig W w) Unit := do
  Code.loop runs () fun run _ => runBroadcast run
  Code.suspend .broadcaster
  Code.loop W () fun i _ =>
    if h : i < W then Code.suspend (.waiter ⟨i, h⟩) else return ()

/-- The state in which the benchmark is called: the lock is new. -/
def init (runs : ℕ) (mem : ∀ x, Val W w x) : State (sig W w) where
  thread
    | .driver => (benchmarkBroadcast runs).run
    | _ => .halt
  kernel :=
    { mem := mem
      msgs := fun _ => 0
      caller := fun _ => none
      pending := nofun
      owner := fun _ => none }
  log := []

end Sel4bench.Broadcast
