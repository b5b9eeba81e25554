import Mathlib.Data.Fintype.Defs
import Sel4bench.Lib.Machine
import Sel4bench.Support.ResultMessage

/-!
# The threads of the page mapping benchmark

The main program starts the child process for every run and every test, receives the results of
its phases and stores them. A result is a cycle count that is sent in as many message registers as
it has words, with `Sel4bench.Support.sendResult`. What the child process does with its capabilities
is in `Sel4bench.PageMapping.Child`; here its phases are the cycle counts around them.

## Main definitions

* `Sel4bench.PageMapping.Platform`, `Sel4bench.PageMapping.Params`.
* `Sel4bench.PageMapping.sendResult`, `Sel4bench.PageMapping.getResult`.
* `Sel4bench.PageMapping.benchProcThread`, `Sel4bench.PageMapping.mainThread`,
  `Sel4bench.PageMapping.init`.
-/

namespace Sel4bench.PageMapping

open Machine

/-- The widths of `seL4_Word` and `ccnt_t`, which has a whole number of words. -/
structure Platform where
  /-- `seL4_WordBits`. -/
  wordBits : ℕ
  /-- `sizeof(ccnt_t) / sizeof(seL4_Word)`. -/
  words : ℕ
  wordBits_pos : 0 < wordBits
  words_pos : 0 < words

/-- The width of `ccnt_t`. -/
abbrev Platform.ccntBits (P : Platform) : ℕ := P.words * P.wordBits

/-- The constants of the benchmark. -/
structure Params where
  /-- `RUNS`. -/
  runs : ℕ
  /-- `TESTS`. -/
  tests : ℕ
  /-- `NPHASE`, the number of results that `bench_proc` sends. -/
  nphase : ℕ

variable (P : Platform) (pm : Params)

/-- A cycle count. -/
abbrev Time := Ccnt P.ccntBits

/-- The threads. -/
inductive Party
  | child
  | parent
deriving DecidableEq

instance : Fintype Party where
  elems := {.child, .parent}
  complete p := by cases p <;> simp

/-- The endpoint for results. -/
inductive Endpoint
  | resultEp
deriving DecidableEq

/-- The elements of `page_mapping_results_t`. -/
inductive Var
  | overheadBenchmarks (run : ℕ)
  | benchmarksResult (test phase run : ℕ)
deriving DecidableEq

/-- The entry of the child process. -/
inductive Label
  | benchProc

/-- The types of the benchmark. -/
abbrev sig : Sig where
  Party := Party
  Endpoint := Endpoint
  Ntfn := Empty
  Lock := Empty
  Cond := Empty
  Var := Var
  Val _ := Time P
  Time := Time P
  Msg := Support.Message P.wordBits
  Label := Label

/-! ### Results in messages -/

/-- `send_result`. The registers beyond the length of a message do not matter and are zero here. -/
def sendResult (result : Time P) : Code (sig P) Unit :=
  Code.send .resultEp (Support.sendResult (fun _ => 0) result)

/-- `get_result`. -/
def getResult : Code (sig P) (Time P) := do
  let message ← Code.recv .resultEp
  return Support.getResult P.ccntBits message

/-! ### Child -/

/-- A phase of `bench_proc`. -/
def phase : Code (sig P) Unit := do
  let start ← Code.clock
  let stop ← Code.clock
  sendResult P (stop - start)

/-- `bench_proc`. -/
def benchProcThread : Code (sig P) Unit := do
  Code.loop pm.nphase () fun _ _ => phase P
  -- `api_wait`, to avoid running off the call stack.
  let _ ← Code.recv .resultEp

/-- The code of the child process. -/
def code : Label → Prog (sig P)
  | .benchProc => (benchProcThread P pm).run

/-! ### Parent -/

/-- `measure_overhead`. -/
def measureOverhead : Code (sig P) Unit :=
  Code.loop pm.runs () fun i _ => do
    let start ← Code.clock
    let stop ← Code.clock
    Code.store (.overheadBenchmarks i) (stop - start)

/-- `run_bench_child_proc`: the array `result`. -/
def runBenchChildProc : Code (sig P) (ℕ → Time P) := do
  Code.start .child .benchProc
  Code.loop pm.nphase (fun _ => 0) fun i result => do
    let t ← getResult P
    return Function.update result i t

/-- The body of the loops of `main`. -/
def runTest (i j : ℕ) : Code (sig P) Unit := do
  let retTime ← runBenchChildProc P pm
  Code.loop pm.nphase () fun k _ => Code.store (.benchmarksResult j k i) (retTime k)
  Code.suspend .child

/-- `main`, from `measure_overhead` on. -/
def mainThread : Code (sig P) Unit := do
  measureOverhead P pm
  Code.loop pm.runs () fun i _ => Code.loop pm.tests () fun j _ => runTest P pm i j

/-- The kernel in the beginning. The results block has any contents. -/
def kernel (mem : Var → Time P) : Kernel (sig P) where
  mem := mem
  msgs _ := 0
  caller _ := none
  pending := Empty.elim
  owner := Empty.elim

/-- The state in the beginning. -/
def init (mem : Var → Time P) : State (sig P) where
  thread
    | .parent => (mainThread P pm).run
    | .child => .halt
  kernel := kernel P mem
  log := []

end Sel4bench.PageMapping
