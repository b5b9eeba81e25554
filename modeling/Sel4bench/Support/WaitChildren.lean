import Sel4bench.Lib.Termination

/-!
# Waiting for the threads of a benchmark

The threads of a benchmark send a message without content when they are done, and
`benchmark_wait_children` receives these messages. A fault of a thread arrives on the same endpoint
and makes the application abort.

## Main definitions

* `Sel4bench.Support.Msg`, `Sel4bench.Support.benchmarkWaitChildren`.

## Main results

* `Sel4bench.Support.bounded_benchmarkWaitChildren` — the number of its steps.
-/

namespace Sel4bench.Support

open Machine

/-- A message without content, or a fault message. -/
inductive Msg
  | empty
  | fault

/-- The label of the message is not that of a null fault. -/
def Msg.isFault : Msg → Bool
  | .empty => false
  | .fault => true

variable {σ : Sig} {B : Budget σ}

/-- `benchmark_wait_children`, where `isFault` are the messages with the label of a fault. -/
def benchmarkWaitChildren (isFault : σ.Msg → Bool) (ep : σ.Endpoint) (numChildren : ℕ) :
    Code σ Unit :=
  Code.loop numChildren () fun _ _ => do
    let tag ← Code.recv ep
    if isFault tag then Code.exit

theorem bounded_benchmarkWaitChildren (isFault : σ.Msg → Bool) (ep : σ.Endpoint) (n : ℕ) :
    Bounded B (n * 1) (benchmarkWaitChildren isFault ep n) := by
  refine Bounded.loop fun _ _ => Bounded.bind (n := 0) (.recv ep) fun tag => ?_
  split
  · exact .exit
  · exact .pure ()

end Sel4bench.Support
