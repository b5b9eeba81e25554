import Sel4bench.Driver.Processing

/-!
# Waiting for a benchmark

`run_benchmark` waits on the fault endpoint of the benchmark process. Three kinds of messages
arrive there: requests to the RPC server of the driver, the exit status that
`benchmark_finished` sends, and the faults of the process. A request carries the number
`SEL4BENCH_PROTOBUF_RPC` in its first message register, and an exit status is the content of that
register, so that an exit status with this number is taken for a request and the driver waits for
another message, which never comes.

## Main definitions

* `Sel4bench.benchmarkFinished` — the message with the exit status.
* `Sel4bench.waitForBenchmark` — the loop of `run_benchmark`.
* `Sel4bench.Reported` — the status of the process reaches the driver.

## Main results

* `Sel4bench.waitForBenchmark_requests` — the requests reach the server.
* `Sel4bench.reported_iff` — when the status reaches the driver.
-/

namespace Sel4bench

/-- `SEL4BENCH_PROTOBUF_RPC`. -/
def sel4benchProtobufRpc : ℤ := 9000

/-- `EXIT_FAILURE`. -/
def exitFailure : ℤ := 1

/-- `seL4_Fault_NullFault`. -/
def nullFault (b : ℕ) : BitVec b := 0

/-- A message on the fault endpoint: its label, the message register `0` and the others. -/
@[ext] structure Message (b : ℕ) where
  label : BitVec b
  mr0 : BitVec b
  mrs : List (BitVec b)
deriving DecidableEq

/-- A request to the RPC server, as `sel4rpc_call` sends it. -/
def rpcRequest (b : ℕ) (mrs : List (BitVec b)) : Message b where
  label := nullFault b
  mr0 := BitVec.ofInt b sel4benchProtobufRpc
  mrs := mrs

/-- The message that `benchmark_finished` sends. -/
def benchmarkFinished (b : ℕ) (exitCode : BitVec 32) : Message b where
  label := nullFault b
  mr0 := exitCode.signExtend b
  mrs := []

/-- How the process ends: with a fault, or with an exit status. -/
inductive Ending (b : ℕ)
  | fault (label : BitVec b) (h : label ≠ nullFault b) (mr0 : BitVec b) (mrs : List (BitVec b))
  | finished (exitCode : BitVec 32)

/-- The last message of the process. -/
def Ending.message {b : ℕ} : Ending b → Message b
  | .fault label _ mr0 mrs => ⟨label, mr0, mrs⟩
  | .finished exitCode => benchmarkFinished b exitCode

/-- The status of the process. -/
def Ending.status {b : ℕ} : Ending b → ℤ
  | .fault .. => exitFailure
  | .finished exitCode => exitCode.toInt

/-- What the loop of `run_benchmark` does: the messages that it hands to the RPC server, the
messages that it does not receive, and the result, if it ends. -/
structure Waited (b : ℕ) where
  served : List (Message b)
  unread : List (Message b)
  result : Option ℤ

/-- The loop of `run_benchmark`, on the messages that arrive. Without a further message it waits
forever. -/
def waitForBenchmark {b : ℕ} (result : ℤ) (messages : List (Message b)) : Waited b :=
  if result = sel4benchProtobufRpc then
    match messages with
    | [] => ⟨[], [], none⟩
    | info :: messages =>
      let result := (info.mr0.setWidth 32).toInt
      if info.label ≠ nullFault b then
        waitForBenchmark exitFailure messages
      else if result = sel4benchProtobufRpc then
        let waited := waitForBenchmark result messages
        { waited with served := info :: waited.served }
      else
        waitForBenchmark result messages
  else ⟨[], messages, some result⟩
termination_by structural messages

/-- The process makes the requests and ends. The requests are handed to the RPC server in this
order and nothing else is, the last message ends the loop, and the result is the status. -/
def Reported {b : ℕ} (requests : List (List (BitVec b))) (ending : Ending b) : Prop :=
  waitForBenchmark sel4benchProtobufRpc (requests.map (rpcRequest b) ++ [ending.message]) =
    ⟨requests.map (rpcRequest b), [], some ending.status⟩

section Wait

variable {b : ℕ}

/-- The number of a request arrives as it was sent. -/
theorem toInt_rpcRequest (hb : 32 ≤ b) (mrs : List (BitVec b)) :
    ((rpcRequest b mrs).mr0.setWidth 32).toInt = sel4benchProtobufRpc := by
  have hnat : BitVec.ofInt b sel4benchProtobufRpc = BitVec.ofNat b 9000 :=
    BitVec.ofInt_natCast b 9000
  rw [rpcRequest, hnat, BitVec.setWidth_ofNat_of_le hb]
  decide

/-- An exit status arrives as it was sent. -/
theorem setWidth_benchmarkFinished (hb : 32 ≤ b) (exitCode : BitVec 32) :
    (benchmarkFinished b exitCode).mr0.setWidth 32 = exitCode := by
  ext i hi
  simp [benchmarkFinished, hi, BitVec.getElem_signExtend, show i < b by omega]

theorem waitForBenchmark_returns {result : ℤ} (h : result ≠ sel4benchProtobufRpc)
    (messages : List (Message b)) :
    waitForBenchmark result messages = ⟨[], messages, some result⟩ := by
  cases messages <;> rw [waitForBenchmark, if_neg h]

theorem waitForBenchmark_nil :
    waitForBenchmark sel4benchProtobufRpc ([] : List (Message b)) = ⟨[], [], none⟩ := by
  rw [waitForBenchmark, if_pos rfl]

theorem waitForBenchmark_cons (info : Message b) (messages : List (Message b)) :
    waitForBenchmark sel4benchProtobufRpc (info :: messages) =
      if info.label ≠ nullFault b then ⟨[], messages, some exitFailure⟩
      else if (info.mr0.setWidth 32).toInt = sel4benchProtobufRpc then
        { waitForBenchmark sel4benchProtobufRpc messages with
          served := info :: (waitForBenchmark sel4benchProtobufRpc messages).served }
      else ⟨[], messages, some (info.mr0.setWidth 32).toInt⟩ := by
  rw [waitForBenchmark, if_pos rfl]
  dsimp only
  rw [waitForBenchmark_returns (by decide)]
  split_ifs with hfault hrpc
  · rfl
  · rw [hrpc]
  · rw [waitForBenchmark_returns hrpc]

/-- The requests of the process reach the server, each once and in order. -/
theorem waitForBenchmark_requests (hb : 32 ≤ b) (requests : List (List (BitVec b)))
    (rest : List (Message b)) :
    waitForBenchmark sel4benchProtobufRpc (requests.map (rpcRequest b) ++ rest) =
      { waitForBenchmark sel4benchProtobufRpc rest with
        served := requests.map (rpcRequest b) ++
          (waitForBenchmark sel4benchProtobufRpc rest).served } := by
  induction requests with
  | nil => rfl
  | cons mrs requests ih =>
    have hlabel : ¬(rpcRequest b mrs).label ≠ nullFault b := not_not.mpr rfl
    rw [List.map_cons, List.cons_append, waitForBenchmark_cons, if_neg hlabel,
      if_pos (toInt_rpcRequest hb mrs), ih]
    rfl

/-- The last message of a process that has faulted. -/
theorem waitForBenchmark_fault {label : BitVec b} (h : label ≠ nullFault b) (mr0 : BitVec b)
    (mrs : List (BitVec b)) :
    waitForBenchmark sel4benchProtobufRpc [(Ending.fault label h mr0 mrs).message] =
      ⟨[], [], some exitFailure⟩ :=
  (waitForBenchmark_cons _ _).trans (if_pos h)

/-- The last message of a process that has finished. -/
theorem waitForBenchmark_finished (hb : 32 ≤ b) (exitCode : BitVec 32) :
    waitForBenchmark sel4benchProtobufRpc [benchmarkFinished b exitCode] =
      if exitCode.toInt = sel4benchProtobufRpc then ⟨[benchmarkFinished b exitCode], [], none⟩
      else ⟨[], [], some exitCode.toInt⟩ := by
  have hlabel : ¬(benchmarkFinished b exitCode).label ≠ nullFault b := not_not.mpr rfl
  rw [waitForBenchmark_cons, if_neg hlabel, setWidth_benchmarkFinished hb, waitForBenchmark_nil]

end Wait

theorem Config.wordBits_ge (cfg : Config) : 32 ≤ cfg.wordBits := by
  rcases cfg.wordBits_eq with h | h <;> omega

/-- **The exit status of a benchmark.** For every sequence of requests the status of the process
reaches the driver if and only if the process faults or its exit code is not the number of a
request. -/
theorem reported_iff (cfg : Config) (requests : List (List (BitVec cfg.wordBits)))
    (ending : Ending cfg.wordBits) : Reported requests ending ↔
      ∀ exitCode, ending = .finished exitCode → exitCode.toInt ≠ sel4benchProtobufRpc := by
  have hb := cfg.wordBits_ge
  rw [Reported, waitForBenchmark_requests hb]
  cases ending with
  | fault label h mr0 mrs =>
    rw [waitForBenchmark_fault, List.append_nil]
    exact iff_of_true rfl nofun
  | finished exitCode =>
    rw [Ending.message, waitForBenchmark_finished hb]
    by_cases h : exitCode.toInt = sel4benchProtobufRpc
    · rw [if_pos h]
      exact iff_of_false (by simp) fun hne => hne exitCode rfl h
    · rw [if_neg h, List.append_nil]
      refine iff_of_true rfl fun e he => ?_
      cases he
      exact h

/-- A process without requests that finishes with the exit code `9000`: the driver never
returns. -/
theorem exitCode_not_reported : ¬Reported [] (.finished 9000 : Ending 64) ∧
    (waitForBenchmark sel4benchProtobufRpc [(Ending.finished 9000 : Ending 64).message]).result =
      none := by
  have h : waitForBenchmark sel4benchProtobufRpc [(Ending.finished 9000 : Ending 64).message] =
      ⟨[benchmarkFinished 64 9000], [], none⟩ :=
    (waitForBenchmark_finished (by decide) 9000).trans (if_pos (by decide))
  refine ⟨fun hrep => ?_, by rw [h]⟩
  rw [Reported, List.map_nil, List.nil_append, h] at hrep
  exact absurd (congrArg Waited.result hrep) nofun

end Sel4bench
