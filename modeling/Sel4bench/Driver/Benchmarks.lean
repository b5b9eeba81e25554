import Sel4bench.Driver.Json

/-!
# The driver functions of the notification, fault and hardware benchmarks

The `process` functions of `signal.c`, `irq.c`, `scheduler.c`, `fault.c` and `hardware.c`. Each
takes the results block that its application has filled in, processes the arrays in place and
returns the JSON array of its result sets; a null pointer would be `none`. All of these
benchmarks make `110` runs and ignore the first `10`.

## Main definitions

* `Sel4bench.signalProcess`, `Sel4bench.irquserProcess`, `Sel4bench.schedulerProcess`,
  `Sel4bench.faultProcess`, `Sel4bench.hardwareProcess`.
-/

namespace Sel4bench

/-- `N_IGNORED` of the signal, irquser, scheduler, fault and hardware benchmarks. -/
def nIgnored : ℕ := 10

/-- `N_RUNS` of the signal, irquser, scheduler, fault and hardware benchmarks. -/
def nRuns : ℕ := 100 + nIgnored

/-- `sum`, `sum2` and `num` of a measurement with early processing. -/
structure EarlyResults (w : ℕ) where
  sum : Ccnt w
  sum2 : Ccnt w
  num : Ccnt w

variable {w : ℕ}

/-- `process_result_early_proc` on the three fields of a measurement. -/
def processEarly {ρ : Type*} (cfg : Config) (e : EarlyResults w) : Result ρ w :=
  processResultEarlyProc cfg e.num e.sum e.sum2

/-! ### Signal -/

/-- The arrays of `signal_results_t`. -/
inductive SignalArray
  | loPrioResults
  | hiPrioResults
  | hiPrioAverage (run : ℕ)
  | overhead
deriving DecidableEq

/-- The other fields of `signal_results_t`. -/
structure SignalFields (w : ℕ) where
  lo : EarlyResults w
  overheadMin : Ccnt w

/-- `signal_results_t`. -/
abbrev SignalResults (w : ℕ) := Block SignalArray (SignalFields w) w

/-- The output array of `signal_process`. -/
def signalOutput (cfg : Config) :
    Driver SignalArray (SignalFields w) w (Option (Output SignalArray (SignalFields w) w)) := do
  let desc : ResultDesc w := { stable := true, name := "signal overhead", ignored := nIgnored }
  let result ← processArray cfg nRuns .overhead desc
  let array ← appendResultSet [] { name := "Signal overhead", results := [result] }
  let desc := { desc with stable := false, overhead := result.min }
  let result := processEarly cfg (← get).fields.lo
  let array ← appendResultSet array
    { name := "Signal to high prio thread (early processing)", results := [result] }
  let result ← processArray cfg nRuns .loPrioResults desc
  let array ← appendResultSet array
    { name := "Signal to high prio thread", results := [result] }
  let result ← processArray cfg nRuns .hiPrioResults desc
  let array ← appendResultSet array
    { name := "Signal to low prio thread", results := [result] }
  let averageResults ← processAverageResults nRuns cfg.numAverageEvents .hiPrioAverage
  let array ← appendAverageCounters array "Average signal to low prio thread" averageResults
  return some array

/-- `signal_process`. -/
def signalProcess (cfg : Config) : Driver SignalArray (SignalFields w) w (Option Json) :=
  returnJson cfg (signalOutput cfg)

/-! ### Interrupts from user level -/

/-- The arrays of `irquser_results_t`. -/
inductive IrquserArray
  | overheads
  | threadResults
  | processResults
deriving DecidableEq

/-- The other fields of `irquser_results_t`. -/
structure IrquserFields (w : ℕ) where
  overheadMin : Ccnt w
  thread : EarlyResults w
  process : EarlyResults w

/-- `irquser_results_t`. -/
abbrev IrquserResults (w : ℕ) := Block IrquserArray (IrquserFields w) w

/-- The output array of `irquser_process`. -/
def irquserOutput (cfg : Config) :
    Driver IrquserArray (IrquserFields w) w (Option (Output IrquserArray (IrquserFields w) w)) := do
  let desc : ResultDesc w := { ignored := nIgnored, name := "IRQ user measurement overhead" }
  let result0 ← processArray cfg nRuns .overheads desc
  let desc := { desc with overhead := result0.min }
  let result1 ← processArray cfg nRuns .threadResults desc
  let result2 := processEarly cfg (← get).fields.thread
  let result3 ← processArray cfg nRuns .processResults desc
  let result4 := processEarly cfg (← get).fields.process
  let types := ["Measurement overhead", "Without context switch",
    "Without context switch (early processing)", "With context switch",
    "With context switch (early processing)"]
  let array ← appendResultSet []
    { name := "IRQ path cycle count (measured from user level)",
      extraCols := [{ header := "Type", values := .strings types }],
      results := [result0, result1, result2, result3, result4] }
  return some array

/-- `irquser_process`. -/
def irquserProcess (cfg : Config) : Driver IrquserArray (IrquserFields w) w (Option Json) :=
  returnJson cfg (irquserOutput cfg)

/-! ### Scheduler -/

/-- `N_PRIOS`. -/
def nPrios (cfg : Config) : ℕ := (cfg.maxPrio + cfg.wordBits - 1) / cfg.wordBits

/-- `gen_next_prio`, a `uint8_t`. -/
def genNextPrio (cfg : Config) (i : ℕ) : ℕ := (cfg.minPrio + 1 + i * cfg.wordBits) % 256

/-- The arrays of `scheduler_results_t`. -/
inductive SchedulerArray
  | threadResults (prio : ℕ)
  | processResults (prio : ℕ)
  | overheadSignal
  | setPrioAverage (run : ℕ)
  | threadYield
  | processYield
  | overheadCcnt
  | averageYield (run : ℕ)
deriving DecidableEq

/-- The other fields of `scheduler_results_t`. -/
structure SchedulerFields (w : ℕ) where
  overheadCcntMin : Ccnt w
  threadYield : EarlyResults w
  threadResults : ℕ → EarlyResults w
  processYield : EarlyResults w
  processResults : ℕ → EarlyResults w

/-- `scheduler_results_t`. -/
abbrev SchedulerResults (w : ℕ) := Block SchedulerArray (SchedulerFields w) w

/-- `process_yield_results`. -/
def processYieldResults (cfg : Config) (overhead : Ccnt w)
    (array : Output SchedulerArray (SchedulerFields w) w) :
    Driver SchedulerArray (SchedulerFields w) w (Output SchedulerArray (SchedulerFields w) w) := do
  let desc : ResultDesc w := { ignored := nIgnored, overhead := overhead }
  let result ← processArray cfg nRuns .threadYield desc
  let array ← appendResultSet array { name := "Thread yield", results := [result] }
  let result := processEarly cfg (← get).fields.threadYield
  let array ← appendResultSet array
    { name := "Thread yield (early processing)", results := [result] }
  let result ← processArray cfg nRuns .processYield desc
  let array ← appendResultSet array { name := "Process yield", results := [result] }
  let result := processEarly cfg (← get).fields.processYield
  let array ← appendResultSet array
    { name := "Process yield (early processing)", results := [result] }
  let averageResults ← processAverageResults nRuns cfg.numAverageEvents .averageYield
  appendAverageCounters array "Average seL4_Yield (no thread switch)" averageResults

/-- `process_scheduler_results`. -/
def processSchedulerResults (cfg : Config) (array : Output SchedulerArray (SchedulerFields w) w) :
    Driver SchedulerArray (SchedulerFields w) w (Output SchedulerArray (SchedulerFields w) w) := do
  let desc : ResultDesc w := { stable := true, name := "Signal overhead", ignored := nIgnored }
  let result ← processArray cfg nRuns .overheadSignal desc
  let array ← appendResultSet array { name := "Signal overhead", results := [result] }
  let desc := { desc with stable := false, overhead := result.min }
  let perPrioResult ← processResults cfg (nPrios cfg) nRuns .threadResults desc
  let columnValues := (List.range (nPrios cfg)).map fun i => (genNextPrio cfg i : ℤ)
  let extraCols := [{ header := "Prio", values := .integers columnValues }]
  let array ← appendResultSet array
    { name := "Signal to thread of higher prio", extraCols, results := perPrioResult }
  let early := (← get).fields.threadResults
  let perPrioResultEp := processResultsEarlyProc cfg (nPrios cfg)
    (fun i => (early i).num) (fun i => (early i).sum) fun i => (early i).sum2
  let array ← appendResultSet array
    { name := "Signal to thread of higher prio (early processing)", extraCols,
      results := perPrioResultEp }
  let _ ← processResults cfg (nPrios cfg) nRuns .processResults desc
  let array ← appendResultSet array
    -- `set.results` still points to the early results of the threads.
    { name := "Signal to process of higher prio", extraCols, results := perPrioResultEp }
  let early := (← get).fields.processResults
  let perPrioResultEp := processResultsEarlyProc cfg (nPrios cfg)
    (fun i => (early i).num) (fun i => (early i).sum) fun i => (early i).sum2
  let array ← appendResultSet array
    { name := "Signal to process of higher prio (early processing)", extraCols,
      results := perPrioResultEp }
  let averageResults ← processAverageResults nRuns cfg.numAverageEvents .setPrioAverage
  appendAverageCounters array "Average to reschedule current thread" averageResults

/-- The output array of `scheduler_process`. -/
def schedulerOutput (cfg : Config) :
    Driver SchedulerArray (SchedulerFields w) w
      (Option (Output SchedulerArray (SchedulerFields w) w)) := do
  let array ← processSchedulerResults cfg []
  let desc : ResultDesc w := { name := "Read ccnt overhead", stable := true, ignored := nIgnored }
  let ccntOverhead ← processArray cfg nRuns .overheadCcnt desc
  let array ← appendResultSet array
    { name := "Read ccnt overhead", results := [ccntOverhead] }
  let array ← processYieldResults cfg ccntOverhead.min array
  return some array

/-- `scheduler_process`. -/
def schedulerProcess (cfg : Config) : Driver SchedulerArray (SchedulerFields w) w (Option Json) :=
  returnJson cfg (schedulerOutput cfg)

/-! ### Fault -/

/-- The arrays of `fault_results_t`. -/
inductive FaultArray
  | replyRecvOverhead
  | ccntOverhead
  | roundTrip
  | fault
  | faultReply
deriving DecidableEq

/-- The other fields of `fault_results_t`. -/
structure FaultFields (w : ℕ) where
  roundTrip : EarlyResults w
  roundTripMinOverhead : Ccnt w
  fault : EarlyResults w
  faultMinOverhead : Ccnt w
  faultReply : EarlyResults w
  faultReplyMinOverhead : Ccnt w

/-- `fault_results_t`. -/
abbrev FaultResults (w : ℕ) := Block FaultArray (FaultFields w) w

/-- The output array of `fault_process`. -/
def faultOutput (cfg : Config) :
    Driver FaultArray (FaultFields w) w (Option (Output FaultArray (FaultFields w) w)) := do
  let desc : ResultDesc w := { stable := true, name := "fault overhead", ignored := nIgnored }
  let result ← processArray cfg nRuns .replyRecvOverhead desc
  let array ← appendResultSet [] { name := "fault overhead", results := [result] }
  let desc := { desc with stable := false, overhead := result.min }
  let result ← processArray cfg nRuns .roundTrip desc
  let array ← appendResultSet array { name := "fault round trip", results := [result] }
  let result := processEarly cfg (← get).fields.roundTrip
  let array ← appendResultSet array
    { name := "fault round trip (early processing)", results := [result] }
  let result ← processArray cfg nRuns .fault desc
  let array ← appendResultSet array { name := "faulter -> fault handler", results := [result] }
  let result := processEarly cfg (← get).fields.fault
  let array ← appendResultSet array
    { name := "faulter -> fault handler (early processing)", results := [result] }
  let desc := { desc with stable := true, overhead := 0 }
  let result ← processArray cfg nRuns .ccntOverhead desc
  let array ← appendResultSet array { name := "read ccnt overhead", results := [result] }
  let desc := { desc with stable := false, overhead := result.min }
  let result ← processArray cfg nRuns .faultReply desc
  let array ← appendResultSet array { name := "fault handler -> faulter", results := [result] }
  let result := processEarly cfg (← get).fields.faultReply
  let array ← appendResultSet array
    { name := "fault handler -> faulter (early processing)", results := [result] }
  return some array

/-- `fault_process`. -/
def faultProcess (cfg : Config) : Driver FaultArray (FaultFields w) w (Option Json) :=
  returnJson cfg (faultOutput cfg)

/-! ### Hardware -/

/-- The arrays of `hardware_results_t`. -/
inductive HardwareArray
  | nullSyscallResults
  | nullSyscallOverhead
deriving DecidableEq

/-- The other fields of `hardware_results_t`. -/
structure HardwareFields (w : ℕ) where
  overheadMin : Ccnt w
  nullSyscall : EarlyResults w

/-- `hardware_results_t`. -/
abbrev HardwareResults (w : ℕ) := Block HardwareArray (HardwareFields w) w

/-- The output array of `hardware_process`. -/
def hardwareOutput (cfg : Config) :
    Driver HardwareArray (HardwareFields w) w
      (Option (Output HardwareArray (HardwareFields w) w)) := do
  let desc : ResultDesc w :=
    { stable := false, name := "Nop syscall overhead", ignored := nIgnored }
  let nopnulsyscallResult ← processArray cfg nRuns .nullSyscallOverhead desc
  let desc := { desc with overhead := nopnulsyscallResult.min }
  let result ← processArray cfg nRuns .nullSyscallResults desc
  let array ← appendResultSet []
    { name := "Hardware null_syscall thread", results := [result] }
  let result := processEarly cfg (← get).fields.nullSyscall
  let array ← appendResultSet array
    { name := "Hardware null_syscall thread (early processing)", results := [result] }
  let array ← appendResultSet array
    { name := "Nop syscall overhead", results := [nopnulsyscallResult] }
  return some array

/-- `hardware_process`. -/
def hardwareProcess (cfg : Config) : Driver HardwareArray (HardwareFields w) w (Option Json) :=
  returnJson cfg (hardwareOutput cfg)

end Sel4bench
