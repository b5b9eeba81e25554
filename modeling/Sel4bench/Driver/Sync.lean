import Sel4bench.Driver.Benchmarks

/-!
# The driver function of the synchronisation benchmark

`sync_process` of `sync.c`, with the constants and the names of `sync.h`. No overhead is
subtracted. The table of the wait times has one row for each waiter; the other benchmarks have one
row each.

## Main definitions

* `Sel4bench.syncProcess`.
-/

namespace Sel4bench

variable {w : ℕ}

/-- `N_IGNORED` of the synchronisation benchmark. -/
def syncIgnored : ℕ := 5

/-- `N_RUNS` of the synchronisation benchmark. -/
def syncRuns : ℕ := 50 + syncIgnored

/-- `N_WAITERS`. -/
def nWaiters : ℕ := 25

/-- `broadcast_wait_names`, of length `N_BROADCAST_BENCHMARKS`. -/
def broadcastWaitNames : List String := ["Wait time"]

/-- `broadcast_broadcast_names`. -/
def broadcastBroadcastNames : List String := ["Broadcast time"]

/-- `producer_to_consumer_names`, of length `N_PROD_CONS_BENCHMARKS`. -/
def producerToConsumerNames : List String := ["Producer to consumer"]

/-- `consumer_to_producer_names`. -/
def consumerToProducerNames : List String := ["Consumer to producer"]

/-- The arrays of `sync_results_t`. -/
inductive SyncArray
  | broadcastWaitTime (benchmark waiter : ℕ)
  | broadcastBroadcastTime (benchmark : ℕ)
  | producerToConsumer (benchmark : ℕ)
  | consumerToProducer (benchmark : ℕ)
deriving DecidableEq

/-- The other fields of `sync_results_t`. -/
structure SyncFields (w : ℕ) where
  producerToConsumer : EarlyResults w
  consumerToProducer : EarlyResults w

/-- `sync_results_t`. -/
abbrev SyncResults (w : ℕ) := Block SyncArray (SyncFields w) w

/-- The description of all results of the benchmark. -/
def syncDesc : ResultDesc w :=
  { stable := false, name := "sync benchmarks", ignored := syncIgnored }

/-- The loop over the tables of wait times. -/
def processWaitTimes (cfg : Config) (array : Output SyncArray (SyncFields w) w) :
    Driver SyncArray (SyncFields w) w (Output SyncArray (SyncFields w) w) :=
  let columnValues := (List.range nWaiters).map fun i => (i : ℤ)
  let extraCols := [{ header := "Waiter", values := .integers columnValues }]
  broadcastWaitNames.zipIdx.foldlM (fun array p => do
    let waitResults ← processResults cfg nWaiters syncRuns (.broadcastWaitTime p.2) syncDesc
    appendResultSet array { name := p.1, extraCols, results := waitResults }) array

/-- The loop over the arrays `a 0, …` of the benchmarks with the given names. -/
def processNamed (cfg : Config) (names : List String) (a : ℕ → SyncArray)
    (array : Output SyncArray (SyncFields w) w) :
    Driver SyncArray (SyncFields w) w (Output SyncArray (SyncFields w) w) :=
  names.zipIdx.foldlM (fun array p => do
    let result ← processArray cfg syncRuns (a p.2) syncDesc
    appendResultSet array { name := p.1, results := [result] }) array

/-- The output array of `sync_process`. -/
def syncOutput (cfg : Config) :
    Driver SyncArray (SyncFields w) w (Option (Output SyncArray (SyncFields w) w)) := do
  let array ← processWaitTimes cfg []
  let array ← processNamed cfg broadcastBroadcastNames .broadcastBroadcastTime array
  let array ← processNamed cfg producerToConsumerNames .producerToConsumer array
  let array ← processNamed cfg consumerToProducerNames .consumerToProducer array
  let result := processEarly cfg (← get).fields.producerToConsumer
  let array ← appendResultSet array
    { name := "Producer to consumer (early processing)", results := [result] }
  let result := processEarly cfg (← get).fields.consumerToProducer
  let array ← appendResultSet array
    { name := "Consumer to producer (early processing)", results := [result] }
  return some array

/-- `sync_process`. -/
def syncProcess (cfg : Config) : Driver SyncArray (SyncFields w) w (Option Json) :=
  returnJson cfg (syncOutput cfg)

end Sel4bench
