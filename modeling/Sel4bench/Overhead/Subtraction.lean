import Sel4bench.Driver.Plan
import Sel4bench.Driver.PageMapping
import Sel4bench.Driver.Smp
import Sel4bench.Driver.Sync
import Sel4bench.Overhead.Agreement
import Sel4bench.Overhead.Warmup

/-!
# Every overhead is subtracted once

For each driver function, a plan: the overhead that is subtracted from each array of its block.
The driver functions follow their plans. In particular no array is processed twice, and the raw
results of a row that has been written do not change afterwards
(`Sel4bench.processed_once`).

## Main definitions

* `Sel4bench.signalPlan`, `Sel4bench.irquserPlan`, `Sel4bench.schedulerPlan`, `Sel4bench.faultPlan`,
  `Sel4bench.hardwarePlan`, `Sel4bench.syncPlan`, `Sel4bench.ipcPlan`, `Sel4bench.mappingPlan`,
  `Sel4bench.smpPlan`.
* `Sel4bench.ProcessedOnce`.

## Main results

* `Sel4bench.signalOutput_follows` and its siblings.
* `Sel4bench.processed_once`.
-/

namespace Sel4bench

variable {w : ℕ} {A S : Type}

/-- The plan of a benchmark with `110` runs, the first `10` ignored. -/
def runsPlan (cfg : Config) (change : A → Change w) (tables : List (ℕ → A))
    (h : ∀ row ∈ tables, ∀ i < nRuns, change (row i) = .average) : Plan A w where
  runs := nRuns
  ignored := nIgnored
  cols := cfg.numAverageEvents
  change := change
  tables := tables
  ignored_lt := by decide
  runs_lt := by decide
  change_table := h

/-- A change of the arrays that satisfy a condition. -/
def Change.onlyIf (p : Prop) [Decidable p] (change : Change w) : Change w :=
  if p then change else .keep

theorem Change.onlyIf_of {p : Prop} [Decidable p] (h : p) (change : Change w) :
    change.onlyIf p = change := if_pos h

theorem Change.onlyIf_of_not {p : Prop} [Decidable p] (h : ¬p) (change : Change w) :
    change.onlyIf p = .keep := if_neg h

/-! ### Signal -/

/-- What `signal_process` does to an array. -/
def signalChange (cfg : Config) (blk : SignalResults w) : SignalArray → Change w
  | .overhead => .subtract 0
  | .loPrioResults | .hiPrioResults => .subtract (lateOverhead cfg .signal (blk.array .overhead))
  | .hiPrioAverage run => Change.average.onlyIf (run < nRuns)

/-- The plan of `signal_process`. -/
def signalPlan (cfg : Config) (blk : SignalResults w) : Plan SignalArray w :=
  runsPlan cfg (signalChange cfg blk) [.hiPrioAverage] fun _ h i hi => by
    obtain rfl := List.mem_singleton.mp h
    exact Change.onlyIf_of hi _

theorem signalOutput_follows (cfg : Config) (blk : SignalResults w) :
    Follows cfg (signalPlan cfg blk) (signalOutput cfg) blk := by
  refine Plan.follows_of_post fun h₀ => ?_
  simp only [signalOutput, post_bind, post_get, post_pure]
  refine Plan.post_processArray h₀ (Set.notMem_empty _) ⟨rfl, rfl, rfl, .inr rfl⟩
    fun r blk₁ hr h₁ hknown => ?_
  have hmin : r.min = lateOverhead cfg .signal (blk.array .overhead) := by
    rw [hr]
    exact processResult_min_addr ..
  refine Plan.post_appendResultSet h₁ (List.forall_mem_nil _) (by simpa using hknown)
    fun array hout => ?_
  refine Plan.post_appendResultSet h₁ hout (by simpa using .early _ _ _) fun array hout => ?_
  refine Plan.post_processArray h₁ (by simp) ⟨rfl, by rw [hmin]; rfl, rfl, .inl rfl⟩
    fun r blk₂ _ h₂ hknown => ?_
  refine Plan.post_appendResultSet h₂ hout (by simpa using hknown) fun array hout => ?_
  refine Plan.post_processArray h₂ (by simp) ⟨rfl, by rw [hmin]; rfl, rfl, .inl rfl⟩
    fun r blk₃ _ h₃ hknown => ?_
  refine Plan.post_appendResultSet h₃ hout (by simpa using hknown) fun array hout => ?_
  refine Plan.post_processAverageResults (show nRuns = _ from rfl) rfl (List.mem_singleton_self _)
    (fun _ _ h => SignalArray.hiPrioAverage.inj h) h₃ (by simp) fun blk₄ h₄ => ?_
  refine Plan.post_appendAverageCounters hout (List.mem_singleton_self _) fun array hout => ?_
  refine .inr ⟨array, _, rfl, hout, h₄, fun a ha => ?_⟩
  cases a with
  | hiPrioAverage run => exact Change.onlyIf_of_not (by simpa using ha) _
  | _ => simp at ha

/-! ### Interrupts from user level -/

/-- What `irquser_process` does to an array. -/
def irquserChange (cfg : Config) (blk : IrquserResults w) : IrquserArray → Change w
  | .overheads => .subtract 0
  | .threadResults | .processResults =>
    .subtract (lateOverhead cfg .irquser (blk.array .overheads))

/-- The plan of `irquser_process`. -/
def irquserPlan (cfg : Config) (blk : IrquserResults w) : Plan IrquserArray w :=
  runsPlan cfg (irquserChange cfg blk) [] fun _ h => absurd h List.not_mem_nil

theorem irquserOutput_follows (cfg : Config) (blk : IrquserResults w) :
    Follows cfg (irquserPlan cfg blk) (irquserOutput cfg) blk := by
  refine Plan.follows_of_post fun h₀ => ?_
  simp only [irquserOutput, post_bind, post_get, post_pure]
  refine Plan.post_processArray h₀ (Set.notMem_empty _) ⟨rfl, rfl, rfl, .inr rfl⟩
    fun r₀ blk₁ hr h₁ hknown₀ => ?_
  have hmin : r₀.min = lateOverhead cfg .irquser (blk.array .overheads) := by
    rw [hr]
    exact processResult_min_addr ..
  refine Plan.post_processArray h₁ (by simp) ⟨rfl, by rw [hmin]; rfl, rfl, .inl rfl⟩
    fun r₁ blk₂ _ h₂ hknown₁ => ?_
  refine Plan.post_processArray h₂ (by simp) ⟨rfl, by rw [hmin]; rfl, rfl, .inl rfl⟩
    fun r₃ blk₃ _ h₃ hknown₃ => ?_
  refine Plan.post_appendResultSet h₃
    (List.forall_mem_nil ((irquserPlan cfg blk).Writes cfg blk)) (fun r hr => ?_)
    fun array hout => ?_
  · simp only [List.mem_cons, List.not_mem_nil, or_false] at hr
    rcases hr with rfl | rfl | rfl | rfl | rfl
    · exact hknown₀.mono ((Set.subset_insert _ _).trans (Set.subset_insert _ _))
    · exact hknown₁.mono (Set.subset_insert _ _)
    · exact .early _ _ _
    · exact hknown₃
    · exact .early _ _ _
  · refine .inr ⟨array, _, rfl, hout, h₃, fun a ha => ?_⟩
    cases a <;> simp at ha

/-! ### Scheduler -/

/-- What `scheduler_process` does to an array. -/
def schedulerChange (cfg : Config) (blk : SchedulerResults w) : SchedulerArray → Change w
  | .overheadSignal | .overheadCcnt => .subtract 0
  | .threadResults prio | .processResults prio =>
    (Change.subtract (signalOverhead cfg blk)).onlyIf (prio < nPrios cfg)
  | .threadYield => .subtract (lateOverhead cfg .threadYield (blk.array .overheadCcnt))
  | .processYield => .subtract (lateOverhead cfg .processYield (blk.array .overheadCcnt))
  | .setPrioAverage run | .averageYield run => Change.average.onlyIf (run < nRuns)

/-- The plan of `scheduler_process`. -/
def schedulerPlan (cfg : Config) (blk : SchedulerResults w) : Plan SchedulerArray w :=
  runsPlan cfg (schedulerChange cfg blk) [.setPrioAverage, .averageYield] fun _ h i hi => by
    rcases List.mem_pair.mp h with rfl | rfl
    · exact Change.onlyIf_of hi _
    · exact Change.onlyIf_of hi _

/-- The arrays that `process_scheduler_results` changes. -/
def schedulerDone (cfg : Config) : Set SchedulerArray :=
  insert .overheadSignal ∅ ∪ .threadResults '' Set.Iio (nPrios cfg) ∪
    .processResults '' Set.Iio (nPrios cfg) ∪ .setPrioAverage '' Set.Iio nRuns

theorem post_processSchedulerResults {cfg : Config} {blk : SchedulerResults w}
    (h₀ : (schedulerPlan cfg blk).After blk ∅ blk)
    {Q : Output SchedulerArray (SchedulerFields w) w → SchedulerResults w → Prop}
    (hQ : ∀ array blk', (∀ e ∈ array, (schedulerPlan cfg blk).Writes cfg blk e) →
      (schedulerPlan cfg blk).After blk (schedulerDone cfg) blk' → Q array blk') :
    Post (processSchedulerResults cfg []) blk Q := by
  simp only [processSchedulerResults, post_bind, post_get]
  refine Plan.post_processArray h₀ (Set.notMem_empty _) ⟨rfl, rfl, rfl, .inr rfl⟩
    fun r blk₁ hr h₁ hknown => ?_
  have hmin : r.min = signalOverhead cfg blk := congrArg Result.min hr
  refine Plan.post_appendResultSet h₁ (List.forall_mem_nil _) (by simpa using hknown)
    fun array hout => ?_
  refine Plan.post_processResults (fun _ _ h => SchedulerArray.threadResults.inj h) h₁ (by simp)
    (fun i hi => ⟨rfl, by rw [hmin]; exact Change.onlyIf_of hi _, rfl, .inl rfl⟩)
    fun results blk₂ h₂ hknown => ?_
  refine Plan.post_appendResultSet h₂ hout hknown fun array hout => ?_
  refine Plan.post_appendResultSet h₂ hout (fun _ h => Plan.known_processResultsEarlyProc h)
    fun array hout => ?_
  refine Plan.post_processResults (fun _ _ h => SchedulerArray.processResults.inj h) h₂ (by simp)
    (fun i hi => ⟨rfl, by rw [hmin]; exact Change.onlyIf_of hi _, rfl, .inl rfl⟩)
    fun _ blk₃ h₃ _ => ?_
  refine Plan.post_appendResultSet h₃ hout (fun _ h => Plan.known_processResultsEarlyProc h)
    fun array hout => ?_
  refine Plan.post_appendResultSet h₃ hout (fun _ h => Plan.known_processResultsEarlyProc h)
    fun array hout => ?_
  refine Plan.post_processAverageResults (show nRuns = _ from rfl) rfl
    (List.mem_pair.mpr (.inl rfl))
    (fun _ _ h => SchedulerArray.setPrioAverage.inj h) h₃ (by simp) fun blk₄ h₄ => ?_
  exact Plan.post_appendAverageCounters hout (List.mem_pair.mpr (.inl rfl))
    fun array hout => hQ array blk₄ hout h₄

theorem schedulerOutput_follows (cfg : Config) (blk : SchedulerResults w) :
    Follows cfg (schedulerPlan cfg blk) (schedulerOutput cfg) blk := by
  refine Plan.follows_of_post fun h₀ => ?_
  simp only [schedulerOutput, processYieldResults, post_bind, post_get, post_pure]
  refine post_processSchedulerResults h₀ fun array blk₁ hout h₁ => ?_
  refine Plan.post_processArray h₁ (by simp [schedulerDone]) ⟨rfl, rfl, rfl, .inr rfl⟩
    fun r blk₂ hr h₂ hknown => ?_
  have hmin : r.min = lateOverhead cfg .threadYield (blk.array .overheadCcnt) := by
    rw [hr]
    exact processResult_min_addr ..
  refine Plan.post_appendResultSet h₂ hout (by simpa using hknown) fun array hout => ?_
  refine Plan.post_processArray h₂ (by simp [schedulerDone])
    ⟨rfl, by rw [hmin]; rfl, rfl, .inl rfl⟩ fun r blk₃ _ h₃ hknown => ?_
  refine Plan.post_appendResultSet h₃ hout (by simpa using hknown) fun array hout => ?_
  refine Plan.post_appendResultSet h₃ hout (by simpa using .early _ _ _) fun array hout => ?_
  refine Plan.post_processArray h₃ (by simp [schedulerDone])
    ⟨rfl, by rw [hmin]; rfl, rfl, .inl rfl⟩ fun r blk₄ _ h₄ hknown => ?_
  refine Plan.post_appendResultSet h₄ hout (by simpa using hknown) fun array hout => ?_
  refine Plan.post_appendResultSet h₄ hout (by simpa using .early _ _ _) fun array hout => ?_
  refine Plan.post_processAverageResults (show nRuns = _ from rfl) rfl
    (List.mem_pair.mpr (.inr rfl))
    (fun _ _ h => SchedulerArray.averageYield.inj h) h₄ (by simp [schedulerDone])
    fun blk₅ h₅ => ?_
  refine Plan.post_appendAverageCounters hout (List.mem_pair.mpr (.inr rfl))
    fun array hout => ?_
  refine .inr ⟨array, _, rfl, hout, h₅, fun a ha => ?_⟩
  cases a with
  | threadResults prio | processResults prio | setPrioAverage run | averageYield run =>
    exact Change.onlyIf_of_not (by simpa [schedulerDone] using ha) _
  | _ => simp [schedulerDone] at ha

/-! ### Fault -/

/-- What `fault_process` does to an array. -/
def faultChange (cfg : Config) (blk : FaultResults w) : FaultArray → Change w
  | .replyRecvOverhead | .ccntOverhead => .subtract 0
  | .roundTrip => .subtract (lateOverhead cfg .faultRoundTrip (blk.array .replyRecvOverhead))
  | .fault => .subtract (lateOverhead cfg .fault (blk.array .replyRecvOverhead))
  | .faultReply => .subtract (lateOverhead cfg .faultReply (blk.array .ccntOverhead))

/-- The plan of `fault_process`. -/
def faultPlan (cfg : Config) (blk : FaultResults w) : Plan FaultArray w :=
  runsPlan cfg (faultChange cfg blk) [] fun _ h => absurd h List.not_mem_nil

theorem faultOutput_follows (cfg : Config) (blk : FaultResults w) :
    Follows cfg (faultPlan cfg blk) (faultOutput cfg) blk := by
  refine Plan.follows_of_post fun h₀ => ?_
  simp only [faultOutput, post_bind, post_get, post_pure]
  refine Plan.post_processArray h₀ (Set.notMem_empty _) ⟨rfl, rfl, rfl, .inr rfl⟩
    fun r blk₁ hr h₁ hknown => ?_
  have hmin : r.min = lateOverhead cfg .fault (blk.array .replyRecvOverhead) := by
    rw [hr]
    exact processResult_min_addr ..
  refine Plan.post_appendResultSet h₁ (List.forall_mem_nil _) (by simpa using hknown)
    fun array hout => ?_
  refine Plan.post_processArray h₁ (by simp) ⟨rfl, by rw [hmin]; rfl, rfl, .inl rfl⟩
    fun r blk₂ _ h₂ hknown => ?_
  refine Plan.post_appendResultSet h₂ hout (by simpa using hknown) fun array hout => ?_
  refine Plan.post_appendResultSet h₂ hout (by simpa using .early _ _ _) fun array hout => ?_
  refine Plan.post_processArray h₂ (by simp) ⟨rfl, by rw [hmin]; rfl, rfl, .inl rfl⟩
    fun r blk₃ _ h₃ hknown => ?_
  refine Plan.post_appendResultSet h₃ hout (by simpa using hknown) fun array hout => ?_
  refine Plan.post_appendResultSet h₃ hout (by simpa using .early _ _ _) fun array hout => ?_
  refine Plan.post_processArray h₃ (by simp) ⟨rfl, rfl, rfl, .inr rfl⟩
    fun r blk₄ hr h₄ hknown => ?_
  have hmin : r.min = lateOverhead cfg .faultReply (blk.array .ccntOverhead) := by
    rw [hr]
    exact processResult_min_addr ..
  refine Plan.post_appendResultSet h₄ hout (by simpa using hknown) fun array hout => ?_
  refine Plan.post_processArray h₄ (by simp) ⟨rfl, by rw [hmin]; rfl, rfl, .inl rfl⟩
    fun r blk₅ _ h₅ hknown => ?_
  refine Plan.post_appendResultSet h₅ hout (by simpa using hknown) fun array hout => ?_
  refine Plan.post_appendResultSet h₅ hout (by simpa using .early _ _ _) fun array hout => ?_
  refine .inr ⟨array, _, rfl, hout, h₅, fun a ha => ?_⟩
  cases a <;> simp at ha

/-! ### Hardware -/

/-- What `hardware_process` does to an array. -/
def hardwareChange (cfg : Config) (blk : HardwareResults w) : HardwareArray → Change w
  | .nullSyscallOverhead => .subtract 0
  | .nullSyscallResults => .subtract (hardwareOverhead cfg blk)

/-- The plan of `hardware_process`. -/
def hardwarePlan (cfg : Config) (blk : HardwareResults w) : Plan HardwareArray w :=
  runsPlan cfg (hardwareChange cfg blk) [] fun _ h => absurd h List.not_mem_nil

theorem hardwareOutput_follows (cfg : Config) (blk : HardwareResults w) :
    Follows cfg (hardwarePlan cfg blk) (hardwareOutput cfg) blk := by
  refine Plan.follows_of_post fun h₀ => ?_
  simp only [hardwareOutput, post_bind, post_get, post_pure]
  refine Plan.post_processArray h₀ (Set.notMem_empty _) ⟨rfl, rfl, rfl, .inr rfl⟩
    fun r blk₁ hr h₁ hoverhead => ?_
  have hmin : r.min = hardwareOverhead cfg blk := congrArg Result.min hr
  refine Plan.post_processArray h₁ (by simp) ⟨rfl, by rw [hmin]; rfl, rfl, .inl rfl⟩
    fun r blk₂ _ h₂ hknown => ?_
  refine Plan.post_appendResultSet h₂ (List.forall_mem_nil _) (by simpa using hknown)
    fun array hout => ?_
  refine Plan.post_appendResultSet h₂ hout (by simpa using .early _ _ _) fun array hout => ?_
  refine Plan.post_appendResultSet h₂ hout
    (by simpa using hoverhead.mono (Set.subset_insert _ _)) fun array hout => ?_
  refine .inr ⟨array, _, rfl, hout, h₂, fun a ha => ?_⟩
  cases a <;> simp at ha

/-! ### Synchronisation -/

/-- The plan of `sync_process`. -/
def syncPlan : Plan SyncArray w where
  runs := syncRuns
  ignored := syncIgnored
  cols := 0
  change
    | .broadcastWaitTime j i =>
      (Change.subtract 0).onlyIf (j < broadcastWaitNames.length ∧ i < nWaiters)
    | .broadcastBroadcastTime j => (Change.subtract 0).onlyIf (j < broadcastBroadcastNames.length)
    | .producerToConsumer j => (Change.subtract 0).onlyIf (j < producerToConsumerNames.length)
    | .consumerToProducer j => (Change.subtract 0).onlyIf (j < consumerToProducerNames.length)
  tables := []
  ignored_lt := by decide
  runs_lt := by decide
  change_table _ h := absurd h List.not_mem_nil

theorem syncOutput_follows (cfg : Config) (blk : SyncResults w) :
    Follows cfg syncPlan (syncOutput cfg) blk := by
  refine Plan.follows_of_post fun h₀ => ?_
  simp only [syncOutput, processWaitTimes, processNamed, broadcastWaitNames,
    broadcastBroadcastNames, producerToConsumerNames, consumerToProducerNames, List.zipIdx_cons,
    List.zipIdx_nil, List.foldlM_cons, List.foldlM_nil, post_bind, post_get, post_pure]
  refine Plan.post_processResults (fun _ _ h => (SyncArray.broadcastWaitTime.inj h).2) h₀ (by simp)
    (fun i hi => ⟨rfl, by exact Change.onlyIf_of ⟨by decide, hi⟩ _, rfl, .inl rfl⟩)
    fun results blk₁ h₁ hknown => ?_
  refine Plan.post_appendResultSet h₁ (List.forall_mem_nil _) hknown fun array hout => ?_
  refine Plan.post_processArray h₁ (by simp) ⟨rfl, by rfl, rfl, .inl rfl⟩
    fun r blk₂ _ h₂ hknown => ?_
  refine Plan.post_appendResultSet h₂ hout (by simpa using hknown) fun array hout => ?_
  refine Plan.post_processArray h₂ (by simp) ⟨rfl, by rfl, rfl, .inl rfl⟩
    fun r blk₃ _ h₃ hknown => ?_
  refine Plan.post_appendResultSet h₃ hout (by simpa using hknown) fun array hout => ?_
  refine Plan.post_processArray h₃ (by simp) ⟨rfl, by rfl, rfl, .inl rfl⟩
    fun r blk₄ _ h₄ hknown => ?_
  refine Plan.post_appendResultSet h₄ hout (by simpa using hknown) fun array hout => ?_
  refine Plan.post_appendResultSet h₄ hout (by simpa using .early _ _ _) fun array hout => ?_
  refine Plan.post_appendResultSet h₄ hout (by simpa using .early _ _ _) fun array hout => ?_
  refine .inr ⟨array, _, rfl, hout, h₄, fun a ha => ?_⟩
  cases a with
  | broadcastWaitTime j i =>
    refine Change.onlyIf_of_not (fun h => ha ?_) _
    obtain rfl : j = 0 := Nat.lt_one_iff.mp h.1
    simpa using h.2
  | broadcastBroadcastTime j | producerToConsumer j | consumerToProducer j =>
    refine Change.onlyIf_of_not (fun h => ha ?_) _
    obtain rfl : j = 0 := Nat.lt_one_iff.mp h
    simp

/-! ### IPC -/

/-- The plan of `process_ipc_results`. -/
def ipcPlan (cfg : Config) (blk : IpcResults w) : Plan IpcArray w where
  runs := ipcRuns
  ignored := 0
  cols := 0
  change
    | .overheadBenchmarks _ => .subtract 0
    | .benchmarks j => match benchmarkParams[j]? with
      | some p => .subtract (ipcOverhead cfg (blk.array (.overheadBenchmarks p.overheadId)))
      | none => .keep
  tables := []
  ignored_lt := by decide
  runs_lt := by decide
  change_table _ h := absurd h List.not_mem_nil

theorem ipcOutput_follows (cfg : Config) (blk : IpcResults w) :
    Follows cfg (ipcPlan cfg blk) (ipcOutput cfg) blk := by
  refine Plan.follows_of_post fun h₀ => ?_
  by_cases hnull : (processIpcResults cfg blk).1 = none
  · exact .inl (Option.map_eq_none_iff.mp hnull)
  · have hcheck : Post (checkOverheads cfg Overhead.all fun _ => 0) blk fun v blk' =>
        v = some (fun i => ipcOverhead cfg (blk.array (.overheadBenchmarks i))) ∧ blk' = blk := by
      unfold Post
      rw [checkOverheads_of_processIpcResults cfg hnull]
      exact ⟨rfl, rfl⟩
    rw [ipcOutput, post_bind]
    refine hcheck.mono fun v blk' hv => ?_
    obtain ⟨rfl, rfl⟩ := hv
    simp only [post_bind, post_pure]
    refine Plan.post_mapM_processArray (fun p : BenchmarkParams × ℕ => IpcArray.benchmarks p.2) _
      (by decide) h₀ (by simp) (fun p hp => ⟨rfl, ?_, rfl, .inl rfl⟩)
      fun results blk₁ h₁ hknown => ?_
    · have hget : benchmarkParams[p.2]? = some p.1 := List.mk_mem_zipIdx_iff_getElem?.mp hp
      simp only [ipcPlan, hget]
    · refine Plan.post_appendResultSet h₁ (List.forall_mem_nil _) hknown fun array hout => ?_
      refine .inr ⟨array, _, rfl, hout, h₁.union (fun a ha => ?_ : ∀ a ∈ Set.range
        IpcArray.overheadBenchmarks, _), fun a ha => ?_⟩
      · obtain ⟨i, rfl⟩ := ha
        rfl
      · cases a with
        | overheadBenchmarks i => exact absurd (.inr ⟨i, rfl⟩) ha
        | benchmarks j =>
          have hnone : benchmarkParams[j]? = none := by
            refine Option.eq_none_iff_forall_ne_some.mpr fun p hp => ha (.inl (.inr ?_))
            exact List.mem_map.mpr ⟨(p, j), List.mk_mem_zipIdx_iff_getElem?.mpr hp, rfl⟩
          simp only [ipcPlan, hnone]

/-! ### Page mapping -/

/-- The plan of `process_mapping_results`. -/
def mappingPlan (cfg : Config) (blk : MappingResults w) : Plan MappingArray w where
  runs := MappingParams.source.runs
  ignored := 1
  cols := 0
  change
    | .overheadBenchmarks => .subtract 0
    | .benchmarksResult i j => (Change.subtract (mappingOverhead cfg .source blk)).onlyIf
        (i < MappingParams.source.tests ∧ j < MappingParams.source.nphase)
  tables := []
  ignored_lt := by decide
  runs_lt := by decide
  change_table _ h := absurd h List.not_mem_nil

theorem mappingOutput_follows (cfg : Config) (blk : MappingResults w) :
    Follows cfg (mappingPlan cfg blk) (mappingOutput cfg .source) blk := by
  refine Plan.follows_of_post fun h₀ => ?_
  simp only [mappingOutput, processMappingTable, post_bind, post_pure]
  refine Plan.post_processArray h₀ (Set.notMem_empty _) ⟨rfl, rfl, rfl, .inr rfl⟩
    fun r blk₁ hr h₁ _ => ?_
  have hmin : r.min = mappingOverhead cfg .source blk := congrArg Result.min hr
  refine Plan.post_processTable (fun _ _ _ _ h => MappingArray.benchmarksResult.inj h) h₁ (by simp)
    (fun i hi j hj => ⟨rfl, by rw [hmin]; exact Change.onlyIf_of ⟨hi, hj⟩ _, rfl, .inl rfl⟩)
    fun results blk₂ h₂ hknown => ?_
  refine Plan.post_appendResultSet h₂ (List.forall_mem_nil _) hknown fun array hout => ?_
  refine .inr ⟨array, _, rfl, hout, h₂, fun a ha => ?_⟩
  cases a with
  | overheadBenchmarks => simp at ha
  | benchmarksResult i j => exact Change.onlyIf_of_not (by simpa using ha) _

/-! ### SMP -/

/-- The plan of `process_smp_results`. -/
def smpPlan (cores : ℕ) : Plan SmpArray w where
  runs := SmpParams.source.runs
  ignored := 0
  cols := 0
  change
    | .benchmarksResult i j =>
      (Change.subtract 0).onlyIf (i < SmpParams.source.tests ∧ j < cores)
  tables := []
  ignored_lt := by decide
  runs_lt := by decide
  change_table _ h := absurd h List.not_mem_nil

theorem smpOutput_follows (cfg : Config) (cores : ℕ) (blk : SmpResults w) :
    Follows cfg (smpPlan cores) (smpOutput cfg .source cores) blk := by
  refine Plan.follows_of_post fun h₀ => ?_
  simp only [smpOutput, processSmpTable, post_bind, post_pure]
  refine Plan.post_processTable (fun _ _ _ _ h => SmpArray.benchmarksResult.inj h) h₀ (by simp)
    (fun i hi j hj => ⟨rfl, by exact Change.onlyIf_of ⟨hi, hj⟩ _, rfl, .inl rfl⟩)
    fun results blk₁ h₁ hknown => ?_
  refine Plan.post_appendResultSet h₁ (List.forall_mem_nil _) hknown fun array hout => ?_
  refine .inr ⟨array, _, rfl, hout, h₁, fun a ha => ?_⟩
  cases a with
  | benchmarksResult i j => exact Change.onlyIf_of_not (by simpa using ha) _

/-! ### All driver functions -/

/-- Whenever the driver function returns a JSON value, every array is changed as the plan says, and
the value consists of what the function has written to its output. A row that has raw results has,
at the moment it is written, the number of samples and the extremes of what its pointer shows.
These samples are not changed any more. -/
def ProcessedOnce (cfg : Config) (plan : Plan A w) (process : Driver A S w (Option Json))
    (output : Driver A S w (Option (Output A S w))) (blk : Block A S w) : Prop :=
  ∀ json, (process blk).1 = some json →
    (∀ a, (process blk).2.array a = plan.apply a (blk.array a)) ∧
      ∃ out, (output blk).1 = some out ∧ json = .array (out.map (Emission.toJson cfg)) ∧
        ∀ e ∈ out, ∀ r ∈ e.content.results, ∀ p, r.rawData = some p →
          r.Consistent plan.runs e.block p ∧ (process blk).2.deref p = e.block.deref p

theorem Follows.processedOnce {cfg : Config} {plan : Plan A w}
    {output : Driver A S w (Option (Output A S w))} {blk : Block A S w}
    (h : Follows cfg plan output blk) :
    ProcessedOnce cfg plan (returnJson cfg output) output blk := by
  intro json hjson
  rw [returnJson_apply] at hjson ⊢
  obtain ⟨out, hout, rfl⟩ := Option.map_eq_some_iff.mp hjson
  obtain ⟨harrays, hwrites⟩ := h out hout
  exact ⟨harrays, out, hout, rfl, fun e he r hr p hp => (hwrites e he).consistent hr hp harrays⟩

/-- **Every overhead is subtracted once.** The nine driver functions. -/
theorem processed_once (cfg : Config) :
    (∀ blk : IpcResults w,
      ProcessedOnce cfg (ipcPlan cfg blk) (processIpcResults cfg) (ipcOutput cfg) blk) ∧
      (∀ blk : IrquserResults w,
        ProcessedOnce cfg (irquserPlan cfg blk) (irquserProcess cfg) (irquserOutput cfg) blk) ∧
      (∀ blk : SchedulerResults w, ProcessedOnce cfg (schedulerPlan cfg blk)
        (schedulerProcess cfg) (schedulerOutput cfg) blk) ∧
      (∀ blk : SignalResults w,
        ProcessedOnce cfg (signalPlan cfg blk) (signalProcess cfg) (signalOutput cfg) blk) ∧
      (∀ blk : FaultResults w,
        ProcessedOnce cfg (faultPlan cfg blk) (faultProcess cfg) (faultOutput cfg) blk) ∧
      (∀ blk : HardwareResults w, ProcessedOnce cfg (hardwarePlan cfg blk)
        (hardwareProcess cfg) (hardwareOutput cfg) blk) ∧
      (∀ blk : SyncResults w,
        ProcessedOnce cfg syncPlan (syncProcess cfg) (syncOutput cfg) blk) ∧
      (∀ blk : MappingResults w, ProcessedOnce cfg (mappingPlan cfg blk)
        (processMappingResults cfg .source) (mappingOutput cfg .source) blk) ∧
      ∀ (cores : ℕ) (blk : SmpResults w), ProcessedOnce cfg (smpPlan cores)
        (processSmpResults cfg .source cores) (smpOutput cfg .source cores) blk :=
  ⟨fun blk => (ipcOutput_follows cfg blk).processedOnce,
    fun blk => (irquserOutput_follows cfg blk).processedOnce,
    fun blk => (schedulerOutput_follows cfg blk).processedOnce,
    fun blk => (signalOutput_follows cfg blk).processedOnce,
    fun blk => (faultOutput_follows cfg blk).processedOnce,
    fun blk => (hardwareOutput_follows cfg blk).processedOnce,
    fun blk => (syncOutput_follows cfg blk).processedOnce,
    fun blk => (mappingOutput_follows cfg blk).processedOnce,
    fun cores blk => (smpOutput_follows cfg cores blk).processedOnce⟩

end Sel4bench
