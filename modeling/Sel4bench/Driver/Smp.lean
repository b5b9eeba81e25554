import Sel4bench.Driver.Frame

/-!
# The driver function of the SMP benchmark

`process_smp_results` of `smp.c`. The results of all tests and numbers of cores are one table with
as many columns as there are cores, which is passed on as a flat array and labelled by quotient and
remainder. No overhead is subtracted and no run is ignored.

## Main definitions

* `Sel4bench.SmpParams`, `Sel4bench.processSmpResults`.

## Main results

* `Sel4bench.processSmpResults_eq` — the rows of the table.
-/

namespace Sel4bench

variable {w : ℕ}

/-- The constants of `smp.h` and of the configuration. -/
structure SmpParams where
  /-- `RUNS`. -/
  runs : ℕ
  /-- `CONFIG_MAX_NUM_NODES`. -/
  maxNumNodes : ℕ
  /-- `smp_benchmark_params`: names and delays. -/
  params : List (String × ℚ)

/-- `TESTS`. -/
def SmpParams.tests (sp : SmpParams) : ℕ := sp.params.length

/-- The field `name` of a test. -/
def SmpParams.name (sp : SmpParams) (i : ℕ) : String := (sp.params.getD i ("", 0)).1

/-- The field `delay` of a test. -/
def SmpParams.delay (sp : SmpParams) (i : ℕ) : ℚ := (sp.params.getD i ("", 0)).2

/-- The values of the source, for four nodes. -/
def SmpParams.source : SmpParams where
  runs := 10
  maxNumNodes := 4
  params := [("500 cycles", 500), ("4000 cycles", 4000), ("32000 cycles", 32000)]

/-- The arrays of `smp_results_t`. -/
inductive SmpArray
  | benchmarksResult (test core : ℕ)
deriving DecidableEq

/-- `smp_results_t`. -/
abbrev SmpResults (w : ℕ) := Block SmpArray Unit w

/-- The conversion of a `double` to `json_int_t` drops the fractional part. -/
def jsonIntOfRat (q : ℚ) : ℤ := if 0 ≤ q then ⌊q⌋ else ⌈q⌉

/-- The loops of `process_smp_results` over tests and numbers of cores. -/
def processSmpTable (cfg : Config) (sp : SmpParams) (cores : ℕ) :
    Driver SmpArray Unit w (List (List (Result (RawRef SmpArray w) w))) :=
  (List.range sp.tests).mapM fun i => (List.range cores).mapM fun j =>
    processArray cfg sp.runs (.benchmarksResult i j) { name := sp.name i, overhead := 0 }

/-- The output array of `process_smp_results`, where `cores` is `cores_collective_results`. -/
def smpOutput (cfg : Config) (sp : SmpParams) (cores : ℕ) :
    Driver SmpArray Unit w (Option (Output SmpArray Unit w)) := do
  let n := sp.tests * cores
  let cycleCol := (List.range n).map fun i => jsonIntOfRat (sp.delay (i / cores))
  let coresCol := (List.range n).map fun i => ((i % cores : ℕ) : ℤ) + 1
  let extraCols : List Column :=
    [{ header := "Cycles", values := .integers cycleCol },
      { header := "Cores", values := .integers coresCol }]
  let results ← processSmpTable cfg sp cores
  let array ← appendResultSet []
    { name := "SMP Benchmark", extraCols, results := results.flatten }
  return some array

/-- `process_smp_results`. -/
def processSmpResults (cfg : Config) (sp : SmpParams) (cores : ℕ) :
    Driver SmpArray Unit w (Option Json) :=
  returnJson cfg (smpOutput cfg sp cores)

/-! ### The rows -/

section Rows

variable (cfg : Config) (sp : SmpParams) (cores : ℕ) (blk : SmpResults w)

/-- The pointer to the samples of the row with index `r`. -/
def smpRawData (r : ℕ) : RawRef SmpArray w := .block (.benchmarksResult (r / cores) (r % cores)) 0

/-- The samples of the row with index `r`. -/
def smpSamples (r : ℕ) : List (Ccnt w) :=
  (List.range sp.runs).map (blk.array (.benchmarksResult (r / cores) (r % cores)))

/-- Processing without an overhead and ignored runs. -/
theorem processResult_smp {ρ : Type} (array : ℕ → Ccnt w) (addr : ℕ → ρ) (name : Option String)
    (hlt : sp.runs < 2 ^ 31) :
    let desc : ResultDesc w := { name := name, overhead := 0 }
    (processResult cfg sp.runs array desc addr).1 =
        calculateResults ((List.range sp.runs).map array) (addr 0) ∧
      (List.range sp.runs).map (processResult cfg sp.runs array desc addr).2 =
        (List.range sp.runs).map array := by
  intro desc
  have hsize : windowSize sp.runs desc.ignored = sp.runs :=
    windowSize_eq (Nat.zero_le _) (by simpa [desc] using hlt)
  have hsame : ∀ i, subtractOverhead array desc.ignored sp.runs desc.overhead i = array i := by
    intro i
    rw [subtractOverhead_apply]
    split
    · exact sub_zero _
    · rfl
  have hwindow : window (subtractOverhead array desc.ignored sp.runs desc.overhead) desc.ignored
      sp.runs = (List.range sp.runs).map array := by
    refine List.map_congr_left fun i _ => ?_
    rw [hsame]
    exact congrArg array (Nat.zero_add i)
  have haccepted : Accepted cfg array desc sp.runs := by simp [Accepted, desc]
  rw [processResult_of_accepted cfg array desc _ haccepted, hsize]
  exact ⟨by rw [hwindow], List.map_congr_left fun i _ => hsame i⟩

/-- **The rows of the SMP driver.** The row with index `r` has the labels of test `r / C` and
`r % C + 1` cores, where `C` is the number of cores, and its statistics and raw results are those of
the samples of that test and number of cores. -/
theorem processSmpResults_eq (hlt : sp.runs < 2 ^ 31) :
    (processSmpResults cfg sp cores blk).1 = some (.array [.object
      [("Benchmark", .string "SMP Benchmark"),
        ("Results", .array ((List.range (sp.tests * cores)).map fun r => .object
          ([("Cycles", .integer (jsonIntOfRat (sp.delay (r / cores)))),
            ("Cores", .integer (((r % cores : ℕ) : ℤ) + 1))] ++
            resultToJson cfg (processSmpResults cfg sp cores blk).2.deref
              (calculateResults (smpSamples sp cores blk r) (smpRawData cores r)))))]]) ∧
      ∀ r < sp.tests * cores, (List.range sp.runs).map
        ((processSmpResults cfg sp cores blk).2.deref (smpRawData cores r)) =
          smpSamples sp cores blk r := by
  have hinj : Function.Injective2 SmpArray.benchmarksResult := fun _ _ _ _ h =>
    SmpArray.benchmarksResult.inj h
  obtain ⟨hresults, harrays⟩ := processTable hinj
    (fun i => ({ name := sp.name i, overhead := 0 } : ResultDesc w)) cfg sp.runs sp.tests cores blk
  have hblk : (processSmpResults cfg sp cores blk).2 = (processSmpTable cfg sp cores blk).2 := rfl
  have htable : (processSmpTable cfg sp cores blk).1.flatten =
      (List.range (sp.tests * cores)).map fun r =>
        calculateResults (smpSamples sp cores blk r) (smpRawData cores r) := by
    exact hresults.trans (List.map_congr_left fun r _ => (processResult_smp cfg sp _ _ _ hlt).1)
  refine ⟨?_, fun r hr => ?_⟩
  · rw [hblk]
    change some (Json.array [resultSetToJson cfg (processSmpTable cfg sp cores blk).2.deref
      { name := "SMP Benchmark", extraCols := _,
        results := (processSmpTable cfg sp cores blk).1.flatten }]) = _
    rw [htable, resultSetToJson, map_range_zipIdx, List.map_map]
    refine congrArg (fun rows => some (Json.array [.object
      [("Benchmark", .string "SMP Benchmark"), ("Results", .array rows)]]))
      (List.map_congr_left fun r hr => ?_)
    have hr := List.mem_range.mp hr
    simp [getJsonCell, hr]
  · rw [hblk]
    refine Eq.trans ?_ (processResult_smp cfg sp (blk.array (.benchmarksResult (r / cores)
      (r % cores))) (RawRef.block (w := w) (SmpArray.benchmarksResult (r / cores) (r % cores)))
        (sp.name (r / cores)) hlt).2
    refine List.map_congr_left fun i _ => ?_
    exact congrFun (harrays r hr) (0 + i) |>.trans (by rw [Nat.zero_add])

end Rows

end Sel4bench
