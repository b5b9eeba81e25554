import Sel4bench.Driver.Frame

/-!
# The driver function of the page mapping benchmark

`process_mapping_results` of `page_mapping.c`: the minimum of the overheads, the first run left
out, is subtracted from the samples of every test and phase. The results of all tests and phases
are one table, which is passed on as a flat array and labelled by quotient and remainder.

## Main definitions

* `Sel4bench.MappingParams`, `Sel4bench.processMappingResults`.

## Main results

* `Sel4bench.processMappingResults_eq` — the rows of the table.
-/

namespace Sel4bench

variable {w : ℕ}

/-- The constants of `page_mapping.h`. -/
structure MappingParams where
  /-- `RUNS`. -/
  runs : ℕ
  /-- `page_mapping_benchmark_params`: names and numbers of pages. -/
  params : List (String × ℕ)
  /-- `phase_name`. -/
  phaseName : List String

/-- `TESTS`. -/
def MappingParams.tests (mp : MappingParams) : ℕ := mp.params.length

/-- `NPHASE`. -/
def MappingParams.nphase (mp : MappingParams) : ℕ := mp.phaseName.length

/-- The field `name` of a test. -/
def MappingParams.name (mp : MappingParams) (i : ℕ) : String := (mp.params.getD i ("", 0)).1

/-- The field `npage` of a test. -/
def MappingParams.npage (mp : MappingParams) (i : ℕ) : ℕ := (mp.params.getD i ("", 0)).2

/-- The values of the source. -/
def MappingParams.source : MappingParams where
  runs := 17
  params := [("map 1", 1), ("map 512", 512), ("map 2048", 2048)]
  phaseName := ["Prepare Page Tables", "Allocate Pages", "Mapping", "Protect Pages as Read Only",
    "Unprotect Pages"]

/-- The arrays of `page_mapping_results_t`. -/
inductive MappingArray
  | overheadBenchmarks
  | benchmarksResult (test phase : ℕ)
deriving DecidableEq

/-- `page_mapping_results_t`. -/
abbrev MappingResults (w : ℕ) := Block MappingArray Unit w

/-- The loops of `process_mapping_results` over tests and phases. -/
def processMappingTable (cfg : Config) (mp : MappingParams) (overhead : Ccnt w) :
    Driver MappingArray Unit w (List (List (Result (RawRef MappingArray w) w))) :=
  (List.range mp.tests).mapM fun i => (List.range mp.nphase).mapM fun j =>
    processArray cfg mp.runs (.benchmarksResult i j)
      { name := mp.name i, overhead := overhead, ignored := 1 }

/-- The output array of `process_mapping_results`. -/
def mappingOutput (cfg : Config) (mp : MappingParams) :
    Driver MappingArray Unit w (Option (Output MappingArray Unit w)) := do
  let desc : ResultDesc w := { stable := false, name := "overhead", ignored := 1, overhead := 0 }
  let overheadResult ← processArray cfg mp.runs .overheadBenchmarks desc
  let overhead := overheadResult.min
  let nline := mp.tests * mp.nphase
  let phaseCol := (List.range nline).map fun i => mp.phaseName.getD (i % mp.nphase) ""
  let npageCol := (List.range nline).map fun i => (mp.npage (i / mp.nphase) : ℤ)
  let extraCols : List Column :=
    [{ header := "Num of Page Mapped", values := .integers npageCol },
      { header := "Phase", values := .strings phaseCol }]
  let results ← processMappingTable cfg mp overhead
  let array ← appendResultSet []
    { name := "Mapping Benchmark", extraCols, results := results.flatten }
  return some array

/-- `process_mapping_results`. -/
def processMappingResults (cfg : Config) (mp : MappingParams) :
    Driver MappingArray Unit w (Option Json) :=
  returnJson cfg (mappingOutput cfg mp)

/-! ### The rows -/

section Rows

variable (cfg : Config) (mp : MappingParams) (blk : MappingResults w)

/-- The overhead that is subtracted. -/
def mappingOverhead : Ccnt w :=
  (processArray cfg mp.runs MappingArray.overheadBenchmarks
    ({ stable := false, name := "overhead", ignored := 1, overhead := 0 } : ResultDesc w)
    blk).1.min

/-- The pointer to the samples of the row with index `r`. -/
def MappingParams.rawData (r : ℕ) : RawRef MappingArray w :=
  .block (.benchmarksResult (r / mp.nphase) (r % mp.nphase)) 1

/-- The samples of the row with index `r`. -/
def mappingSamples (r : ℕ) : List (Ccnt w) :=
  (List.range (mp.runs - 1)).map fun i =>
    blk.array (.benchmarksResult (r / mp.nphase) (r % mp.nphase)) (i + 1) -
      mappingOverhead cfg mp blk

/-- The overhead is the minimum of the overheads, the first left out. -/
theorem mappingOverhead_isLeast (hruns : 2 ≤ mp.runs) (hlt : mp.runs < 2 ^ 31) :
    IsLeast {x | ∃ i, 1 ≤ i ∧ i < mp.runs ∧ x = blk.array .overheadBenchmarks i}
      (mappingOverhead cfg mp blk) := by
  have hsize : windowSize mp.runs 1 = mp.runs - 1 := windowSize_eq (by omega) (by omega)
  have hleast := processResult_min_isLeast cfg (blk.array .overheadBenchmarks)
    ({ stable := false, name := "overhead", ignored := 1, overhead := 0 } : ResultDesc w)
    (RawRef.block (w := w) MappingArray.overheadBenchmarks) (n := mp.runs) (by simp [Accepted])
    (by rw [hsize]; omega)
  have hset : {x | ∃ i, 1 ≤ i ∧ i < mp.runs ∧ x = blk.array .overheadBenchmarks i} =
      {x | ∃ i < windowSize mp.runs 1, blk.array .overheadBenchmarks (1 + i) - 0 = x} := by
    ext x
    simp only [hsize, sub_zero, Set.mem_ofPred_eq]
    constructor
    · rintro ⟨i, h1, h2, rfl⟩
      exact ⟨i - 1, by omega, by rw [Nat.add_sub_cancel' h1]⟩
    · rintro ⟨i, hi, rfl⟩
      exact ⟨1 + i, by omega, by omega, rfl⟩
  rw [hset]
  exact hleast

theorem processResult_mapping {ρ : Type} (array : ℕ → Ccnt w) (addr : ℕ → ρ) (overhead : Ccnt w)
    (name : Option String) (hruns : 2 ≤ mp.runs) (hlt : mp.runs < 2 ^ 31) :
    let desc : ResultDesc w := { name := name, overhead := overhead, ignored := 1 }
    let samples := (List.range (mp.runs - 1)).map fun i => array (i + 1) - overhead
    (processResult cfg mp.runs array desc addr).1 = calculateResults samples (addr 1) ∧
      ((List.range (mp.runs - 1)).map fun i =>
        (processResult cfg mp.runs array desc addr).2 (1 + i)) = samples := by
  intro desc samples
  have hsize : windowSize mp.runs desc.ignored = mp.runs - 1 :=
    windowSize_eq (show 1 ≤ mp.runs by omega) (show mp.runs - 1 < 2 ^ 31 by omega)
  have hwindow : window (subtractOverhead array desc.ignored (mp.runs - 1) desc.overhead)
      desc.ignored (mp.runs - 1) = samples := by
    refine List.map_congr_left fun i hi => ?_
    have hi := List.mem_range.mp hi
    rw [subtractOverhead_apply, if_pos ⟨Nat.le_add_right _ _, Nat.add_lt_add_left hi _⟩,
      Nat.add_comm]
  have haccepted : Accepted cfg array desc mp.runs := by simp [Accepted, desc]
  rw [processResult_of_accepted cfg array desc _ haccepted, hsize]
  exact ⟨by rw [hwindow], hwindow⟩

/-- **The rows of the page mapping driver.** The row with index `r` has the labels of test
`r / NPHASE` and phase `r % NPHASE`, and its statistics and raw results are those of the samples of
that test and phase. -/
theorem processMappingResults_eq (hruns : 2 ≤ mp.runs) (hlt : mp.runs < 2 ^ 31) :
    (processMappingResults cfg mp blk).1 = some (.array [.object
      [("Benchmark", .string "Mapping Benchmark"),
        ("Results", .array ((List.range (mp.tests * mp.nphase)).map fun r => .object
          ([("Num of Page Mapped", .integer (mp.npage (r / mp.nphase))),
            ("Phase", .string (mp.phaseName.getD (r % mp.nphase) ""))] ++
            resultToJson cfg (processMappingResults cfg mp blk).2.deref
              (calculateResults (mappingSamples cfg mp blk r) (mp.rawData r)))))]]) ∧
      ∀ r < mp.tests * mp.nphase, (List.range (mp.runs - 1)).map
        ((processMappingResults cfg mp blk).2.deref (mp.rawData r)) =
          mappingSamples cfg mp blk r := by
  set desc : ResultDesc w := { stable := false, name := "overhead", ignored := 1, overhead := 0 }
  set blk₁ := (processArray cfg mp.runs MappingArray.overheadBenchmarks desc blk).2 with hblk₁
  have hsame : ∀ i j, blk₁.array (.benchmarksResult i j) = blk.array (.benchmarksResult i j) :=
    fun i j => keeps_processArray (by simp) cfg mp.runs desc blk
  set overhead := mappingOverhead cfg mp blk with hoverhead
  have hinj : Function.Injective2 MappingArray.benchmarksResult := fun _ _ _ _ h =>
    MappingArray.benchmarksResult.inj h
  obtain ⟨hresults, harrays⟩ := processTable hinj (fun i =>
    ({ name := mp.name i, overhead := overhead, ignored := 1 } : ResultDesc w)) cfg mp.runs
      mp.tests mp.nphase blk₁
  have hblk : (processMappingResults cfg mp blk).2 = (processMappingTable cfg mp overhead blk₁).2 :=
    rfl
  have htable : (processMappingTable cfg mp overhead blk₁).1.flatten =
      (List.range (mp.tests * mp.nphase)).map fun r =>
        calculateResults (mappingSamples cfg mp blk r) (mp.rawData r) := by
    refine hresults.trans (List.map_congr_left fun r _ => ?_)
    simp only [hsame]
    exact (processResult_mapping cfg mp _ _ overhead _ hruns hlt).1
  refine ⟨?_, fun r hr => ?_⟩
  · rw [hblk]
    change some (Json.array [resultSetToJson cfg (processMappingTable cfg mp overhead blk₁).2.deref
      { name := "Mapping Benchmark", extraCols := _,
        results := (processMappingTable cfg mp overhead blk₁).1.flatten }]) = _
    rw [htable, resultSetToJson, map_range_zipIdx, List.map_map]
    refine congrArg (fun rows => some (Json.array [.object
      [("Benchmark", .string "Mapping Benchmark"), ("Results", .array rows)]]))
      (List.map_congr_left fun r hr => ?_)
    have hr := List.mem_range.mp hr
    simp [getJsonCell, hr]
  · rw [hblk]
    refine Eq.trans ?_ (processResult_mapping cfg mp (blk.array (.benchmarksResult
      (r / mp.nphase) (r % mp.nphase))) (RawRef.block (w := w) (MappingArray.benchmarksResult
        (r / mp.nphase) (r % mp.nphase))) overhead (mp.name (r / mp.nphase)) hruns hlt).2
    refine List.map_congr_left fun i _ => ?_
    rw [← hsame]
    exact congrFun (harrays r hr) (1 + i)

end Rows

end Sel4bench
