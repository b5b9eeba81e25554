import Sel4bench.Driver.PageMapping
import Sel4bench.PageMapping.Collect

/-!
# The labels of the page mapping results

The results block that the threads of the benchmark fill is the one that the driver processes. A
result is measured by the child process, sent in message registers, received in the order of the
phases, stored under test, phase and run, and processed under the index of a row.

## Main definitions

* `Sel4bench.PageMapping.resultsBlock` — the block that the driver gets.
* `Sel4bench.PageMapping.elapsed` — what the child process has measured.

## Main results

* `Sel4bench.PageMapping.rows_eq_elapsed` — the samples of every row, from the measurements.
-/

namespace Sel4bench.PageMapping

open Machine

variable {P : Platform}

/-- The constants of the threads. -/
def threadParams (mp : MappingParams) : Params where
  runs := mp.runs
  tests := mp.tests
  nphase := mp.nphase

/-- The element of `page_mapping_results_t` at an index of an array. -/
def element : MappingArray → ℕ → Var
  | .overheadBenchmarks, i => .overheadBenchmarks i
  | .benchmarksResult test phase, run => .benchmarksResult test phase run

/-- The results block that the driver gets. -/
def resultsBlock (mem : Var → Time P) : MappingResults P.ccntBits where
  array a k := mem (element a k)
  fields := ()

/-- The result that the child process has measured for a run, a test and a phase. -/
def elapsed (mp : MappingParams) (h : List (Machine.Event (sig P))) (run test phase : ℕ) :
    Option (Time P) :=
  (measurements h (run * mp.tests + test))[phase]?

/-- The samples of a row, when the main program is done. -/
theorem mappingSamples_eq_elapsed {cfg : Config} {mp : MappingParams} {mem : Var → Time P}
    {s : State (sig P)}
    (hreach : Reach (code P (threadParams mp)) (init P (threadParams mp) mem) s)
    (hdone : s.thread .parent = .halt) {r : ℕ} (hr : r < mp.tests * mp.nphase) :
    (mappingSamples cfg mp (resultsBlock s.kernel.mem) r).map some =
      (List.range (mp.runs - 1)).map fun i =>
        (elapsed mp (s.hist .child) (i + 1) (r / mp.nphase) (r % mp.nphase)).map
          (· - mappingOverhead cfg mp (resultsBlock s.kernel.mem)) := by
  rw [mappingSamples, List.map_map]
  refine List.map_congr_left fun i hi => ?_
  have hi := List.mem_range.mp hi
  have hphase : 0 < mp.nphase := Nat.pos_of_mul_pos_left (by omega : 0 < mp.tests * mp.nphase)
  have hmeasured : elapsed mp (s.hist .child) (i + 1) (r / mp.nphase) (r % mp.nphase) =
      some (s.kernel.mem (.benchmarksResult (r / mp.nphase) (r % mp.nphase) (i + 1))) :=
    mem_eq_measurements hreach hdone (i := i + 1) (show i + 1 < mp.runs by omega)
      (show r / mp.nphase < mp.tests from Nat.div_lt_of_lt_mul (by rwa [Nat.mul_comm]))
      (Nat.mod_lt r hphase)
  rw [hmeasured]
  rfl

/-- **The labels of the page mapping results.** For every table of tests and phases, every number
of runs and every interleaving of the child process and the main program: the main program can
always be done, and when it is, the driver emits for every test and phase the row that has their
labels and whose samples are what the child process has measured for them in the runs after the
first, without the least overhead. The raw samples that are read when the row is emitted are these
samples. -/
theorem rows_eq_elapsed (cfg : Config) (mp : MappingParams) (hruns : 2 ≤ mp.runs)
    (hlt : mp.runs < 2 ^ 31) (mem : Var → Time P) {s : State (sig P)}
    (hreach : Reach (code P (threadParams mp)) (init P (threadParams mp) mem) s) :
    (∃ s', Reach (code P (threadParams mp)) s s' ∧ s'.thread .parent = .halt) ∧
      (s.thread .parent = .halt →
        let out := processMappingResults cfg mp (resultsBlock s.kernel.mem)
        ∃ (overhead : Time P) (samples : ℕ → List (Time P)),
          IsLeast {x | ∃ i, 1 ≤ i ∧ i < mp.runs ∧ x = s.kernel.mem (.overheadBenchmarks i)}
            overhead ∧
          (∀ r < mp.tests * mp.nphase, (samples r).map some =
            (List.range (mp.runs - 1)).map fun i =>
              (elapsed mp (s.hist .child) (i + 1) (r / mp.nphase) (r % mp.nphase)).map
                (· - overhead)) ∧
          out.1 = some (.array [.object [("Benchmark", .string "Mapping Benchmark"),
            ("Results", .array ((List.range (mp.tests * mp.nphase)).map fun r => .object
              ([("Num of Page Mapped", .integer (mp.npage (r / mp.nphase))),
                ("Phase", .string (mp.phaseName.getD (r % mp.nphase) ""))] ++
                resultToJson cfg out.2.deref
                  (calculateResults (samples r) (mp.rawData r)))))]]) ∧
          ∀ r < mp.tests * mp.nphase,
            (List.range (mp.runs - 1)).map (out.2.deref (mp.rawData r)) = samples r) := by
  refine ⟨exists_reach_done hreach, fun hdone => ?_⟩
  obtain ⟨hrows, hraw⟩ :=
    processMappingResults_eq cfg mp (resultsBlock s.kernel.mem) hruns hlt
  exact ⟨mappingOverhead cfg mp (resultsBlock s.kernel.mem),
    mappingSamples cfg mp (resultsBlock s.kernel.mem),
    mappingOverhead_isLeast cfg mp (resultsBlock s.kernel.mem) hruns hlt,
    fun r hr => mappingSamples_eq_elapsed hreach hdone hr, hrows, hraw⟩

/-- A 64-bit platform. -/
def Platform.aarch64 : Platform := ⟨64, 1, by decide, by decide⟩

/-- With the constants of the source there is a run in which the main program is done, and then the
first row has the samples of the first test and phase. -/
theorem rows_eq_elapsed_source : ∃ s : State (sig Platform.aarch64),
    s.thread .parent = .halt ∧ ∃ (overhead : Time Platform.aarch64)
      (samples : List (Time Platform.aarch64)),
      samples.map some = (List.range 16).map fun i =>
        (elapsed .source (s.hist .child) (i + 1) 0 0).map (· - overhead) := by
  obtain ⟨s, hreach, hdone⟩ := (rows_eq_elapsed .plain .source (by decide) (by decide)
    (fun _ => (0 : Time Platform.aarch64)) Relation.ReflTransGen.refl).1
  obtain ⟨overhead, samples, -, hsamples, -⟩ := (rows_eq_elapsed .plain .source (by decide)
    (by decide) (fun _ => (0 : Time Platform.aarch64)) hreach).2 hdone
  exact ⟨s, hdone, overhead, samples 0, hsamples 0 (by decide)⟩

end Sel4bench.PageMapping
