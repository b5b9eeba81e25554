import Mathlib.Data.Nat.Sqrt
import Sel4bench.Driver.Processing

/-!
# The JSON output of the driver

`json.c` of the driver: a result set becomes an object with the name of the benchmark and one row
for each result, with the extra columns of the set in front of the statistics. The raw samples of
a row are read through the pointer of the result at the time of the call: an element of the output
array is therefore kept together with the results block at the moment it is appended.

## Main definitions

* `Sel4bench.Json` — the values of the JSON library.
* `Sel4bench.resultToJson`, `Sel4bench.resultSetToJson`, `Sel4bench.averageCountersToJson`.
* `Sel4bench.Emission`, `Sel4bench.Output` — the elements of the output array, and the array.
-/

namespace Sel4bench

variable {w : ℕ} {ρ : Type*}

/-- JSON values. The members of an object stand in the order in which they were set. -/
inductive Json
  | null
  | bool (b : Bool)
  | integer (i : ℤ)
  | real (d : Double)
  | string (s : String)
  | array (l : List Json)
  | object (members : List (String × Json))

/-- `json_integer` on an unsigned value: the conversion to the signed 64-bit `json_int_t`. -/
def jsonInteger (n : ℕ) : Json := .integer (BitVec.ofNat 64 n).toInt

/-- `nearbyint`: the nearest integer, halves to the even neighbour. -/
def nearbyint (q : ℚ) : ℤ :=
  let m := ⌊q⌋
  if Int.fract q < 1 / 2 then m
  else if 1 / 2 < Int.fract q then m + 1
  else if m % 2 = 0 then m else m + 1

/-- `nearbyint` on the square root of a nonnegative number. -/
def nearbyintSqrt (q : ℚ) : ℤ :=
  let m := Nat.sqrt ⌊q⌋.toNat
  if 4 * q < (2 * m + 1) ^ 2 then m
  else if (2 * m + 1) ^ 2 < 4 * q then m + 1
  else if m % 2 = 0 then m else m + 1

/-- `round_to_3_decimal_places`. -/
def roundTo3DecimalPlaces : Double → Double
  | .rat q => .rat (nearbyint (q * 1000) / 1000)
  | .sqrt q => .rat (nearbyintSqrt (q * 1000000) / 1000)
  | .inf => .inf
  | .nan => .nan

/-- `json_real_check`: the library has no reals for the special values. -/
def jsonRealCheck : Double → Json
  | .nan => .string "nan"
  | .inf => .string "inf"
  | val => .real val

/-- `result_to_json`, the members it adds to the row. -/
def resultToJson (cfg : Config) (deref : ρ → ℕ → Ccnt w) (result : Result ρ w) :
    List (String × Json) :=
  [("Min", jsonInteger result.min.toNat),
    ("Max", jsonInteger result.max.toNat),
    ("Mean", jsonRealCheck (.rat result.mean)),
    ("Stddev", jsonRealCheck (roundTo3DecimalPlaces result.stddev)),
    ("Variance", jsonRealCheck (.rat result.variance)),
    ("Mode", jsonRealCheck (.rat result.mode.toNat)),
    ("Median", jsonRealCheck (.rat result.median)),
    ("1st quantile", jsonRealCheck (.rat result.firstQuantile)),
    ("3rd quantile", jsonRealCheck (.rat result.thirdQuantile)),
    ("Samples", jsonInteger result.samples)] ++
  match cfg.outputRawResults, result.rawData with
  | true, some p =>
    [("Raw results",
      .array ((List.range result.samples).map fun i => jsonInteger (deref p i).toNat))]
  | _, _ => []

/-- The values of a column `column_t`, by the type of the column. -/
inductive ColumnValues
  | strings (v : List String)
  | integers (v : List ℤ)
  | reals (v : List ℚ)
  | bools (v : List Bool)

/-- `column_t`. -/
structure Column where
  header : String
  values : ColumnValues

/-- `get_json_cell`. -/
def getJsonCell (column : Column) (index : ℕ) : Json :=
  match column.values with
  | .strings v => .string (v.getD index "")
  | .integers v => .integer (v.getD index 0)
  | .reals v => jsonRealCheck (.rat (v.getD index 0))
  | .bools v => .bool (v.getD index false)

/-- `result_set_t`; the number of results is the length of the list. -/
structure ResultSet (ρ : Type*) (w : ℕ) where
  name : String
  extraCols : List Column := []
  results : List (Result ρ w)

/-- `result_set_to_json`. -/
def resultSetToJson (cfg : Config) (deref : ρ → ℕ → Ccnt w) (set : ResultSet ρ w) : Json :=
  .object [("Benchmark", .string set.name),
    ("Results", .array (set.results.zipIdx.map fun r =>
      .object (set.extraCols.map (fun c => (c.header, getJsonCell c r.2)) ++
        resultToJson cfg deref r.1)))]

/-- `average_counters_to_json`: one row for each generic event and one for the cycle counter. -/
def averageCountersToJson (cfg : Config) (deref : ρ → ℕ → Ccnt w) (name : String)
    (results : List (Result ρ w)) : Json :=
  .object [("Benchmark", .string name),
    ("Results", .array ((results.zip (cfg.genericEventNames ++ ["Cycle counter"])).map fun r =>
      .object (("Event", .string r.2) :: resultToJson cfg deref r.1)))]

section Driver

variable {A S : Type}

/-- What is written to the output in one piece. -/
inductive Content (A : Type) (w : ℕ)
  | resultSet (set : ResultSet (RawRef A w) w)
  | averageCounters (name : String) (results : List (Result (RawRef A w) w))

/-- The results in a piece of output. -/
def Content.results : Content A w → List (Result (RawRef A w) w)
  | .resultSet set => set.results
  | .averageCounters _ results => results

/-- An element of the output array: what is written, and the block at this moment. -/
structure Emission (A S : Type) (w : ℕ) where
  block : Block A S w
  content : Content A w

/-- The JSON value of an element. The raw results are read in the block of the element. -/
def Emission.toJson (cfg : Config) (e : Emission A S w) : Json :=
  match e.content with
  | .resultSet set => resultSetToJson cfg e.block.deref set
  | .averageCounters name results => averageCountersToJson cfg e.block.deref name results

/-- The output array of a driver function. -/
abbrev Output (A S : Type) (w : ℕ) := List (Emission A S w)

/-- `json_array_append_new(array, result_set_to_json(set))`. -/
def appendResultSet (array : Output A S w) (set : ResultSet (RawRef A w) w) :
    Driver A S w (Output A S w) := fun blk =>
  (array ++ [⟨blk, .resultSet set⟩], blk)

/-- `json_array_append_new(array, average_counters_to_json(name, results))`. -/
def appendAverageCounters (array : Output A S w) (name : String)
    (results : List (Result (RawRef A w) w)) : Driver A S w (Output A S w) := fun blk =>
  (array ++ [⟨blk, .averageCounters name results⟩], blk)

/-- The output array as a JSON value. -/
def Output.toJson (cfg : Config) (array : Output A S w) : Json :=
  .array (array.map (Emission.toJson cfg))

/-- What a driver function returns, from its output array; `none` is its null pointer. -/
def returnJson (cfg : Config) (x : Driver A S w (Option (Output A S w))) :
    Driver A S w (Option Json) := do
  let array ← x
  return array.map (Output.toJson cfg)

@[simp] theorem returnJson_apply (cfg : Config) (x : Driver A S w (Option (Output A S w)))
    (blk : Block A S w) :
    returnJson cfg x blk = ((x blk).1.map (Output.toJson cfg), (x blk).2) := rfl

end Driver

end Sel4bench
