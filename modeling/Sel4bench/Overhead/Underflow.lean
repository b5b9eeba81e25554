import Sel4bench.Overhead.Subtraction

/-!
# Samples below the overhead

`process_result` subtracts the overhead from every sample in unsigned arithmetic and compares
nothing. The subtraction wraps exactly at the samples that are below the overhead, although the
overhead is the minimum of its own samples (`Sel4bench.hardwareOverhead_isLeast` and its siblings):
the samples of a benchmark are measured by another loop. Where no sample is below the overhead, the
extremes that are reported stay below the raw samples.

## Main definitions

* `Sel4bench.Plan.Covers` — no sample is below the overhead that is subtracted from it.
* `Sel4bench.Plan.Bounds` — the extremes of the rows that are written are at most raw samples.

## Main results

* `Sel4bench.Plan.Writes.bounds` — what is written of a block without samples below the overhead.
* `Sel4bench.subtraction_bounded`.
-/

namespace Sel4bench

variable {w : ℕ} {A S : Type}

/-- A difference is exact unless the counter is below what is subtracted. -/
theorem toNat_sub_add_toNat_iff (x o : Ccnt w) :
    (x - o).toNat + o.toNat = x.toNat ↔ o ≤ x := by
  constructor
  · intro h
    exact BitVec.le_def.mpr (h ▸ Nat.le_add_left _ _)
  · intro h
    rw [BitVec.toNat_sub_of_le h]
    exact Nat.sub_add_cancel (BitVec.le_def.mp h)

theorem sub_le_of_le {x o : Ccnt w} (h : o ≤ x) : x - o ≤ x := by
  rw [BitVec.le_def, BitVec.toNat_sub_of_le h]
  exact Nat.sub_le _ _

theorem div_le (x d : Ccnt w) : x / d ≤ x := by
  rw [BitVec.le_def, BitVec.toNat_udiv]
  exact Nat.div_le_self _ _

namespace Plan

variable (plan : Plan A w) (blk : Block A S w)

/-- No sample is below the overhead that is subtracted from it. -/
def Covers : Prop :=
  ∀ a overhead, plan.change a = .subtract overhead →
    ∀ k ∈ Set.Ico plan.ignored plan.runs, overhead ≤ blk.array a k

/-- The extremes of a row are at most a raw sample of the array that its pointer shows. Rows without
raw results have extremes `0`. -/
def BoundsRow (r : Result (RawRef A w) w) : Prop :=
  match r.rawData with
  | none => r.min = 0 ∧ r.max = 0
  | some (.block a _) => ∃ k ∈ Set.Ico plan.ignored plan.runs,
    r.min ≤ blk.array a k ∧ r.max ≤ blk.array a k
  | some (.heap _) => False

/-- The extremes of all rows are at most raw samples: for a result set, of the arrays of its rows,
for averages, of the columns of the table. -/
def Bounds : Content A w → Prop
  | .resultSet set => ∀ r ∈ set.results, plan.BoundsRow blk r
  | .averageCounters _ results => ∃ row ∈ plan.tables, ∀ col r, results[col]? = some r →
    ∃ i < plan.runs, r.min ≤ blk.array (row i) col ∧ r.max ≤ blk.array (row i) col

variable {plan blk}

/-- What the plan makes of a sample is not above the raw sample. -/
theorem Covers.apply_le (h : plan.Covers blk) (a : A) (k : ℕ) :
    plan.apply a (blk.array a) k ≤ blk.array a k := by
  unfold Plan.apply
  cases hchange : plan.change a with
  | keep => exact BitVec.le_refl _
  | subtract overhead =>
    dsimp only
    split_ifs with hk
    · exact sub_le_of_le (h a overhead hchange k hk)
    · exact BitVec.le_refl _
  | average =>
    dsimp only
    split_ifs with hk
    · exact div_le _ _
    · exact BitVec.le_refl _

/-- The subtraction of the plan is exact at a sample if and only if it is not below the
overhead. -/
theorem toNat_apply_add_iff {a : A} {overhead : Ccnt w}
    (hchange : plan.change a = .subtract overhead)
    (array : ℕ → Ccnt w) {k : ℕ} (hk : k ∈ Set.Ico plan.ignored plan.runs) :
    (plan.apply a array k).toNat + overhead.toNat = (array k).toNat ↔ overhead ≤ array k := by
  have happly : plan.apply a array k = array k - overhead := by
    rw [Plan.apply, hchange]
    exact if_pos hk
  rw [happly, toNat_sub_add_toNat_iff]

end Plan

/-- The extremes of some data, where every datum is at most the raw sample with its index. -/
theorem calculateResults_le {ρ : Type*} {data : List (Ccnt w)} (hne : data ≠ []) (p : ρ)
    (raw : ℕ → Ccnt w) (h : ∀ i, ∀ hi : i < data.length, data[i] ≤ raw i) :
    ∃ i < data.length, (calculateResults data p).min ≤ raw i ∧
      (calculateResults data p).max ≤ raw i := by
  obtain ⟨hmem, hmax⟩ := calculateResults_max_isGreatest hne p
  obtain ⟨i, hi, hget⟩ := List.mem_iff_getElem.mp hmem
  have hle : (calculateResults data p).max ≤ raw i := hget ▸ h i hi
  have hmin := hmax (calculateResults_min_isLeast hne p).1
  exact ⟨i, hi, BitVec.le_trans hmin hle, hle⟩

section Bounds

variable {cfg : Config} {plan : Plan A w} {blk₀ blk : Block A S w}

/-- A row of a result set, if no sample is below its overhead. -/
theorem Row.bounds {r : Result (RawRef A w) w} (h : Row cfg plan blk₀ blk r)
    (hcovers : plan.Covers blk₀) : plan.BoundsRow blk₀ r := by
  cases h with
  | zero => exact ⟨rfl, rfl⟩
  | early num sum sum2 => exact ⟨rfl, rfl⟩
  | block a h =>
    have hne : window (blk.array a) plan.ignored (plan.runs - plan.ignored) ≠ [] :=
      window_ne_nil (Nat.sub_pos_of_lt plan.ignored_lt)
    obtain ⟨i, hi, hbounds⟩ := calculateResults_le hne (RawRef.block (w := w) a plan.ignored)
      (fun i => blk₀.array a (plan.ignored + i)) fun i hi => by
        simp only [window, List.getElem_map, List.getElem_range, h]
        exact hcovers.apply_le a _
    rw [length_window] at hi
    exact ⟨plan.ignored + i, ⟨Nat.le_add_right _ _, by omega⟩, hbounds⟩

/-- A column of averages, which division does not raise. -/
theorem averageResults_bounds {row : ℕ → A} {rows cols col : ℕ} {r : Result (RawRef A w) w}
    (hrows : 0 < rows) (h : (averageResults blk₀ row rows cols)[col]? = some r) :
    ∃ i < rows, r.min ≤ blk₀.array (row i) col ∧ r.max ≤ blk₀.array (row i) col := by
  rw [averageResults, List.getElem?_map] at h
  obtain ⟨c, hc, rfl⟩ := Option.map_eq_some_iff.mp h
  obtain ⟨hlt, rfl⟩ := List.getElem?_eq_some_iff.mp hc
  rw [List.getElem_range]
  have hlength : (averageColumn blk₀ row rows col).length = rows := by simp [averageColumn]
  obtain ⟨i, hi, hbounds⟩ := calculateResults_le (averageColumn_ne_nil blk₀ row hrows col)
    (RawRef.heap (A := A) (averageColumn blk₀ row rows col))
    (fun i => blk₀.array (row i) col) fun i hi => by
      simp only [averageColumn, List.getElem_map, List.getElem_range]
      exact div_le _ _
  exact ⟨i, hlength ▸ hi, hbounds⟩

/-- **Rows without wrapped samples.** If no sample is below its overhead, the extremes of the rows
that are written are at most raw samples. -/
theorem Plan.Writes.bounds {e : Emission A S w} (h : plan.Writes cfg blk₀ e)
    (hcovers : plan.Covers blk₀) : plan.Bounds blk₀ e.content := by
  obtain ⟨blk, content⟩ := e
  cases content with
  | resultSet set => exact fun r hr => (h r hr).bounds hcovers
  | averageCounters name results =>
    obtain ⟨row, hrow, rfl⟩ := h
    exact ⟨row, hrow, fun col r hr =>
      averageResults_bounds (Nat.zero_lt_of_lt plan.ignored_lt) hr⟩

end Bounds

/-- Whenever the driver function returns a JSON value, the subtraction at a sample is exact if and
only if the sample is not below its overhead. If no sample is, the extremes of all rows that the
function has written to its output are at most raw samples. -/
def SubtractsBounded (cfg : Config) (plan : Plan A w) (process : Driver A S w (Option Json))
    (output : Driver A S w (Option (Output A S w))) (blk : Block A S w) : Prop :=
  ∀ json, (process blk).1 = some json →
    (∀ a overhead, plan.change a = .subtract overhead →
      ∀ k ∈ Set.Ico plan.ignored plan.runs,
        (((process blk).2.array a k).toNat + overhead.toNat = (blk.array a k).toNat ↔
          overhead ≤ blk.array a k)) ∧
      ∃ out, (output blk).1 = some out ∧ json = .array (out.map (Emission.toJson cfg)) ∧
        (plan.Covers blk → ∀ e ∈ out, plan.Bounds blk e.content)

theorem Follows.subtractsBounded {cfg : Config} {plan : Plan A w}
    {output : Driver A S w (Option (Output A S w))} {blk : Block A S w}
    (h : Follows cfg plan output blk) :
    SubtractsBounded cfg plan (returnJson cfg output) output blk := by
  intro json hjson
  rw [returnJson_apply] at hjson ⊢
  obtain ⟨out, hout, rfl⟩ := Option.map_eq_some_iff.mp hjson
  obtain ⟨harrays, hwrites⟩ := h out hout
  refine ⟨fun a overhead hchange k hk => ?_, out, hout, rfl, fun hcovers e he =>
    (hwrites e he).bounds hcovers⟩
  rw [harrays a]
  exact Plan.toNat_apply_add_iff hchange _ hk

/-- **Subtraction of a minimum overhead.** The five driver functions that subtract the minimum of
measured overheads. -/
theorem subtraction_bounded (cfg : Config) :
    (∀ blk : IpcResults w,
      SubtractsBounded cfg (ipcPlan cfg blk) (processIpcResults cfg) (ipcOutput cfg) blk) ∧
      (∀ blk : MappingResults w, SubtractsBounded cfg (mappingPlan cfg blk)
        (processMappingResults cfg .source) (mappingOutput cfg .source) blk) ∧
      (∀ blk : IrquserResults w,
        SubtractsBounded cfg (irquserPlan cfg blk) (irquserProcess cfg) (irquserOutput cfg) blk) ∧
      (∀ blk : SignalResults w,
        SubtractsBounded cfg (signalPlan cfg blk) (signalProcess cfg) (signalOutput cfg) blk) ∧
      ∀ blk : HardwareResults w, SubtractsBounded cfg (hardwarePlan cfg blk)
        (hardwareProcess cfg) (hardwareOutput cfg) blk :=
  ⟨fun blk => (ipcOutput_follows cfg blk).subtractsBounded,
    fun blk => (mappingOutput_follows cfg blk).subtractsBounded,
    fun blk => (irquserOutput_follows cfg blk).subtractsBounded,
    fun blk => (signalOutput_follows cfg blk).subtractsBounded,
    fun blk => (hardwareOutput_follows cfg blk).subtractsBounded⟩

/-- Null system calls of `t` cycles with an overhead of `7` cycles. -/
def syscallOf (t : Ccnt 64) : HardwareResults 64 where
  array a _ := if a = .nullSyscallOverhead then 7 else t
  fields := ⟨0, ⟨0, 0, 100⟩⟩

theorem hardwareOverhead_syscallOf (t : Ccnt 64) :
    hardwareOverhead Config.plain (syscallOf t) = 7 := by
  obtain ⟨⟨i, -, hmin⟩, -⟩ := processResult_min_counted Config.plain
    ((syscallOf t).array .nullSyscallOverhead)
    { stable := false, name := "Nop syscall overhead", ignored := nIgnored }
    (RawRef.block (w := 64) HardwareArray.nullSyscallOverhead)
    (fun h => absurd h Bool.false_ne_true) rfl rfl
  exact hmin.symm

/-- No sample of slow system calls is below its overhead. -/
theorem covers_syscallOf : (hardwarePlan Config.plain (syscallOf 20)).Covers (syscallOf 20) := by
  intro a overhead hchange k _
  cases a with
  | nullSyscallOverhead =>
    obtain rfl := Change.subtract.inj hchange
    exact BitVec.le_def.mpr (Nat.zero_le _)
  | nullSyscallResults =>
    obtain rfl := Change.subtract.inj hchange
    rw [hardwareOverhead_syscallOf]
    show (7 : Ccnt 64) ≤ 20
    decide

/-- The samples of slow system calls bound the extremes of all rows. -/
theorem subtraction_bounded_slow : ∃ out, (hardwareOutput Config.plain (syscallOf 20)).1 =
    some out ∧ out.length = 3 ∧
      ∀ e ∈ out, (hardwarePlan Config.plain (syscallOf 20)).Bounds (syscallOf 20) e.content := by
  obtain ⟨-, out, hout, -, hbounds⟩ :=
    (subtraction_bounded Config.plain).2.2.2.2 (syscallOf 20) _ rfl
  refine ⟨out, hout, ?_, hbounds covers_syscallOf⟩
  obtain rfl := Option.some.inj hout
  rfl

/-- The samples of fast system calls wrap, and exceed the raw samples. -/
theorem fastSyscall_wraps :
    (hardwareProcess Config.plain (syscallOf 3)).1 ≠ none ∧
      ∀ k ∈ Finset.Ico nIgnored nRuns, (syscallOf 3).array .nullSyscallResults k = 3 ∧
        (hardwareProcess Config.plain (syscallOf 3)).2.array .nullSyscallResults k =
          BitVec.ofNat 64 (2 ^ 64 - 4) := by
  refine ⟨Option.some_ne_none _, fun k hk => ⟨rfl, ?_⟩⟩
  rw [hardwareProcess_array _ _ hk, hardwareOverhead_syscallOf]
  show (3 : Ccnt 64) - 7 = BitVec.ofNat 64 (2 ^ 64 - 4)
  decide

end Sel4bench
