import Sel4bench.Driver.Benchmarks
import Sel4bench.Driver.Ipc

/-!
# Unstable overheads

Four driver functions check the stability of the overheads that they subtract: the ones of the
IPC, fault, signal and scheduler benchmarks. The check fails in two ways. `process_ipc_results`
returns a null pointer, and the driver stops. The others learn of the failure only as a record
full of zeros from `process_result`, take its minimum as the overhead, and publish.

With `CONFIG_ALLOW_UNSTABLE_OVERHEAD` off, an unstable overhead therefore keeps results from
being published exactly in the IPC driver (`Sel4bench.unstable_eq_none_iff`).

## Main definitions

* `Sel4bench.RawResults` — a results block with a checked overhead.
* `Sel4bench.RawResults.process`, `Sel4bench.RawResults.checkedWindows`.

## Main results

* `Sel4bench.unstable_eq_none_iff`.
-/

namespace Sel4bench

variable {w : ℕ}

/-- The results blocks of the benchmarks whose driver function checks an overhead. -/
inductive RawResults (w : ℕ)
  | ipc (raw : IpcResults w)
  | fault (raw : FaultResults w)
  | signal (raw : SignalResults w)
  | scheduler (raw : SchedulerResults w)

namespace RawResults

/-- The value that the driver function returns. -/
def process (cfg : Config) : RawResults w → Option Json
  | .ipc raw => (processIpcResults cfg raw).1
  | .fault raw => (faultProcess cfg raw).1
  | .signal raw => (signalProcess cfg raw).1
  | .scheduler raw => (schedulerProcess cfg raw).1

/-- The samples on which the driver function calls `results_stable`, directly or by a description
with `stable` set. -/
def checkedWindows : RawResults w → List (List (Ccnt w))
  | .ipc raw => Overhead.all.map fun i => window (raw.array (.overheadBenchmarks i)) 1 (ipcRuns - 1)
  | .fault raw => [window (raw.array .replyRecvOverhead) nIgnored (nRuns - nIgnored),
      window (raw.array .ccntOverhead) nIgnored (nRuns - nIgnored)]
  | .signal raw => [window (raw.array .overhead) nIgnored (nRuns - nIgnored)]
  | .scheduler raw => [window (raw.array .overheadSignal) nIgnored (nRuns - nIgnored),
      window (raw.array .overheadCcnt) nIgnored (nRuns - nIgnored)]

/-- The block is processed by `process_ipc_results`. -/
def IsIpc : RawResults w → Prop
  | .ipc _ => True
  | _ => False

end RawResults

/-- All samples are equal. -/
def IsConstant (samples : List (Ccnt w)) : Prop := ∀ x ∈ samples, ∀ y ∈ samples, x = y

instance (samples : List (Ccnt w)) : Decidable (IsConstant samples) := by
  unfold IsConstant
  infer_instance

theorem isConstant_window (array : ℕ → Ccnt w) (offset size : ℕ) :
    IsConstant (window array offset size) ↔
      resultsStable (fun k => array (offset + k)) size = true := by
  rw [resultsStable_iff]
  constructor
  · intro h i hi
    exact h _ (mem_window.mpr ⟨i, hi, rfl⟩) _ (mem_window.mpr ⟨0, by omega, rfl⟩)
  · intro h x hx y hy
    obtain ⟨i, hi, rfl⟩ := mem_window.mp hx
    obtain ⟨j, hj, rfl⟩ := mem_window.mp hy
    rw [h i hi, h j hj]

section Publishes

variable {A S : Type} {α β : Type}

/-- The driver function never returns a null pointer. -/
def Publishes (x : Driver A S w (Option α)) : Prop := ∀ blk, (x blk).1 ≠ none

theorem Publishes.bind {x : Driver A S w β} {f : β → Driver A S w (Option α)}
    (h : ∀ b, Publishes (f b)) : Publishes (x >>= f) := fun blk => h (x blk).1 (x blk).2

theorem publishes_some (v : α) : Publishes (pure (some v) : Driver A S w (Option α)) :=
  fun _ => Option.some_ne_none v

theorem Publishes.returnJson {x : Driver A S w (Option (Output A S w))} (h : Publishes x)
    (cfg : Config) : Publishes (returnJson cfg x) := fun blk hnone =>
  h blk (Option.map_eq_none_iff.mp hnone)

end Publishes

/-- The drivers that go on with a record of zeros never return a null pointer. -/
theorem RawResults.process_ne_none (cfg : Config) {r : RawResults w} (h : ¬r.IsIpc) :
    r.process cfg ≠ none := by
  cases r with
  | ipc raw => exact absurd trivial h
  | fault raw =>
    have hpub : Publishes (faultOutput (w := w) cfg) := by
      unfold faultOutput
      repeat refine Publishes.bind fun _ => ?_
      exact publishes_some _
    exact hpub.returnJson cfg raw
  | signal raw =>
    have hpub : Publishes (signalOutput (w := w) cfg) := by
      unfold signalOutput
      repeat refine Publishes.bind fun _ => ?_
      exact publishes_some _
    exact hpub.returnJson cfg raw
  | scheduler raw =>
    have hpub : Publishes (schedulerOutput (w := w) cfg) := by
      unfold schedulerOutput
      repeat refine Publishes.bind fun _ => ?_
      exact publishes_some _
    exact hpub.returnJson cfg raw

/-- **Unstable overheads.** With `CONFIG_ALLOW_UNSTABLE_OVERHEAD` off, an overhead that is not
constant on its checked window makes the driver function return a null pointer exactly when the
function is the one of the IPC benchmark, or there is no such overhead. -/
theorem unstable_eq_none_iff (cfg : Config) (hoff : cfg.allowUnstableOverhead = false)
    (r : RawResults w) :
    ((∃ samples ∈ r.checkedWindows, ¬IsConstant samples) → r.process cfg = none) ↔
      r.IsIpc ∨ ∀ samples ∈ r.checkedWindows, IsConstant samples := by
  constructor
  · intro h
    by_cases hipc : r.IsIpc
    · exact Or.inl hipc
    · refine Or.inr fun samples hmem => ?_
      by_contra hunstable
      exact r.process_ne_none cfg hipc (h ⟨samples, hmem, hunstable⟩)
  · rintro (hipc | hstable) ⟨samples, hmem, hunstable⟩
    · cases r with
      | ipc raw =>
        obtain ⟨i, -, rfl⟩ := List.mem_map.mp hmem
        refine processIpcResults_eq_none cfg raw ⟨i, ?_⟩
        rw [isConstant_window, Bool.not_eq_true] at hunstable
        rw [overheadUsable, hunstable, hoff, Bool.false_or]
      | fault raw => exact hipc.elim
      | signal raw => exact hipc.elim
      | scheduler raw => exact hipc.elim
    · exact absurd (hstable samples hmem) hunstable

/-- A fault block in which one run of the overhead measurement is larger than the others. -/
def unstableFault : FaultResults 64 where
  array a k := if a = .replyRecvOverhead ∧ k = 20 then 9 else 7
  fields := ⟨⟨0, 0, 100⟩, 0, ⟨0, 0, 100⟩, 0, ⟨0, 0, 100⟩, 0⟩

/-- The fault driver publishes in spite of an unstable overhead. -/
theorem unstableFault_published :
    Config.plain.allowUnstableOverhead = false ∧
      (∃ samples ∈ (RawResults.fault unstableFault).checkedWindows, ¬IsConstant samples) ∧
      (RawResults.fault unstableFault).process Config.plain ≠ none := by
  refine ⟨rfl, ⟨_, List.mem_cons_self, fun h => ?_⟩, RawResults.process_ne_none _ id⟩
  have h' := h (unstableFault.array .replyRecvOverhead (10 + 10))
    (mem_window.mpr ⟨10, by decide, rfl⟩) (unstableFault.array .replyRecvOverhead (10 + 0))
    (mem_window.mpr ⟨0, by decide, rfl⟩)
  exact absurd h' (by decide)

/-- The condition at the unstable fault block. -/
theorem unstable_eq_none_iff_unstableFault :
    Config.plain.allowUnstableOverhead = false ∧
      (((∃ samples ∈ (RawResults.fault unstableFault).checkedWindows, ¬IsConstant samples) →
          (RawResults.fault unstableFault).process Config.plain = none) ↔
        (RawResults.fault unstableFault).IsIpc ∨
          ∀ samples ∈ (RawResults.fault unstableFault).checkedWindows, IsConstant samples) :=
  ⟨rfl, unstable_eq_none_iff Config.plain rfl _⟩

end Sel4bench
