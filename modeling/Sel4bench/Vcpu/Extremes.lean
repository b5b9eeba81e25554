import Mathlib.Order.Bounds.Basic
import Sel4bench.Vcpu.Transfer

/-!
# The least and the greatest elapsed time of a benchmark of the guest

`guest_run_bm` clears its results with `memset` and then updates `min` and `max` in every
iteration. The cleared `max` is below every elapsed time, so that the final one is the greatest;
the cleared `min` is below every elapsed time too, so that it stays zero, and is the least only
if an elapsed time is zero (`Sel4bench.Vcpu.guestRunBm_extremes_iff`).

## Main definitions

* `Sel4bench.Vcpu.elapsedTimes`.
* `Sel4bench.Vcpu.Extremes` — what the loop knows of `min` and `max`.

## Main results

* `Sel4bench.Vcpu.guestRunBm_extremes_iff`.
-/

namespace Sel4bench.Vcpu

open Total

variable {P : Platform}

/-- The elapsed times of a list of stamps. -/
def elapsedTimes (l : List (Word × Word)) : List Word := l.map fun p => p.2 - p.1

theorem elapsedTimes_concat (l : List (Word × Word)) (start stop : Word) :
    elapsedTimes (l ++ [(start, stop)]) = elapsedTimes l ++ [stop - start] := by
  rw [elapsedTimes, List.map_append]
  rfl

theorem zero_le_word (x : Word) : 0 ≤ x := BitVec.le_def.mpr (Nat.zero_le _)

/-- After the elapsed times `l`, starting from zero. -/
structure Extremes (l : List Word) (r : Results) : Prop where
  min : r.min = 0
  le_max : ∀ x ∈ l, x ≤ r.max
  max_mem : r.max ∈ l ∨ r.max = 0

theorem Extremes.zero : Extremes [] Results.zero where
  min := rfl
  le_max := by simp
  max_mem := .inr rfl

@[simp]
theorem Results.record_min (r : Results) (i : ℕ) (start stop : Word) :
    (r.record i start stop).min = if r.min < stop - start then r.min else stop - start := by
  simp only [Results.record]
  split <;> split <;> rfl

@[simp]
theorem Results.record_max (r : Results) (i : ℕ) (start stop : Word) :
    (r.record i start stop).max = if r.max > stop - start then r.max else stop - start := by
  simp only [Results.record]
  split <;> split <;> rfl

/-- An iteration: zero stays the minimum, the maximum is moved to a greater elapsed time. -/
theorem Extremes.record {l : List Word} {r : Results} (h : Extremes l r) (i : ℕ)
    (start stop : Word) : Extremes (l ++ [stop - start]) (r.record i start stop) where
  min := by
    rw [Results.record_min, h.min]
    split_ifs with hpos
    · rfl
    · exact BitVec.le_antisymm (BitVec.not_lt.mp hpos) (zero_le_word _)
  le_max x hx := by
    rw [List.mem_append, List.mem_singleton] at hx
    rw [Results.record_max]
    split_ifs with hgt
    · rcases hx with hx | rfl
      · exact h.le_max x hx
      · exact BitVec.le_of_lt hgt
    · rcases hx with hx | rfl
      · exact BitVec.le_trans (h.le_max x hx) (BitVec.not_lt.mp hgt)
      · exact BitVec.le_refl _
  max_mem := by
    rw [Results.record_max, List.mem_append, List.mem_singleton]
    split_ifs with hgt
    · exact h.max_mem.imp_left .inl
    · exact .inl (.inr rfl)

/-- After at least one iteration the maximum is attained. -/
theorem Extremes.isGreatest {l : List Word} {r : Results} (h : Extremes l r) (hl : l ≠ []) :
    IsGreatest {x | x ∈ l} r.max := by
  refine ⟨?_, h.le_max⟩
  rcases h.max_mem with hmem | hzero
  · exact hmem
  · -- All elapsed times are zero.
    obtain ⟨x, hx⟩ := List.exists_mem_of_ne_nil l hl
    have hle := h.le_max x hx
    rw [hzero] at hle ⊢
    exact BitVec.le_antisymm hle (zero_le_word x) ▸ hx

theorem Extremes.isLeast_iff {l : List Word} {r : Results} (h : Extremes l r) :
    IsLeast {x | x ∈ l} r.min ↔ 0 ∈ l := by
  rw [h.min]
  exact ⟨fun hleast => hleast.1, fun hmem => ⟨hmem, fun x _ => zero_le_word x⟩⟩

theorem extremes_ofStamps (l : List (Word × Word)) :
    Extremes (elapsedTimes l) (Results.ofStamps l) := by
  induction l using List.reverseRecOn with
  | nil => exact Extremes.zero
  | append_singleton l p ih =>
    rw [Results.ofStamps_concat, elapsedTimes_concat]
    exact ih.record l.length p.1 p.2

/-! ### Running a benchmark -/

theorem Extremes.congr {l : List Word} {r r' : Results} (h : Extremes l r) (hmin : r'.min = r.min)
    (hmax : r'.max = r.max) : Extremes l r' where
  min := hmin.trans h.min
  le_max x hx := hmax ▸ h.le_max x hx
  max_mem := hmax ▸ h.max_mem

/-- After `i` iterations of `guest_run_bm`: the stamps, and the extremes of the times between
them. -/
structure Measuring (bm : Benchmark) (w : World) (i : ℕ) (l : List (Word × Word)) (w' : World) :
    Prop where
  length : l.length = i
  measured : w'.measured = w.measured ++ l.map (Prod.mk bm)
  extremes : Extremes (elapsedTimes l) w'.guestResults

theorem Stamped.measuring {bm : Benchmark} {w w' : World} {i : ℕ} {l : List (Word × Word)}
    (h : Stamped bm w i l w') : Measuring bm w i l w' := by
  obtain ⟨name, hname⟩ := h.guestResults
  refine ⟨h.length, h.measured, ?_⟩
  rw [hname]
  exact (extremes_ofStamps l).congr rfl rfl

/-- `guest_run_bm` ends, with the extremes of all its iterations. -/
theorem ends_guestRunBm_extremes (bm : Benchmark) (w : World) :
    Ends (guestRunBm P bm) w fun _ w' => ∃ l, Measuring bm w P.nIterations l w' := by
  have hloop : Ends ((List.range P.nIterations).forM (guestRunBmIteration P bm))
      { w with guestResults := Results.zero } fun _ w' => ∃ l, Measuring bm w P.nIterations l w' :=
    (ends_guestRunBm_stamped bm w).mono fun _ _ h => h.imp fun _ h => h.measuring
  refine ends_guestRunBm_of_loop (hloop.mono fun _ w' ⟨l, h⟩ _ _ => ?_)
  exact ⟨l, h.length, h.measured, h.extremes.congr rfl rfl⟩

/-- **The reported extremes.** After `guest_run_bm`, whatever stamps it has obtained: the maximum
is the greatest of the elapsed times, and both extremes are attained bounds of them if and only if
one of the elapsed times is zero. -/
theorem guestRunBm_extremes_iff (P : Platform) (bm : Benchmark) (w : World) :
    ∃ w' l, guestRunBm P bm w = some ((), w') ∧
      w'.measured = w.measured ++ l.map (Prod.mk bm) ∧ l.length = P.nIterations ∧
      IsGreatest {x | x ∈ elapsedTimes l} w'.guestResults.max ∧
      (IsLeast {x | x ∈ elapsedTimes l} w'.guestResults.min ∧
          IsGreatest {x | x ∈ elapsedTimes l} w'.guestResults.max ↔ 0 ∈ elapsedTimes l) := by
  obtain ⟨w', hrun, l, h⟩ := (ends_guestRunBm_extremes (P := P) bm w).exists_run
  have hne : elapsedTimes l ≠ [] := by
    have hpos := P.nIterations_pos
    rw [← h.length] at hpos
    simpa [elapsedTimes] using List.ne_nil_of_length_pos hpos
  have hmax := h.extremes.isGreatest hne
  refine ⟨w', l, hrun, h.measured, h.length, hmax, ?_⟩
  rw [h.extremes.isLeast_iff]
  exact and_iff_left hmax

/-- A cycle counter that has moved on by five cycles at every reading, and one iteration. -/
def everyFive : Platform where
  ccnt n := 5 * BitVec.ofNat 64 n
  kernelLog _ := (0, 0)
  nIterations := 1
  nIterations_pos := Nat.one_pos
  nIterations_lt := by decide

/-- The guest and the monitor before a benchmark. -/
def World.blank : World where
  guestMr _ := 0
  vmmMr _ := 0
  guestResults := Results.zero
  results _ := Results.zero.deepData

/-- The only elapsed time is five cycles, and the minimum is zero. -/
theorem everyFive_min :
    ∃ w', guestRunBm everyFive .hvcNullSyscall World.blank = some ((), w') ∧
      w'.measured = [(.hvcNullSyscall, 0, 5)] ∧
      ¬IsLeast {x | x ∈ elapsedTimes [(0, 5)]} w'.guestResults.min := by
  refine ⟨_, rfl, rfl, fun h => ?_⟩
  exact absurd h.1 (by decide)

end Sel4bench.Vcpu
