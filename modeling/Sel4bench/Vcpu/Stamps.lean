import Sel4bench.Vcpu.Guest

/-!
# The loop of a benchmark of the guest

Everything but the name in the results of the loop of `guest_run_bm` is a function of the stamps
that the guest has obtained (`Sel4bench.Vcpu.Results.ofStamps`).

## Main definitions

* `Sel4bench.Vcpu.Results.ofStamps` — the results of the loop.
* `Sel4bench.Vcpu.Stamped` — the world after some iterations.

## Main results

* `Sel4bench.Vcpu.ends_guestRunBm_stamped`.
-/

namespace Sel4bench.Vcpu

open Total

variable {P : Platform}

/-- The loop of `guest_run_bm` on a sequence of stamps, with the name left empty. -/
def Results.ofStamps (l : List (Word × Word)) : Results :=
  l.zipIdx.foldl (fun r p => r.record p.2 p.1.1 p.1.2) Results.zero

theorem Results.ofStamps_concat (l : List (Word × Word)) (p : Word × Word) :
    Results.ofStamps (l ++ [p]) = (Results.ofStamps l).record l.length p.1 p.2 := by
  rw [ofStamps, List.zipIdx_append, List.foldl_append, Nat.zero_add]
  rfl

/-- The name plays no part in an iteration. -/
theorem Results.record_name (r : Results) (name : String) (i : ℕ) (start stop : Word) :
    { r with name := name }.record i start stop = { r.record i start stop with name := name } := by
  simp only [record, anomalyDetected]
  split_ifs <;> rfl

/-- Getting stamps changes nothing but the name in the results and the registers. -/
theorem ends_stampGetter (bm : Benchmark) (w : World) :
    Ends (stampGetter P bm) w fun _ w' =>
      (∃ name, w'.guestResults = { w.guestResults with name := name }) ∧
        w'.measured = w.measured ∧ w'.results = w.results ∧ w'.stored = w.stored ∧
        w'.exitStatus = w.exitStatus := by
  cases bm <;>
    simp [stampGetter, setName, readCcnt, cleanLogBuffer, readLogBuffer, vmmCall, vmmHandleHypcall,
      Hypcall.hasArgs]

/-- After `i` iterations of `guest_run_bm`: the stamps, the results that they determine, and what
the iterations leave alone. -/
structure Stamped (bm : Benchmark) (w : World) (i : ℕ) (l : List (Word × Word)) (w' : World) :
    Prop where
  length : l.length = i
  measured : w'.measured = w.measured ++ l.map (Prod.mk bm)
  guestResults : ∃ name, w'.guestResults = { Results.ofStamps l with name := name }
  results : w'.results = w.results
  stored : w'.stored = w.stored
  exitStatus : w'.exitStatus = w.exitStatus

theorem Stamped.start (bm : Benchmark) (w : World) :
    Stamped bm w 0 [] { w with guestResults := Results.zero } where
  length := rfl
  measured := (List.append_nil _).symm
  guestResults := ⟨"", rfl⟩
  results := rfl
  stored := rfl
  exitStatus := rfl

theorem Stamped.step {bm : Benchmark} {w w' : World} {i : ℕ} {l : List (Word × Word)}
    (h : Stamped bm w i l w') :
    Ends (guestRunBmIteration P bm i) w' fun _ w'' => ∃ l', Stamped bm w (i + 1) l' w'' := by
  rw [guestRunBmIteration, ends_bind]
  refine (ends_stampGetter bm w').mono fun stamps v hv => ?_
  obtain ⟨⟨name, hname⟩, hmeasured, hresults, hstored, hexit⟩ := hv
  obtain ⟨name', hname'⟩ := h.guestResults
  have hv : v.guestResults = { Results.ofStamps l with name := name } := by rw [hname, hname']
  rw [ends_modify]
  refine ⟨l ++ [stamps], ?_, ?_, ⟨name, ?_⟩, hresults.trans h.results, hstored.trans h.stored,
    hexit.trans h.exitStatus⟩
  · rw [List.length_append, h.length, List.length_singleton]
  · rw [hmeasured, h.measured, List.map_append, List.map_singleton, List.append_assoc]
  · rw [Results.ofStamps_concat, h.length]
    exact (congrArg (fun r => r.record i stamps.1 stamps.2) hv).trans (Results.record_name ..)

theorem ends_guestRunBm_stamped (bm : Benchmark) (w : World) :
    Ends ((List.range P.nIterations).forM (guestRunBmIteration P bm))
      { w with guestResults := Results.zero } fun _ w' => ∃ l, Stamped bm w P.nIterations l w' :=
  Ends.forM_range (fun i w' => ∃ l, Stamped bm w i l w') ⟨[], Stamped.start bm w⟩
    fun _ _ _ h => h.elim fun _ h => h.step

end Sel4bench.Vcpu
