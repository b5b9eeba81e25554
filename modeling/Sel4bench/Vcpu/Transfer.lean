import Sel4bench.Vcpu.Stamps

/-!
# The measurements of the guest reach the results

## Main definitions

* `Sel4bench.Vcpu.World.stamps` — the stamps that the guest has obtained in a benchmark.
* `Sel4bench.Vcpu.DeepData.Holds` — arrays hold a list of stamps.

## Main results

* `Sel4bench.Vcpu.guestMain_transfers` — when the guest has exited, the results hold its stamps.
-/

namespace Sel4bench.Vcpu

open Total

/-! ### Arrays of measurements -/

/-- The arrays hold the stamps, and the times between them, from index zero on. -/
def DeepData.Holds (d : DeepData) (l : List (Word × Word)) : Prop :=
  ∀ (i : ℕ) (p : Word × Word), l[i]? = some p →
    d.start i = p.1 ∧ d.stop i = p.2 ∧ d.elapsed i = p.2 - p.1

/-- The arrays agree outside of the first `n` elements. -/
def DeepData.SameAbove (n : ℕ) (d d' : DeepData) : Prop :=
  ∀ i, ¬(0 ≤ i ∧ i < (n : ℤ)) →
    d'.start i = d.start i ∧ d'.stop i = d.stop i ∧ d'.elapsed i = d.elapsed i

theorem DeepData.holds_nil (d : DeepData) : d.Holds [] := by
  intro i p h
  simp at h

/-- Storing the next measurement. -/
theorem DeepData.Holds.set {d : DeepData} {l : List (Word × Word)} (h : d.Holds l)
    (start stop : Word) : (d.set l.length start stop).Holds (l ++ [(start, stop)]) := by
  intro i p hp
  rcases lt_trichotomy i l.length with hi | rfl | hi
  · rw [List.getElem?_append_left hi] at hp
    have hne : (i : ℤ) ≠ l.length := by omega
    simpa [DeepData.set, Function.update_of_ne hne] using h i p hp
  · obtain rfl : (start, stop) = p := by simpa using hp
    simp [DeepData.set]
  · rw [List.getElem?_eq_none (by simp; omega)] at hp
    simp at hp

theorem DeepData.SameAbove.refl (n : ℕ) (d : DeepData) : d.SameAbove n d :=
  fun _ _ => ⟨rfl, rfl, rfl⟩

theorem DeepData.SameAbove.set {n : ℕ} {d d' : DeepData} (h : d.SameAbove n d') {i : ℕ}
    (hi : i < n) (start stop : Word) : d.SameAbove n (d'.set i start stop) := by
  intro j hj
  have hne : j ≠ (i : ℤ) := by omega
  simpa [DeepData.set, Function.update_of_ne hne] using h j hj

variable {P : Platform}

/-! ### Getting the stamps -/

/-- What a piece of the guest's code leaves unchanged that only obtains stamps. -/
structure Keeps (w w' : World) : Prop where
  deepData : w'.guestResults.deepData = w.guestResults.deepData
  nAnomalies : w'.guestResults.nAnomalies = w.guestResults.nAnomalies
  results : w'.results = w.results
  stored : w'.stored = w.stored
  measured : w'.measured = w.measured
  exitStatus : w'.exitStatus = w.exitStatus

theorem ends_cDiv {x y : Word} {w : World} {Q : Word → World → Prop} (hy : y ≠ 0)
    (h : Q (x / y) w) : Ends (cDiv x y) w Q := by
  rw [cDiv, if_neg hy]
  exact ends_pure.mpr h

/-! ### Running a benchmark -/

/-- The stamps that the guest has obtained in a benchmark, in the order of the iterations. -/
def World.stamps (w : World) (bm : Benchmark) : List (Word × Word) :=
  (w.measured.filter fun m => m.1 = bm).map Prod.snd

/-- A value of type `int` that is not negative keeps its value as a word. -/
theorem toNat_ofCInt {n : ℕ} (hn : n < 2 ^ 31) : (ofCInt n).toNat = n := by
  rw [ofCInt, BitVec.ofInt_natCast, BitVec.toNat_ofNat, Nat.mod_eq_of_lt (by omega)]

/-- A value of type `int` that is positive is not zero as a word. -/
theorem ofCInt_ne_zero {n : ℤ} (h0 : 0 < n) (hn : n < 2 ^ 31) : ofCInt n ≠ 0 := by
  intro h
  lift n to ℕ using h0.le
  have hnat := toNat_ofCInt (by omega : n < 2 ^ 31)
  rw [h, BitVec.ofNat_eq_ofNat, BitVec.toNat_zero] at hnat
  omega

@[simp]
theorem Results.record_deepData (r : Results) (i : ℕ) (start stop : Word) :
    (r.record i start stop).deepData = r.deepData.set i start stop := by
  simp only [Results.record]
  split <;> split <;> rfl

/-- The first iteration is no anomaly. -/
theorem Results.record_nAnomalies_zero (r : Results) (start stop : Word) :
    (r.record 0 start stop).nAnomalies = r.nAnomalies := by
  simp [Results.record]

theorem Results.record_nAnomalies_le (r : Results) (i : ℕ) (start stop : Word) :
    (r.record i start stop).nAnomalies.toNat ≤ r.nAnomalies.toNat + 1 := by
  have hone : (1 : BitVec 32).toNat = 1 := rfl
  simp only [Results.record]
  split <;> split <;> simp only [BitVec.toNat_add, hone] <;> omega

/-- The buffer holds the stamps. -/
theorem Results.holds_ofStamps (l : List (Word × Word)) :
    (Results.ofStamps l).deepData.Holds l := by
  induction l using List.reverseRecOn with
  | nil => exact DeepData.holds_nil _
  | append_singleton l p ih =>
    rw [ofStamps_concat, record_deepData]
    exact ih.set p.1 p.2

/-- Every iteration but the first may be an anomaly. -/
theorem Results.nAnomalies_ofStamps_le (l : List (Word × Word)) :
    (Results.ofStamps l).nAnomalies.toNat ≤ l.length - 1 := by
  induction l using List.reverseRecOn with
  | nil => exact Nat.le_refl _
  | append_singleton l p ih =>
    rw [ofStamps_concat, List.length_append, List.length_singleton]
    cases l with
    | nil => exact (congrArg BitVec.toNat (record_nAnomalies_zero _ p.1 p.2)).le
    | cons q l =>
      have hle := (Results.ofStamps (q :: l)).record_nAnomalies_le (q :: l).length p.1 p.2
      rw [List.length_cons] at ih hle ⊢
      omega

/-- After `i` iterations of `guest_run_bm` the buffer of the guest holds the stamps of these
iterations. -/
structure Running (bm : Benchmark) (w : World) (i : ℕ) (l : List (Word × Word)) (w' : World) :
    Prop where
  length : l.length = i
  measured : w'.measured = w.measured ++ l.map (Prod.mk bm)
  deepData : w'.guestResults.deepData.Holds l
  nAnomalies : w'.guestResults.nAnomalies.toNat ≤ i - 1
  results : w'.results = w.results
  stored : w'.stored = w.stored
  exitStatus : w'.exitStatus = w.exitStatus

/-- The buffer of the guest holds the stamps that determine its results. -/
theorem Stamped.running {bm : Benchmark} {w w' : World} {i : ℕ} {l : List (Word × Word)}
    (h : Stamped bm w i l w') : Running bm w i l w' := by
  obtain ⟨name, hname⟩ := h.guestResults
  refine ⟨h.length, h.measured, ?_, ?_, h.results, h.stored, h.exitStatus⟩
  · rw [hname]
    exact Results.holds_ofStamps l
  · rw [hname, ← h.length]
    exact Results.nAnomalies_ofStamps_le l

theorem ends_guestRunBm_loop (bm : Benchmark) (w : World) :
    Ends ((List.range P.nIterations).forM (guestRunBmIteration P bm))
      { w with guestResults := Results.zero } fun _ w' => ∃ l, Running bm w P.nIterations l w' :=
  (ends_guestRunBm_stamped bm w).mono fun _ _ h => h.imp fun _ h => h.running

/-- `guest_run_bm`: the averages exist, since the first iteration is no anomaly. -/
theorem ends_guestRunBm_of_loop {bm : Benchmark} {w : World} {R : World → Prop}
    (hloop : Ends ((List.range P.nIterations).forM (guestRunBmIteration P bm))
      { w with guestResults := Results.zero } fun _ w' =>
        ∀ clippedAvg completeAvg, R { w' with
          guestResults := { w'.guestResults with
            clippedAvg := clippedAvg, completeAvg := completeAvg } }) :
    Ends (guestRunBm P bm) w fun _ => R := by
  rw [guestRunBm, ends_bind, ends_modify, ends_bind]
  refine ((ends_guestRunBm_loop bm w).and hloop).mono fun _ w' ⟨⟨l, h⟩, hR⟩ => ?_
  have hpos := P.nIterations_pos
  have hlt := P.nIterations_lt
  have hle := h.nAnomalies
  have hint : w'.guestResults.nAnomalies.toInt = w'.guestResults.nAnomalies.toNat :=
    BitVec.toInt_eq_toNat_of_lt (by omega)
  simp only [ends_bind, ends_get]
  refine ends_cDiv (ofCInt_ne_zero (by omega) (by omega)) ?_
  refine ends_cDiv (ofCInt_ne_zero (by omega) (by omega)) ?_
  rw [ends_modify]
  exact hR _ _

theorem ends_guestRunBm (bm : Benchmark) (w : World) :
    Ends (guestRunBm P bm) w fun _ w' => ∃ l, Running bm w P.nIterations l w' := by
  refine ends_guestRunBm_of_loop ((ends_guestRunBm_loop bm w).mono fun _ w' ⟨l, h⟩ _ _ => ?_)
  exact ⟨l, h.length, h.measured, h.deepData, h.nAnomalies, h.results, h.stored, h.exitStatus⟩

/-! ### Reporting a benchmark -/

/-- The monitor decodes an index as the guest has encoded it. -/
theorem toInt_setWidth_ofCInt {i : ℕ} (hi : i < 2 ^ 31) :
    ((ofCInt i).setWidth 32).toInt = (i : ℤ) := by
  have hnat : ((ofCInt i).setWidth 32).toNat = i := by
    rw [BitVec.toNat_setWidth, toNat_ofCInt hi, Nat.mod_eq_of_lt (by omega)]
  rw [BitVec.toInt_eq_toNat_of_lt (by omega), hnat]

/-- The monitor decodes a benchmark as the guest has encoded it. -/
theorem toNat_setWidth_ofCInt (bm : Benchmark) :
    ((ofCInt bm.toNat).setWidth 32).toNat = bm.toNat := by
  cases bm <;> rfl

theorem Benchmark.toNat_lt (bm : Benchmark) : bm.toNat < nBenchmarks := by
  cases bm <;> decide

theorem Benchmark.toNat_injective : Function.Injective Benchmark.toNat := by
  intro bm bm' h
  cases bm <;> cases bm' <;> first | rfl | exact absurd h (by decide)

/-- `vmm_call_report_deep_results`: the monitor stores the stamps at the index of the guest. -/
theorem ends_vmmCallReportDeepResults (bm : Benchmark) {i : ℕ} (hi : i < P.nIterations)
    (start stop : Word) (w : World) :
    Ends (vmmCallReportDeepResults P bm i start stop) w fun _ w' =>
      w'.results = Function.update w.results bm.toNat ((w.results bm.toNat).set i start stop) ∧
      w'.stored = w.stored ++ [(bm.toNat, (i : ℤ))] ∧ w'.guestResults = w.guestResults ∧
      w'.measured = w.measured ∧ w'.exitStatus = w.exitStatus := by
  simp only [vmmCallReportDeepResults, vmmCall, Hypcall.hasArgs, if_true, ends_bind, ends_modify,
    vmmHandleHypcall, ends_get, cIndex, ends_cAssert, ends_set, ends_pure]
  have hbm := toNat_setWidth_ofCInt bm
  have hidx := toInt_setWidth_ofCInt (hi.trans P.nIterations_lt)
  refine ⟨hbm.trans_lt bm.toNat_lt, ?_, ?_, ?_, trivial, trivial, trivial⟩
  · have hrange : 0 ≤ (i : ℤ) ∧ (i : ℤ) < P.nIterations := by omega
    rwa [← hidx] at hrange
  · exact congrArg₂ (fun b idx => Function.update w.results b ((w.results b).set idx start stop))
      hbm hidx
  · exact congrArg₂ (fun b idx => w.stored ++ [(b, idx)]) hbm hidx

/-- `vmm_call_report_end_results`: the monitor only reads. -/
theorem ends_vmmCallReportEndResults (bm : Benchmark) (min max clippedAvg completeAvg clippedTotal
    completeTotal nAnomalies : Word) (w : World) :
    Ends (vmmCallReportEndResults P bm min max clippedAvg completeAvg clippedTotal completeTotal
      nAnomalies) w fun _ w' => w'.guestResults = w.guestResults ∧ Keeps w w' := by
  simp only [vmmCallReportEndResults, vmmCall, Hypcall.hasArgs, if_true, ends_bind, ends_modify,
    vmmHandleHypcall, ends_get, ends_cAssert, ends_pure]
  exact ⟨(toNat_setWidth_ofCInt bm).trans_lt bm.toNat_lt, trivial, rfl, rfl, rfl, rfl, rfl, rfl⟩

/-- The slots of the first `n` iterations of a benchmark. -/
def slots (bm : Benchmark) (n : ℕ) : List (ℕ × ℤ) :=
  (List.range n).map fun k : ℕ => (bm.toNat, (k : ℤ))

theorem slots_succ (bm : Benchmark) (n : ℕ) :
    slots bm (n + 1) = slots bm n ++ [(bm.toNat, (n : ℤ))] := by
  rw [slots, List.range_succ, List.map_append]
  rfl

/-- After `i` iterations of `guest_report_bm_results` the results hold the first `i` stamps. -/
structure Reporting (n : ℕ) (bm : Benchmark) (l : List (Word × Word)) (w : World) (i : ℕ)
    (w' : World) : Prop where
  holds : (w'.results bm.toNat).Holds (l.take i)
  above : (w.results bm.toNat).SameAbove n (w'.results bm.toNat)
  others : ∀ b, b ≠ bm.toNat → w'.results b = w.results b
  stored : w'.stored = w.stored ++ slots bm i
  guestResults : w'.guestResults = w.guestResults
  measured : w'.measured = w.measured
  exitStatus : w'.exitStatus = w.exitStatus

/-- An iteration of `guest_report_bm_results`. -/
theorem ends_guestReportIteration {bm : Benchmark} {l : List (Word × Word)} {w w' : World} {i : ℕ}
    (hl : l.length = P.nIterations) (hd : w.guestResults.deepData.Holds l)
    (hi : i < P.nIterations) (h : Reporting P.nIterations bm l w i w') :
    Ends (guestReportIteration P bm i) w' fun _ => Reporting P.nIterations bm l w (i + 1) := by
  obtain ⟨hstart, hstop, -⟩ := hd i l[i] (List.getElem?_eq_getElem (hl ▸ hi))
  simp only [guestReportIteration, ends_bind, ends_get, h.guestResults, hstart, hstop]
  refine (ends_vmmCallReportDeepResults bm hi l[i].1 l[i].2 w').mono ?_
  rintro - w'' ⟨hresults, hstored, hguest, hmeasured, hexit⟩
  refine ⟨?_, ?_, ?_, ?_, ?_, ?_, ?_⟩
  · have hset := h.holds.set l[i].1 l[i].2
    rw [List.length_take_of_le (by omega)] at hset
    rw [List.take_succ_eq_append_getElem (hl ▸ hi)]
    simpa [hresults] using hset
  · simpa [hresults] using h.above.set hi l[i].1 l[i].2
  · intro b hb
    rw [hresults, Function.update_of_ne hb, h.others b hb]
  · rw [hstored, h.stored, slots_succ, List.append_assoc]
  · exact hguest.trans h.guestResults
  · exact hmeasured.trans h.measured
  · exact hexit.trans h.exitStatus

theorem ends_guestReportBmResults {bm : Benchmark} {l : List (Word × Word)} {w : World}
    (hl : l.length = P.nIterations) (hd : w.guestResults.deepData.Holds l) :
    Ends (guestReportBmResults P bm) w fun _ =>
      Reporting P.nIterations bm l w P.nIterations := by
  simp only [guestReportBmResults, ends_bind, ends_get]
  refine (ends_vmmCallReportEndResults bm _ _ _ _ _ _ _ w).mono ?_
  rintro - w₁ ⟨hguest, hw₁⟩
  refine Ends.forM_range (Reporting P.nIterations bm l w) ?_ ?_
  · refine ⟨?_, ?_, ?_, ?_, hguest, hw₁.measured, hw₁.exitStatus⟩
    · exact DeepData.holds_nil _
    · rw [hw₁.results]
      exact DeepData.SameAbove.refl _ _
    · intro b _
      rw [hw₁.results]
    · simpa [slots] using hw₁.stored
  · intro i hi w' h
    exact ends_guestReportIteration hl hd hi h

/-! ### All benchmarks -/

/-- What running and reporting a benchmark does. -/
structure Reported (n : ℕ) (bm : Benchmark) (w : World) (l : List (Word × Word)) (w' : World) :
    Prop where
  length : l.length = n
  measured : w'.measured = w.measured ++ l.map (Prod.mk bm)
  holds : (w'.results bm.toNat).Holds l
  above : (w.results bm.toNat).SameAbove n (w'.results bm.toNat)
  others : ∀ b, b ≠ bm.toNat → w'.results b = w.results b
  stored : w'.stored = w.stored ++ slots bm n
  exitStatus : w'.exitStatus = w.exitStatus

theorem ends_guestRunAndReport (bm : Benchmark) (w : World) :
    Ends (guestRunAndReport P bm) w fun _ w' => ∃ l, Reported P.nIterations bm w l w' := by
  refine (ends_guestRunBm bm w).bind fun _ w₁ ⟨l, hrun⟩ => ?_
  refine (ends_guestReportBmResults hrun.length hrun.deepData).mono fun _ w' h => ?_
  refine ⟨l, hrun.length, ?_, ?_, ?_, ?_, ?_, ?_⟩
  · rw [h.measured, hrun.measured]
  · simpa [List.take_of_length_le hrun.length.le] using h.holds
  · rw [← hrun.results]
    exact h.above
  · intro b hb
    rw [h.others b hb, hrun.results]
  · rw [h.stored, hrun.stored]
  · rw [h.exitStatus, hrun.exitStatus]

/-- What the benchmarks done so far have transferred. -/
structure Transferred (n : ℕ) (w₀ : World) (done : List Benchmark) (w : World) : Prop where
  stored : w.stored = w₀.stored ++ done.flatMap fun bm => slots bm n
  length : ∀ bm ∈ done, (w.stamps bm).length = n
  rest : ∀ bm ∉ done, w.stamps bm = w₀.stamps bm
  holds : ∀ bm ∈ done, (w.results bm.toNat).Holds (w.stamps bm)
  above : ∀ b, (w₀.results b).SameAbove n (w.results b)
  others : ∀ b, (∀ bm ∈ done, b ≠ bm.toNat) → w.results b = w₀.results b

theorem World.stamps_append {w w' : World} {bm : Benchmark} {l : List (Word × Word)}
    (h : w'.measured = w.measured ++ l.map (Prod.mk bm)) (bm' : Benchmark) :
    w'.stamps bm' = w.stamps bm' ++ if bm = bm' then l else [] := by
  rw [World.stamps, h, List.filter_append, List.map_append, ← World.stamps]
  split_ifs with heq
  · simp [heq, List.filter_map, Function.comp_def]
  · simp [heq, List.filter_map, Function.comp_def]

/-- A further benchmark. Its stamps do not change those of the others. -/
theorem Transferred.step {n : ℕ} {w₀ w w' : World} {done : List Benchmark} {bm : Benchmark}
    {l : List (Word × Word)} (h : Transferred n w₀ done w) (h₀ : w₀.measured = [])
    (hnew : bm ∉ done) (hr : Reported n bm w l w') : Transferred n w₀ (done ++ [bm]) w' := by
  have hbm : w'.stamps bm = l := by
    rw [World.stamps_append hr.measured, if_pos rfl, h.rest bm hnew, World.stamps, h₀]
    rfl
  have hother : ∀ bm', bm' ≠ bm → w'.stamps bm' = w.stamps bm' := by
    intro bm' hne
    rw [World.stamps_append hr.measured, if_neg hne.symm, List.append_nil]
  refine ⟨?_, ?_, ?_, ?_, ?_, ?_⟩
  · rw [hr.stored, h.stored, List.flatMap_append, List.flatMap_singleton, List.append_assoc]
  · intro bm' hmem
    by_cases heq : bm' = bm
    · rw [heq, hbm, hr.length]
    · rw [hother bm' heq]
      exact h.length bm' (by simpa [heq] using hmem)
  · intro bm' hmem
    rw [List.mem_append, List.mem_singleton, not_or] at hmem
    rw [hother bm' hmem.2, h.rest bm' hmem.1]
  · intro bm' hmem
    by_cases heq : bm' = bm
    · rw [heq, hbm]
      exact hr.holds
    · rw [hother bm' heq, hr.others _ fun h => heq (Benchmark.toNat_injective h)]
      exact h.holds bm' (by simpa [heq] using hmem)
  · intro b
    by_cases heq : b = bm.toNat
    · subst heq
      rw [← h.others bm.toNat fun bm' hmem h => hnew (Benchmark.toNat_injective h ▸ hmem)]
      exact hr.above
    · rw [hr.others b heq]
      exact h.above b
  · intro b hb
    rw [hr.others b (hb bm (by simp)), h.others b fun bm' hmem => hb bm' (by simp [hmem])]

/-- The benchmarks in the order of `guest_run_benchmarks`. -/
def benchmarks : List Benchmark :=
  [.hvcPrivEscalate, .eretPrivDescalate, .hvcNullSyscall, .callSyscall, .replySyscall]

theorem benchmarks_nodup : benchmarks.Nodup := by decide

theorem mem_benchmarks (bm : Benchmark) : bm ∈ benchmarks := by
  cases bm <;> decide

theorem guestRunBenchmarks_eq : guestRunBenchmarks P = benchmarks.forM (guestRunAndReport P) := by
  simp [guestRunBenchmarks, benchmarks]

theorem ends_guestRunBenchmarks (w : World) (h₀ : w.measured = []) :
    Ends (guestRunBenchmarks P) w fun _ w' =>
      Transferred P.nIterations w benchmarks w' ∧ w'.exitStatus = w.exitStatus := by
  rw [guestRunBenchmarks_eq]
  refine Ends.forM (fun done w' => Transferred P.nIterations w done w' ∧
    w'.exitStatus = w.exitStatus) ?_ ?_
  · refine ⟨⟨by simp, by simp, fun _ _ => rfl, by simp, ?_, fun _ _ => rfl⟩, rfl⟩
    exact fun b => DeepData.SameAbove.refl _ _
  · rintro done bm todo hsplit w' ⟨h, hexit⟩
    have hnew : bm ∉ done := by
      have hnodup := hsplit ▸ benchmarks_nodup
      exact fun hmem => (List.nodup_append.mp hnodup).2.2 bm hmem bm (by simp) rfl
    refine (ends_guestRunAndReport bm w').mono fun _ w'' ⟨l, hr⟩ => ?_
    exact ⟨h.step h₀ hnew hr, hr.exitStatus.trans hexit⟩

/-! ### The whole guest -/

theorem ends_vmmPrintf (length : ℕ) (w : World) :
    Ends (vmmPrintf P length) w fun _ => Keeps w := by
  simp only [vmmPrintf, vmmCall, Hypcall.hasArgs, if_true, ends_bind, ends_modify,
    vmmHandleHypcall, ends_get, ends_pure]
  exact ⟨rfl, rfl, rfl, rfl, rfl, rfl⟩

theorem ends_vmmCallExitThread (w : World) :
    Ends (vmmCallExitThread P false 0 0) w fun _ w' => w'.exitStatus = some 0 ∧
      w'.results = w.results ∧ w'.stored = w.stored ∧ w'.measured = w.measured := by
  simp only [vmmCallExitThread, vmmCall, Hypcall.hasArgs, if_true, ends_bind, ends_modify,
    vmmHandleHypcall, ends_get, ends_set, ends_pure]
  exact ⟨rfl, trivial, trivial, trivial⟩

theorem mem_slots {bm : Benchmark} {n : ℕ} {slot : ℕ × ℤ} :
    slot ∈ slots bm n ↔ slot.1 = bm.toNat ∧ 0 ≤ slot.2 ∧ slot.2 < n := by
  obtain ⟨b, idx⟩ := slot
  simp only [slots, List.mem_map, List.mem_range, Prod.mk.injEq]
  constructor
  · rintro ⟨k, hk, rfl, rfl⟩
    omega
  · rintro ⟨rfl, h0, hn⟩
    exact ⟨idx.toNat, by omega, rfl, by omega⟩

theorem slots_nodup (bm : Benchmark) (n : ℕ) : (slots bm n).Nodup := by
  refine List.nodup_range.map fun i j h => ?_
  simpa using h

/-- The slots of different benchmarks are different. -/
theorem allSlots_nodup (n : ℕ) : (benchmarks.flatMap fun bm => slots bm n).Nodup := by
  rw [List.nodup_flatMap]
  refine ⟨fun bm _ => slots_nodup bm n, benchmarks_nodup.imp fun {bm bm'} hne => ?_⟩
  intro slot h h'
  exact hne (Benchmark.toNat_injective ((mem_slots.mp h).1.symm.trans (mem_slots.mp h').1))

/-- **The measurements are transferred.** When the guest has exited, every element of the results
below the number of iterations holds what the guest has measured in that iteration of that
benchmark. The monitor has stored to each of these elements once and to no others, and the others
are unchanged. -/
theorem guestMain_transfers (P : Platform) (length : ℕ) (w₀ : World) :
    ∃ w, guestMain P length { w₀ with stored := [], measured := [] } = some ((), w) ∧
      w.exitStatus = some 0 ∧
      (∀ bm, (w.stamps bm).length = P.nIterations) ∧
      (∀ (bm : Benchmark) (i : ℕ), i < P.nIterations →
        ∃ start stop, (w.stamps bm)[i]? = some (start, stop) ∧
          (w.results bm.toNat).start i = start ∧ (w.results bm.toNat).stop i = stop ∧
          (w.results bm.toNat).elapsed i = stop - start ∧
          w.stored.count (bm.toNat, (i : ℤ)) = 1) ∧
      (∀ slot ∈ w.stored, slot.1 < nBenchmarks ∧ 0 ≤ slot.2 ∧ slot.2 < P.nIterations) ∧
      ∀ b idx, (b, idx) ∉ w.stored → (w.results b).start idx = (w₀.results b).start idx ∧
        (w.results b).stop idx = (w₀.results b).stop idx ∧
        (w.results b).elapsed idx = (w₀.results b).elapsed idx := by
  set w₁ : World := { w₀ with stored := [], measured := [] } with hw₁
  have hends : Ends (guestMain P length) w₁ fun _ w => w.exitStatus = some 0 ∧
      ∃ w₂ w₃, Keeps w₁ w₂ ∧ Transferred P.nIterations w₂ benchmarks w₃ ∧
        w.results = w₃.results ∧ w.stored = w₃.stored ∧ w.measured = w₃.measured := by
    refine (ends_vmmPrintf length w₁).bind fun _ w₂ h₂ => ?_
    refine (ends_guestRunBenchmarks w₂ h₂.measured).bind fun _ w₃ ⟨h₃, _⟩ => ?_
    refine (ends_vmmCallExitThread w₃).mono fun _ w ⟨hexit, hkept⟩ => ?_
    exact ⟨hexit, w₂, w₃, h₂, h₃, hkept⟩
  obtain ⟨w, hrun, hexit, w₂, w₃, h₂, h₃, hresults, hstored, hmeasured⟩ := hends.exists_run
  have hstamps : ∀ bm, w.stamps bm = w₃.stamps bm := fun bm => by
    rw [World.stamps, World.stamps, hmeasured]
  have hslots : w.stored = benchmarks.flatMap fun bm => slots bm P.nIterations := by
    rw [hstored, h₃.stored, h₂.stored, hw₁, List.nil_append]
  have hlength : ∀ bm, (w.stamps bm).length = P.nIterations := fun bm => by
    rw [hstamps, h₃.length bm (mem_benchmarks bm)]
  refine ⟨w, hrun, hexit, hlength, fun bm i hi => ?_, fun slot hslot => ?_, fun b idx hidx => ?_⟩
  · have hsome := List.getElem?_eq_getElem (hi.trans_eq (hlength bm).symm)
    obtain ⟨hstart, hstop, helapsed⟩ :=
      h₃.holds bm (mem_benchmarks bm) i _ ((congrArg (·[i]?) (hstamps bm)).symm.trans hsome)
    rw [hresults, hslots]
    refine ⟨_, _, hsome, hstart, hstop, helapsed, ?_⟩
    refine List.count_eq_one_of_mem (allSlots_nodup _) (List.mem_flatMap.mpr ?_)
    exact ⟨bm, mem_benchmarks bm, mem_slots.mpr ⟨rfl, by omega, by simpa using hi⟩⟩
  · rw [hslots, List.mem_flatMap] at hslot
    obtain ⟨bm, _, hmem⟩ := hslot
    obtain ⟨hbm, hidx⟩ := mem_slots.mp hmem
    exact ⟨hbm ▸ bm.toNat_lt, hidx⟩
  · have hw₀ : w₀.results = w₂.results := h₂.results.symm
    rw [hresults, hw₀]
    by_cases hin : 0 ≤ idx ∧ idx < (P.nIterations : ℤ)
    · rw [h₃.others b fun bm hmem hb => hidx ?_]
      · exact ⟨rfl, rfl, rfl⟩
      · rw [hslots, List.mem_flatMap]
        exact ⟨bm, hmem, mem_slots.mpr ⟨hb, hin⟩⟩
    · exact h₃.above b idx hin

end Sel4bench.Vcpu
