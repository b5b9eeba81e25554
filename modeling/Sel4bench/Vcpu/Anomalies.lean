import Mathlib.Algebra.BigOperators.Intervals
import Mathlib.Data.List.GetD
import Mathlib.Algebra.Order.Floor.Semifield
import Mathlib.Data.Rat.Floor
import Sel4bench.EarlyProcessing
import Sel4bench.Lib.RunningMean
import Sel4bench.Vcpu.Extremes

/-!
# Anomalies of the cycle counter

`guest_run_bm` compares every elapsed time with the one before it, in the arrays that the same loop
fills. An iteration whose time exceeds the previous one by the threshold is an anomaly: its time
counts for the complete total, but not for the clipped one. The first iteration is never an anomaly,
so that the clipped average is the quotient by a positive number of iterations.

The totals are sums over the anomalies and over the other iterations (`Sel4bench.Vcpu.Clipping`).

## Main definitions

* `Sel4bench.Vcpu.IsAnomaly`, `Sel4bench.Vcpu.anomalies`, `Sel4bench.Vcpu.regular`.
* `Sel4bench.Vcpu.Clipping` — what the totals are after some elapsed times.

## Main results

* `Sel4bench.Vcpu.clipping_ofStamps` — the totals and the number of anomalies after the loop.
* `Sel4bench.Vcpu.guestRunBm_averages`.
* `Sel4bench.Vcpu.exists_guestRunBm_measured` — every sequence of stamps occurs.
-/

namespace Sel4bench.Vcpu

open Total

variable {P : Platform}

/-! ### Anomalies among elapsed times -/

/-- The elapsed time of iteration `i`. -/
def elapsedTime (times : List Word) (i : ℕ) : Word := times.getD i 0

/-- Iteration `i` took at least the threshold longer than the one before it. -/
def IsAnomaly (times : List Word) (i : ℕ) : Prop :=
  0 < i ∧ (elapsedTime times (i - 1)).toNat + anomalyThreshold.toNat ≤ (elapsedTime times i).toNat

instance (times : List Word) : DecidablePred (IsAnomaly times) := fun _ =>
  inferInstanceAs (Decidable (_ ∧ _))

/-- The anomalies. -/
def anomalies (times : List Word) : Finset ℕ :=
  {i ∈ Finset.range times.length | IsAnomaly times i}

/-- The iterations that are not anomalies. -/
def regular (times : List Word) : Finset ℕ :=
  {i ∈ Finset.range times.length | ¬IsAnomaly times i}

theorem zero_mem_regular {times : List Word} (h : times ≠ []) : 0 ∈ regular times :=
  Finset.mem_filter.mpr ⟨Finset.mem_range.mpr (List.length_pos_of_ne_nil h),
    fun hanomaly => Nat.lt_irrefl 0 hanomaly.1⟩

/-- Every iteration is regular or an anomaly. -/
theorem card_regular_add_card_anomalies (times : List Word) :
    (regular times).card + (anomalies times).card = times.length := by
  rw [Nat.add_comm, anomalies, regular, Finset.card_filter_add_card_filter_not, Finset.card_range]

/-- The times of the regular iterations and of the anomalies are all times. -/
theorem sum_regular_add_sum_anomalies {M : Type*} [AddCommMonoid M] (times : List Word)
    (f : ℕ → M) : ∑ i ∈ regular times, f i + ∑ i ∈ anomalies times, f i =
      ∑ i ∈ Finset.range times.length, f i := by
  rw [add_comm, anomalies, regular, Finset.sum_filter_add_sum_filter_not]

theorem elapsedTime_concat_of_lt {times : List Word} {i : ℕ} (hi : i < times.length) (x : Word) :
    elapsedTime (times ++ [x]) i = elapsedTime times i :=
  List.getD_append _ _ _ _ hi

@[simp]
theorem elapsedTime_concat_length (times : List Word) (x : Word) :
    elapsedTime (times ++ [x]) times.length = x := by
  rw [elapsedTime, List.getD_append_right _ _ _ _ le_rfl, Nat.sub_self]
  rfl

/-- A later time does not change what is an anomaly. -/
theorem isAnomaly_concat_iff {times : List Word} {i : ℕ} (hi : i < times.length) (x : Word) :
    IsAnomaly (times ++ [x]) i ↔ IsAnomaly times i := by
  rw [IsAnomaly, IsAnomaly, elapsedTime_concat_of_lt hi,
    elapsedTime_concat_of_lt (Nat.lt_of_le_of_lt (Nat.sub_le i 1) hi)]

/-- The numbers below `n + 1` with a property, from those below `n`. -/
theorem filter_range_succ {n : ℕ} {p q : ℕ → Prop} [DecidablePred p] [DecidablePred q]
    (h : ∀ i < n, p i ↔ q i) : {i ∈ Finset.range (n + 1) | p i} =
      if p n then insert n {i ∈ Finset.range n | q i} else {i ∈ Finset.range n | q i} := by
  have hold : {i ∈ Finset.range n | p i} = {i ∈ Finset.range n | q i} :=
    Finset.filter_congr fun i hi => h i (Finset.mem_range.mp hi)
  rw [Finset.range_add_one, Finset.filter_insert, hold]

theorem anomalies_concat (times : List Word) (x : Word) : anomalies (times ++ [x]) =
    if IsAnomaly (times ++ [x]) times.length then insert times.length (anomalies times)
    else anomalies times := by
  rw [anomalies, List.length_append, List.length_singleton]
  exact filter_range_succ fun i hi => isAnomaly_concat_iff hi x

theorem regular_concat (times : List Word) (x : Word) : regular (times ++ [x]) =
    if IsAnomaly (times ++ [x]) times.length then regular times
    else insert times.length (regular times) := by
  rw [regular, List.length_append, List.length_singleton, ← ite_not]
  exact filter_range_succ fun i hi => not_congr (isAnomaly_concat_iff hi x)

theorem lt_of_mem_anomalies {times : List Word} {i : ℕ} (hi : i ∈ anomalies times) :
    i < times.length :=
  Finset.mem_range.mp (Finset.mem_filter.mp hi).1

theorem lt_of_mem_regular {times : List Word} {i : ℕ} (hi : i ∈ regular times) :
    i < times.length :=
  Finset.mem_range.mp (Finset.mem_filter.mp hi).1

/-- Sums over earlier iterations do not change with a further one. -/
theorem sum_elapsedTime_concat {M : Type*} [AddCommMonoid M] (f : Word → M) {times : List Word}
    {s : Finset ℕ} (hs : ∀ i ∈ s, i < times.length) (x : Word) :
    ∑ i ∈ s, f (elapsedTime (times ++ [x]) i) = ∑ i ∈ s, f (elapsedTime times i) :=
  Finset.sum_congr rfl fun i hi => congrArg f (elapsedTime_concat_of_lt (hs i hi) x)

theorem sum_range_elapsedTime {M : Type*} [AddCommMonoid M] (f : Word → M) (times : List Word) :
    ∑ i ∈ Finset.range times.length, f (elapsedTime times i) = (times.map f).sum := by
  induction times using List.reverseRecOn with
  | nil => rfl
  | append_singleton times x ih =>
    rw [List.length_append, List.length_singleton, Finset.sum_range_succ, List.map_append,
      List.sum_append, List.map_singleton, List.sum_singleton, elapsedTime_concat_length, ← ih,
      sum_elapsedTime_concat f fun i hi => Finset.mem_range.mp hi]

theorem sum_elapsedTime (times : List Word) :
    ∑ i ∈ Finset.range times.length, elapsedTime times i = times.sum :=
  (sum_range_elapsedTime id times).trans (congrArg List.sum (List.map_id times))

/-! ### The decision of an iteration -/

/-- The decision of iteration `i` whether it is an anomaly. -/
def Results.isAnomaly (r : Results) (i : ℕ) (start stop : Word) : Bool :=
  if i = 0 then false
  else anomalyDetected i (stop - start) { r with deepData := r.deepData.set i start stop }

theorem Results.record_completeTotal (r : Results) (i : ℕ) (start stop : Word) :
    (r.record i start stop).completeTotal = r.completeTotal + (stop - start) := by
  simp only [record]
  split_ifs <;> rfl

theorem Results.record_clippedTotal (r : Results) (i : ℕ) (start stop : Word) :
    (r.record i start stop).clippedTotal =
      if r.isAnomaly i start stop then r.clippedTotal else r.clippedTotal + (stop - start) := by
  simp only [record, isAnomaly]
  split_ifs <;> simp_all

theorem Results.record_nAnomalies (r : Results) (i : ℕ) (start stop : Word) :
    (r.record i start stop).nAnomalies =
      if r.isAnomaly i start stop then r.nAnomalies + 1 else r.nAnomalies := by
  simp only [record, isAnomaly]
  split_ifs <;> simp_all

/-- The difference of two elapsed times, with the unusually small ones left aside, reaches the
threshold. -/
theorem diff_ge_anomalyThreshold_iff (curr prev : Word) :
    (if curr > prev then curr - prev else 0) ≥ anomalyThreshold ↔
      prev.toNat + anomalyThreshold.toNat ≤ curr.toNat := by
  have hpos : 0 < anomalyThreshold.toNat := by decide
  rw [ge_iff_le, BitVec.le_def]
  split_ifs with hgt
  · have hlt : prev.toNat < curr.toNat := BitVec.lt_def.mp hgt
    rw [BitVec.toNat_sub_of_le (BitVec.le_def.mpr hlt.le)]
    omega
  · have hle : curr.toNat ≤ prev.toNat := BitVec.le_def.mp (BitVec.not_lt.mp hgt)
    rw [BitVec.ofNat_eq_ofNat, BitVec.toNat_zero]
    omega

theorem elapsedTime_elapsedTimes {l : List (Word × Word)} {i : ℕ} {p : Word × Word}
    (h : l[i]? = some p) : elapsedTime (elapsedTimes l) i = p.2 - p.1 := by
  rw [elapsedTime, elapsedTimes, List.getD_eq_getElem?_getD, List.getElem?_map, h]
  rfl

/-- The detector compares with the previous element of the arrays that the loop has filled so
far. -/
theorem Results.isAnomaly_iff {l : List (Word × Word)} {r : Results} (h : r.deepData.Holds l)
    (start stop : Word) : r.isAnomaly l.length start stop = true ↔
      IsAnomaly (elapsedTimes (l ++ [(start, stop)])) l.length := by
  have hlast : elapsedTime (elapsedTimes (l ++ [(start, stop)])) l.length = stop - start :=
    elapsedTime_elapsedTimes (List.getElem?_concat_length ..)
  rcases Nat.eq_zero_or_pos l.length with hzero | hpos
  · rw [isAnomaly, if_pos hzero, hzero]
    exact iff_of_false Bool.false_ne_true fun hanomaly => Nat.lt_irrefl 0 hanomaly.1
  · have hprev : (l.length : ℤ) - 1 = (l.length - 1 : ℕ) := by omega
    obtain ⟨p, hp⟩ : ∃ p, (l ++ [(start, stop)])[l.length - 1]? = some p := by
      rw [List.getElem?_append_left (by omega)]
      exact ⟨_, List.getElem?_eq_getElem (by omega)⟩
    obtain ⟨hstart, hstop, -⟩ := h.set start stop _ p hp
    rw [isAnomaly, if_neg hpos.ne', anomalyDetected, decide_eq_true_iff, hprev, hstart, hstop,
      IsAnomaly, elapsedTime_elapsedTimes hp, hlast, and_iff_right hpos]
    exact diff_ge_anomalyThreshold_iff _ _

/-- What the totals are after the elapsed times `times`. -/
structure Clipping (times : List Word) (r : Results) : Prop where
  nAnomalies : r.nAnomalies = BitVec.ofNat 32 (anomalies times).card
  clippedTotal : r.clippedTotal = ∑ i ∈ regular times, elapsedTime times i
  completeTotal : r.completeTotal = times.sum

theorem Clipping.zero : Clipping [] Results.zero := ⟨rfl, rfl, rfl⟩

/-- An iteration: its time counts for the clipped total unless it is an anomaly. -/
theorem Clipping.record {l : List (Word × Word)} {r : Results} (h : Clipping (elapsedTimes l) r)
    (hholds : r.deepData.Holds l) (start stop : Word) :
    Clipping (elapsedTimes (l ++ [(start, stop)])) (r.record l.length start stop) := by
  have hiff := Results.isAnomaly_iff hholds start stop
  have hlength : l.length = (elapsedTimes l).length := (List.length_map _).symm
  rw [elapsedTimes_concat, hlength] at hiff ⊢
  refine ⟨?_, ?_, ?_⟩
  · rw [Results.record_nAnomalies, anomalies_concat, h.nAnomalies]
    by_cases hanomaly : IsAnomaly (elapsedTimes l ++ [stop - start]) (elapsedTimes l).length
    · rw [if_pos (hiff.mpr hanomaly), if_pos hanomaly,
        Finset.card_insert_of_notMem fun hmem => (lt_of_mem_anomalies hmem).false,
        BitVec.ofNat_add]
      rfl
    · rw [if_neg (hiff.not.mpr hanomaly), if_neg hanomaly]
  · have hsum : ∑ i ∈ regular (elapsedTimes l), elapsedTime (elapsedTimes l ++ [stop - start]) i =
        ∑ i ∈ regular (elapsedTimes l), elapsedTime (elapsedTimes l) i :=
      sum_elapsedTime_concat id (fun i hi => lt_of_mem_regular hi) _
    rw [Results.record_clippedTotal, regular_concat, h.clippedTotal]
    by_cases hanomaly : IsAnomaly (elapsedTimes l ++ [stop - start]) (elapsedTimes l).length
    · rw [if_pos (hiff.mpr hanomaly), if_pos hanomaly, hsum]
    · rw [if_neg (hiff.not.mpr hanomaly), if_neg hanomaly,
        Finset.sum_insert fun hmem => (lt_of_mem_regular hmem).false, hsum,
        elapsedTime_concat_length, add_comm]
  · rw [Results.record_completeTotal, h.completeTotal, List.sum_append, List.sum_singleton]

/-- **The totals after the loop.** -/
theorem clipping_ofStamps (l : List (Word × Word)) :
    Clipping (elapsedTimes l) (Results.ofStamps l) := by
  induction l using List.reverseRecOn with
  | nil => exact Clipping.zero
  | append_singleton l p ih =>
    rw [Results.ofStamps_concat]
    exact ih.record (Results.holds_ofStamps l) p.1 p.2

/-! ### The averages -/

theorem card_anomalies_lt {times : List Word} (h : times ≠ []) :
    (anomalies times).card < times.length := by
  have hpos : 0 < (regular times).card := Finset.card_pos.mpr ⟨0, zero_mem_regular h⟩
  have hcard := card_regular_add_card_anomalies times
  omega

/-- The number of anomalies does not leave the range of `int`. -/
theorem Clipping.toInt_nAnomalies {times : List Word} {r : Results} (h : Clipping times r)
    (hlt : times.length < 2 ^ 31) : r.nAnomalies.toInt = (anomalies times).card := by
  have hcard := card_regular_add_card_anomalies times
  have hnat : r.nAnomalies.toNat = (anomalies times).card := by
    rw [h.nAnomalies, BitVec.toNat_ofNat, Nat.mod_eq_of_lt (by omega)]
  rw [BitVec.toInt_eq_toNat_of_lt (by omega), hnat]

/-- The divisor of the clipped average is the number of the regular iterations. -/
theorem Clipping.divisor {times : List Word} {r : Results} (h : Clipping times r)
    (hlt : times.length < 2 ^ 31) :
    ofCInt (times.length - r.nAnomalies.toInt) = ofCInt (regular times).card := by
  have hcard := card_regular_add_card_anomalies times
  rw [h.toInt_nAnomalies hlt]
  exact congrArg ofCInt (by omega)

/-- The averages of elapsed times that add up without a wrap. -/
structure Averages (times : List Word) (r : Results) : Prop where
  clipped : ∃ least greatest, IsLeast {x | ∃ i ∈ regular times, elapsedTime times i = x} least ∧
    IsGreatest {x | ∃ i ∈ regular times, elapsedTime times i = x} greatest ∧
    least ≤ r.clippedAvg ∧ r.clippedAvg ≤ greatest
  complete : r.completeAvg.toNat = ⌊((times.map BitVec.toNat).sum : ℚ) / times.length⌋₊

/-- The quotients that `guest_run_bm` stores are these averages. -/
theorem Clipping.averages {times : List Word} {r : Results} (h : Clipping times r)
    (hne : times ≠ []) (hlt : times.length < 2 ^ 31)
    (hsum : (times.map BitVec.toNat).sum < 2 ^ 64)
    (hclipped : r.clippedAvg = r.clippedTotal / ofCInt (regular times).card)
    (hcomplete : r.completeAvg = r.completeTotal / ofCInt times.length) : Averages times r := by
  have hcard := card_regular_add_card_anomalies times
  have hparts := sum_regular_add_sum_anomalies times fun i => (elapsedTime times i).toNat
  have hall := sum_range_elapsedTime BitVec.toNat times
  constructor
  · have htotal : r.clippedTotal.toNat = ∑ i ∈ regular times, (elapsedTime times i).toNat := by
      rw [h.clippedTotal]
      exact toNat_finsetSum_of_lt (by omega)
    obtain ⟨i, hi, j, hj, hbounds, hle, hge⟩ :=
      RunningMean.sum_div_card_mem ⟨0, zero_mem_regular hne⟩ fun i => (elapsedTime times i).toNat
    rw [← htotal, ← toNat_ofCInt (n := (regular times).card) (by omega), ← BitVec.toNat_udiv,
      ← hclipped] at hle hge
    refine ⟨_, _, ⟨⟨i, hi, rfl⟩, ?_⟩, ⟨⟨j, hj, rfl⟩, ?_⟩, BitVec.le_def.mpr hle,
      BitVec.le_def.mpr hge⟩
    · rintro _ ⟨k, hk, rfl⟩
      exact BitVec.le_def.mpr (hbounds k hk).1
    · rintro _ ⟨k, hk, rfl⟩
      exact BitVec.le_def.mpr (hbounds k hk).2
  · have htotal : r.completeTotal.toNat = (times.map BitVec.toNat).sum := by
      rw [← hall, h.completeTotal, ← sum_elapsedTime]
      exact toNat_finsetSum_of_lt (by rwa [hall])
    rw [hcomplete, BitVec.toNat_udiv, htotal, toNat_ofCInt hlt, Nat.floor_div_eq_div]

/-! ### Running a benchmark -/

/-- The results of `guest_run_bm` for the stamps that it has obtained. -/
structure Finished (bm : Benchmark) (w : World) (n : ℕ) (l : List (Word × Word)) (w' : World) :
    Prop where
  length : l.length = n
  measured : w'.measured = w.measured ++ l.map (Prod.mk bm)
  clipping : Clipping (elapsedTimes l) w'.guestResults
  clippedAvg : w'.guestResults.clippedAvg =
    w'.guestResults.clippedTotal / ofCInt (regular (elapsedTimes l)).card
  completeAvg : w'.guestResults.completeAvg = w'.guestResults.completeTotal / ofCInt n

/-- `guest_run_bm` ends: no divisor is zero. -/
theorem ends_guestRunBm_finished (bm : Benchmark) (w : World) :
    Ends (guestRunBm P bm) w fun _ w' => ∃ l, Finished bm w P.nIterations l w' := by
  have hpos := P.nIterations_pos
  have hlt := P.nIterations_lt
  rw [guestRunBm, ends_bind, ends_modify, ends_bind]
  refine (ends_guestRunBm_stamped bm w).mono fun _ w' hstamped => ?_
  obtain ⟨l, h⟩ := hstamped
  obtain ⟨name, hname⟩ := h.guestResults
  have hclipping : Clipping (elapsedTimes l) w'.guestResults := by
    obtain ⟨hnAnomalies, hclippedTotal, hcompleteTotal⟩ := clipping_ofStamps l
    rw [hname]
    exact ⟨hnAnomalies, hclippedTotal, hcompleteTotal⟩
  have hlength : (elapsedTimes l).length = P.nIterations := (List.length_map _).trans h.length
  have hne : elapsedTimes l ≠ [] := List.ne_nil_of_length_pos (by omega)
  have hcard := card_regular_add_card_anomalies (elapsedTimes l)
  have hanomalies := card_anomalies_lt hne
  have hdivisor := hclipping.divisor (by omega)
  rw [hlength] at hdivisor
  simp only [ends_bind, ends_get]
  refine ends_cDiv (hdivisor ▸ ofCInt_ne_zero (by omega) (by omega)) ?_
  refine ends_cDiv (ofCInt_ne_zero (by omega) (by omega)) ?_
  rw [ends_modify]
  refine ⟨l, h.length, h.measured, ⟨hclipping.nAnomalies, hclipping.clippedTotal,
    hclipping.completeTotal⟩, ?_, rfl⟩
  rw [hdivisor]

/-- A platform on which the cycle counter, from its reading `k` on, yields the stamps of `l`. -/
def Platform.ofStamps (k : ℕ) (l : List (Word × Word)) (hpos : 0 < l.length)
    (hlt : l.length < 2 ^ 31) : Platform where
  ccnt n :=
    let p := l.getD ((n - k) / 2) (0, 0)
    if (n - k) % 2 = 0 then p.1 else p.2
  kernelLog _ := (0, 0)
  nIterations := l.length
  nIterations_pos := hpos
  nIterations_lt := hlt

/-- Every sequence of stamps occurs. -/
theorem exists_guestRunBm_measured (w : World) (l : List (Word × Word)) (hpos : 0 < l.length)
    (hlt : l.length < 2 ^ 31) : ∃ P w', P.nIterations = l.length ∧
      guestRunBm P .hvcNullSyscall w = some ((), w') ∧
      w'.measured = w.measured ++ l.map (Prod.mk .hvcNullSyscall) := by
  set P := Platform.ofStamps w.ccntReads l hpos hlt with hP
  have hloop : Ends ((List.range P.nIterations).forM (guestRunBmIteration P .hvcNullSyscall))
      { w with guestResults := Results.zero } fun _ w' =>
        w'.ccntReads = w.ccntReads + 2 * P.nIterations ∧
        w'.measured = w.measured ++ (l.take P.nIterations).map (Prod.mk .hvcNullSyscall) := by
    refine Ends.forM_range (fun i (w' : World) => w'.ccntReads = w.ccntReads + 2 * i ∧
      w'.measured = w.measured ++ (l.take i).map (Prod.mk .hvcNullSyscall)) ?_ ?_
    · exact ⟨rfl, (List.append_nil _).symm⟩
    · rintro i hi w' ⟨hreads, hmeasured⟩
      have hi' : i < l.length := hi
      have hstart : P.ccnt (w.ccntReads + 2 * i) = l[i].1 := by
        simp [hP, Platform.ofStamps, hi']
      have hstop : P.ccnt (w.ccntReads + 2 * i + 1) = l[i].2 := by
        have hdiv : (2 * i + 1) / 2 = i := by omega
        simp [hP, Platform.ofStamps, Nat.add_assoc, hdiv, hi']
      simp only [guestRunBmIteration, stampGetter, setName, readCcnt, ends_bind, ends_modify,
        ends_get, ends_set, ends_pure, hmeasured, hreads, hstart, hstop]
      refine ⟨by omega, ?_⟩
      rw [List.take_add_one, List.getElem?_eq_getElem hi', Option.toList_some, List.map_append,
        List.map_singleton, List.append_assoc]
  have hends : Ends (guestRunBm P .hvcNullSyscall) w fun _ w' =>
      w'.measured = w.measured ++ (l.take l.length).map (Prod.mk .hvcNullSyscall) :=
    ends_guestRunBm_of_loop (hloop.mono fun _ _ h _ _ => h.2)
  obtain ⟨w', hrun, hmeasured⟩ := hends.exists_run
  rw [List.take_length] at hmeasured
  exact ⟨P, w', rfl, hrun, hmeasured⟩

/-- **Anomaly clipping.** After `guest_run_bm`, whatever stamps it has obtained: the anomalies are
counted, the totals differ by their times, there is an iteration that is no anomaly, and the
averages are means of elapsed times that add up without a wrap. -/
theorem guestRunBm_averages (P : Platform) (bm : Benchmark) (w : World) :
    ∃ w' l, guestRunBm P bm w = some ((), w') ∧
      w'.measured = w.measured ++ l.map (Prod.mk bm) ∧ l.length = P.nIterations ∧
      w'.guestResults.nAnomalies.toInt = (anomalies (elapsedTimes l)).card ∧
      w'.guestResults.completeTotal = w'.guestResults.clippedTotal +
        ∑ i ∈ anomalies (elapsedTimes l), elapsedTime (elapsedTimes l) i ∧
      w'.guestResults.completeTotal = (elapsedTimes l).sum ∧
      1 ≤ (P.nIterations : ℤ) - w'.guestResults.nAnomalies.toInt ∧
      (((elapsedTimes l).map BitVec.toNat).sum < 2 ^ 64 →
        Averages (elapsedTimes l) w'.guestResults) := by
  obtain ⟨w', hrun, l, h⟩ := (ends_guestRunBm_finished (P := P) bm w).exists_run
  have hpos := P.nIterations_pos
  have hlt := P.nIterations_lt
  have hlength : (elapsedTimes l).length = P.nIterations := (List.length_map _).trans h.length
  have hne : elapsedTimes l ≠ [] := List.ne_nil_of_length_pos (by omega)
  have hint := h.clipping.toInt_nAnomalies (by omega)
  have hanomalies := card_anomalies_lt hne
  refine ⟨w', l, hrun, h.measured, h.length, hint, ?_, h.clipping.completeTotal, by omega,
    fun hsum => ?_⟩
  · rw [h.clipping.completeTotal, h.clipping.clippedTotal, sum_regular_add_sum_anomalies,
      sum_elapsedTime]
  · refine h.clipping.averages hne (by omega) hsum h.clippedAvg ?_
    rw [hlength]
    exact h.completeAvg

end Sel4bench.Vcpu
