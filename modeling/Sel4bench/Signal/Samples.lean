import Sel4bench.Signal.Rounds
import Sel4bench.Lib.Termination

/-!
# The samples of the signal benchmark

The functions of the signal application follow the protocol of `Signal.Protocol`, for every number
of runs. So the benchmark can always end, and its results are computed from times that belong
together: the time before a signal, and the time that the waiting thread has read when this signal
has woken it.

## Main results

* `Sel4bench.Signal.code_safe` — the threads follow the protocol.
* `Sel4bench.Signal.signal_samples` — the results of the benchmark.
-/

namespace Sel4bench.Signal

open Machine Trace
open Support (Msg benchmarkWaitChildren bounded_benchmarkWaitChildren)

variable {w : ℕ} {e : Setup w} {v : View w} {c : ℕ}

/-! ### Readings -/

section Readings

variable (r : Readings w) (start stop : Ccnt w)

theorem map_range_update (f : ℕ → Ccnt w) (t : Ccnt w) (c : ℕ) :
    (List.range (c + 1)).map (Function.update f c t) = (List.range c).map f ++ [t] := by
  rw [List.range_succ, List.map_append, List.map_singleton, Function.update_self]
  congr 1
  exact List.map_congr_left fun i hi => Function.update_of_ne (List.mem_range.mp hi).ne ..

theorem pairs_succ (n : ℕ) : pairs r (n + 1) = pairs r n ++ [r.start n, r.stop n] := by
  rw [pairs, List.range_succ, List.flatMap_append, List.flatMap_singleton]
  rfl

theorem pairs_set (c : ℕ) : pairs (r.set c start stop) (c + 1) = pairs r c ++ [start, stop] := by
  rw [pairs_succ, r.set_start_self, r.set_stop_self]
  congr 1
  refine List.flatMap_congr fun i hi => ?_
  have hne := (List.mem_range.mp hi).ne
  rw [r.set_start_of_ne _ _ hne, r.set_stop_of_ne _ _ hne]

/-- The elapsed times of all runs but one are kept. -/
theorem set_elapsed_of_ne {i : ℕ} (hi : i ≠ c) :
    (r.set c start stop).stop i - (r.set c start stop).start i = r.stop i - r.start i := by
  rw [r.set_start_of_ne _ _ hi, r.set_stop_of_ne _ _ hi]

theorem set_elapsed_self :
    (r.set c start stop).stop c - (r.set c start stop).start c = stop - start := by
  rw [r.set_start_self, r.set_stop_self]

end Readings

/-- The first `c` elapsed times are in the row. -/
def Stored (row : ℕ → Option (Ccnt w)) (c : ℕ) (r : Readings w) : Prop :=
  ∀ i < c, row i = some (r.stop i - r.start i)

theorem Stored.set {row row' : ℕ → Option (Ccnt w)} {r : Readings w} {start stop : Ccnt w}
    (h : Stored row c r) (hself : row' c = some (stop - start)) (hne : ∀ i ≠ c, row' i = row i) :
    Stored row' (c + 1) (r.set c start stop) := by
  intro i hi
  by_cases hic : i = c
  · subst hic
    rw [set_elapsed_self, hself]
  · rw [set_elapsed_of_ne r _ _ hic, hne i hic]
    exact h i (by omega)

theorem Stored.congr {row row' : ℕ → Option (Ccnt w)} {r : Readings w} (h : Stored row c r)
    (heq : ∀ i, row' i = row i) : Stored row' c r := fun i hi => (heq i).trans (h i hi)

/-! ### The low rounds -/

section Low

variable {b : Low} {r : Readings w} {start stop : Ccnt w}

/-- A signaller that works on its first phase, with what it has done so far. -/
structure LowAt (signals times : ℕ) (v : View w) : Prop where
  busy : Busy v.toProgress
  starts : v.starts = 1
  marks : marks isStart v.hist = 1
  signals : v.signals = signals
  times : v.times = times

/-- The first `c` measurements of a low round. -/
structure Sampled (c : ℕ) (r : Readings w) (h : Hist w) : Prop where
  clocks : clocks (phase h 1) = (List.range c).map r.start
  loads : loads (phase h 1) = (List.range c).map r.stop
  signals : signals (phase h 1) = List.replicate c false

theorem Sampled.append (h : Sampled c r v.hist) {ev : Event (sig w)} (hclock : clockOf ev = none)
    (hload : stopOf ev = none) (hsignal : signalOf ev = none) : Sampled c r (v.hist ++ [ev]) :=
  ⟨(filterMap_segment_of_none _ hclock 1).trans h.clocks,
    (filterMap_segment_of_none _ hload 1).trans h.loads,
    (filterMap_segment_of_none _ hsignal 1).trans h.signals⟩

theorem LowAt.event {p : Party} {ev : Event (sig w)} {m n m' n' : ℕ} (h : LowAt m n v)
    (hev : isStart ev = false) (hadv : advance p v.toProgress ev =
      { v.toProgress with signals := m', times := n' }) : LowAt m' n' (step p v ev) := by
  refine ⟨?_, ?_, ?_, ?_, ?_⟩
  · rw [step_progress, hadv]
    exact h.busy
  · rw [step_progress, hadv]
    exact h.starts
  · rw [step_hist, marks_concat, h.marks, hev]
    rfl
  · rw [step_progress, hadv]
  · rw [step_progress, hadv]

/-- A signaller that reads the time, or stores a result, stays where it is. -/
theorem LowAt.stay {p : Party} {ev : Event (sig w)} {m n : ℕ} (h : LowAt m n v)
    (hev : isStart ev = false) (hadv : advance p v.toProgress ev = v.toProgress) :
    LowAt m n (step p v ev) := by
  refine h.event hev (hadv.trans ?_)
  obtain ⟨-, -, -, rfl, rfl⟩ := h
  rfl

theorem Sampled.measure (h : Sampled c r v.hist) (hm : marks isStart v.hist = 1)
    (start stop : Ccnt w) : Sampled (c + 1) (r.set c start stop)
      (v.hist ++ [.did .clock start] ++ [.did (.signal .ntfn) false] ++
        [.did (.load .stop) stop]) := by
  have hphase : phase (v.hist ++ [.did .clock start] ++ [.did (.signal .ntfn) false] ++
      [.did (.load .stop) stop]) 1 = phase v.hist 1 ++ [.did .clock start] ++
        [.did (.signal .ntfn) false] ++ [.did (.load .stop) stop] := by
    have hm' : marks isStart (v.hist ++ [.did .clock start]) = 1 := by
      rw [marks_concat, hm]
      rfl
    have hm'' : marks isStart (v.hist ++ [.did .clock start] ++ [.did (.signal .ntfn) false]) =
        1 := by
      rw [marks_concat, hm']
      rfl
    rw [phase, segment_concat _ rfl hm''.symm, segment_concat _ rfl hm'.symm,
      segment_concat _ rfl hm.symm, phase]
  refine ⟨?_, ?_, ?_⟩
  · rw [hphase, Readings.set, map_range_update, ← h.clocks]
    simp only [Machine.clocks, List.filterMap_append, List.append_assoc]
    rfl
  · rw [hphase, Readings.set, map_range_update, ← h.loads]
    simp only [Signal.loads, List.filterMap_append, List.append_assoc]
    rfl
  · rw [hphase, List.replicate_succ', ← h.signals]
    simp only [Signal.signals, List.filterMap_append, List.append_assoc]
    rfl

/-- The measurement of a sample, after which the thread continues with `f`. -/
theorem low_round {α : Type} {f : Ccnt w → Ccnt w → Code (sig w) α} {Q : α → View w → Prop}
    {F : View w → Prop} (hc : c < e.runs)
    (hF : ∀ v ev, (∀ x, storeOf x ev = none) → F v → F (step b.signaller v ev))
    (hf : ∀ start stop, ((protocol e).spec b.signaller).Triple
      (fun v => LowAt (c + 1) (c + 1) v ∧ Sampled (c + 1) (r.set c start stop) v.hist ∧ F v)
      (f start stop) Q) :
    ((protocol e).spec b.signaller).Triple (fun v => LowAt c c v ∧ Sampled c r v.hist ∧ F v)
      (do
        let start ← Code.clock
        Code.signal .ntfn
        let stop ← Code.load (σ := sig w) .stop
        f start stop) Q := by
  rintro k v ⟨hat, hr, hv⟩ hk
  refine ⟨.lowClock hat.busy hat.starts (hat.times.trans hat.signals.symm), fun start _ => ?_⟩
  have hat₁ : LowAt c c (step b.signaller v (.did .clock start)) :=
    hat.stay rfl (advance_clock _ _ _)
  refine ⟨.lowSignal hat₁.busy hat₁.starts (hat₁.times.trans hat₁.signals.symm)
    (hat₁.signals.trans_lt hc), fun a ha => ?_⟩
  obtain rfl : a = false := ha hat₁.starts
  have hat₂ : LowAt (c + 1) c (step b.signaller (step b.signaller v (.did .clock start))
      (.did (.signal .ntfn) false)) := by
    refine hat₁.event rfl ?_
    rw [advance_signal, hat₁.signals, ← hat₁.times]
  refine ⟨.lowLoad hat₂.busy hat₂.starts ?_, fun stop _ => hf start stop k _ ⟨?_, ?_, ?_⟩ hk⟩
  · exact hat₂.times.trans_lt ((Nat.lt_succ_self c).trans_eq hat₂.signals.symm)
  · refine hat₂.event rfl ?_
    rw [advance_load_stop, hat₂.times, ← hat₂.signals]
  · exact hr.measure hat.marks start stop
  · exact hF _ _ (fun _ => rfl) (hF _ _ (fun _ => rfl) (hF _ _ (fun _ => rfl) hv))

theorem lowStore_triple {x : Var} (hx : resultOf x = (b.signaller, 1)) (t : Val w x) {m n : ℕ}
    (F F' : Hist w → Prop) (hF : ∀ h, F h → F' (h ++ [.did (.store x t) ()])) :
    ((protocol e).spec b.signaller).Triple (fun v => LowAt m n v ∧ Sampled c r v.hist ∧ F v.hist)
      (Code.store x t) fun _ v => LowAt m n v ∧ Sampled c r v.hist ∧ F' v.hist := by
  rintro k v ⟨hat, hr, hv⟩ hk
  exact ⟨.lowStore hat.busy hat.starts hx t, fun _ _ => hk _ _
    ⟨hat.stay rfl (advance_store_low hx _ t _), hr.append rfl rfl rfl, hF _ hv⟩⟩

/-- After its done message a signaller does not work any more. -/
theorem finish_low : ((protocol e).spec b.signaller).Triple
    (fun v => LowAt e.runs e.runs v ∧ RecordedLow e.toConfig b v.hist) finish
    fun _ v => Idle v.toProgress := by
  rintro k v ⟨hat, hrec⟩ hk
  refine ⟨.lowSend hat.busy hat.starts hat.signals hat.times hrec, fun n _ => ?_⟩
  have hadv : (step b.signaller v (.did (.send .ep .empty) n)).toProgress =
      { v.toProgress with done := true } := advance_send _ _ _ _ _
  refine ⟨.block b.signaller_ne_main ?_ ?_, fun a _ => hk _ _ ?_⟩
  · exact (congrArg Progress.active hadv).trans hat.busy.1
  · exact congrArg Progress.done hadv
  · have hdone := congrArg Progress.done hadv
    refine .inr ?_
    change (advance b.signaller (step b.signaller v (.did (.send .ep .empty) n)).toProgress
      (.did (.wait .ntfn) a)).done = true
    rw [advance_wait_of_done b.signaller_ne_main hdone]
    exact hdone

theorem mem_overheads {h : Hist w} {o : Ccnt w} (ho : o ∈ overheads h) (ev : Event (sig w)) :
    o ∈ overheads (h ++ [ev]) := by
  rw [overheads, filterMap_concat]
  exact List.mem_append_left _ ho

/-- The times and the samples in the row after `c` rounds of `low_prio_signal_fn`. -/
def LateLoop (c : ℕ) (v : View w) : Prop :=
  ∃ r, LowAt c c v ∧ Sampled c r v.hist ∧
    Stored (fun i => lastStore (σ := sig w) (Var.loPrioResults i) v.hist) c r

/-- The times and the sums after `c` rounds of `low_prio_signal_early_proc_fn`. -/
def EarlyLoop (cfg : Config) (overhead : Ccnt w) (c : ℕ) (acc : Sums w) (v : View w) : Prop :=
  ∃ r, LowAt c c v ∧ Sampled c r v.hist ∧
    acc = datacollectLoop cfg.wordBits c cfg.ignored r.start r.stop overhead ∧
    overhead ∈ overheads v.hist

theorem lowPrioSignalFn_round (hc : c < e.runs) :
    ((protocol e).spec .signal).Triple (LateLoop c)
      (do
        let start ← Code.clock
        Code.signal .ntfn
        let stop ← Code.load (σ := sig w) .stop
        Code.store (.loPrioResults c) (stop - start : Ccnt w))
      fun _ => LateLoop (c + 1) := by
  refine Spec.Triple.of_exists fun r => low_round (b := .late)
    (F := fun v => Stored (fun i => lastStore (σ := sig w) (Var.loPrioResults i) v.hist) c r) hc
    (fun _ _ hev h => h.congr fun i => lastStore_append (hev _) _) fun start stop => ?_
  refine (lowStore_triple (b := .late) (x := .loPrioResults c) rfl (stop - start : Ccnt w)
    (fun h => Stored (fun i => lastStore (σ := sig w) (Var.loPrioResults i) h) c r)
    (fun h => Stored (fun i => lastStore (σ := sig w) (Var.loPrioResults i) h) (c + 1)
      (r.set c start stop)) fun h hv => ?_).conseq (fun _ h => h) fun _ v h => ⟨_, h⟩
  refine Stored.set hv ?_ fun i hi => ?_
  · exact lastStore_append_store_self (σ := sig w) (Var.loPrioResults c) _ _ _
  · exact lastStore_append_store_of_ne (σ := sig w) (fun h => hi (Var.loPrioResults.inj h).symm)
      _ _ _

theorem lowPrioSignalFn_triple : ((protocol e).spec .signal).Triple
    (fun v => LowAt 0 0 v ∧ phase v.hist 1 = []) (lowPrioSignalFn e.toConfig)
    fun _ v => Idle v.toProgress := by
  refine ((Spec.Triple.loop (fun i _ => LateLoop i) fun i hi _ =>
    lowPrioSignalFn_round hi).conseq (fun v hv => ?_) fun _ _ h => h).bind fun _ => ?_
  · obtain ⟨hat, hphase⟩ := hv
    refine ⟨⟨0, 0⟩, hat, ⟨?_, ?_, ?_⟩, nofun⟩
    all_goals
      rw [hphase]
      rfl
  · refine (finish_low (b := .late)).conseq (fun v hv => ?_) fun _ _ h => h
    obtain ⟨r, hat, hr, hlate⟩ := hv
    exact ⟨hat, r, hr.clocks, hr.loads, hr.signals, hlate⟩

theorem lowPrioSignalEarlyProcFn_round (hc : c < e.runs) (overhead : Ccnt w) (acc : Sums w) :
    ((protocol e).spec .signalEarlyProc).Triple (EarlyLoop e.toConfig overhead c acc)
      (do
        let start ← Code.clock
        Code.signal .ntfn
        let stop ← Code.load (σ := sig w) .stop
        return datacollectGetSums (BitVec.ofNat e.wordBits c)
          (BitVec.ofNat e.wordBits e.ignored) start stop overhead acc)
      (EarlyLoop e.toConfig overhead (c + 1)) := by
  refine Spec.Triple.of_exists fun r => low_round (b := .early)
    (F := fun v => acc = datacollectLoop e.wordBits c e.ignored r.start r.stop overhead ∧
      overhead ∈ overheads v.hist) hc (fun v ev _ h => ⟨h.1, mem_overheads h.2 ev⟩)
    fun start stop => Spec.Triple.pure fun v h => ?_
  obtain ⟨hat, hr, hacc, ho⟩ := h
  exact ⟨r.set c start stop, hat, hr, by rw [datacollectLoop_set, hacc], ho⟩

theorem lowPrioSignalEarlyProcFn_triple : ((protocol e).spec .signalEarlyProc).Triple
    (fun v => LowAt 0 0 v ∧ phase v.hist 1 = []) (lowPrioSignalEarlyProcFn e.toConfig)
    fun _ v => Idle v.toProgress := by
  refine Spec.Triple.bind (Q := fun o v => EarlyLoop e.toConfig o 0 ⟨0, 0⟩ v) ?_ fun o => ?_
  · rintro k v ⟨hat, hphase⟩ hk
    refine ⟨.loadOverhead hat.busy hat.starts, fun o _ => hk o _
      ⟨⟨0, 0⟩, hat.stay rfl rfl, ⟨?_, ?_, ?_⟩, rfl, ?_⟩⟩
    · exact (filterMap_segment_of_none _ rfl 1).trans (congrArg clocks hphase)
    · exact (filterMap_segment_of_none _ rfl 1).trans (congrArg loads hphase)
    · exact (filterMap_segment_of_none _ rfl 1).trans (congrArg signals hphase)
    · change o ∈ overheads (v.hist ++ [.did (.load .overheadMin) o])
      rw [overheads, filterMap_concat]
      exact List.mem_append_right _ (List.mem_singleton_self o)
  · refine (Spec.Triple.loop (EarlyLoop e.toConfig o) fun i hi acc =>
      lowPrioSignalEarlyProcFn_round hi o acc).bind fun acc => ?_
    refine Spec.Triple.of_exists fun r => ?_
    let res := earlyRun e.wordBits e.runs e.ignored r o
    -- What has been stored after each of the three results.
    let F₁ : Hist w → Prop := fun h => o ∈ overheads h ∧ acc = datacollectLoop e.wordBits e.runs
      e.ignored r.start r.stop o
    let F₂ : Hist w → Prop := fun h => F₁ h ∧ lastStore Var.loSum h = some res.sum
    let F₃ : Hist w → Prop := fun h => F₂ h ∧ lastStore Var.loSum2 h = some res.sum2
    let F₄ : Hist w → Prop := fun h => F₃ h ∧ lastStore Var.loNum h = some res.num
    refine ((lowStore_triple (b := .early) (x := .loSum) rfl acc.sum F₁ F₂ fun h hh => ?_).bind
      fun _ => (lowStore_triple (b := .early) (x := .loSum2) rfl acc.sum2 F₂ F₃ fun h hh => ?_).bind
      fun _ => (lowStore_triple (b := .early) (x := .loNum) rfl
        (BitVec.ofInt w ((e.runs : ℤ) - e.ignored)) F₃ F₄ fun h hh => ?_).bind
      fun _ => (finish_low (b := .early)).conseq (fun v hv => ?_) fun _ _ h => h).conseq
      (fun v hv => ⟨hv.1, hv.2.1, hv.2.2.2, hv.2.2.1⟩) fun _ _ h => h
    · refine ⟨⟨mem_overheads hh.1 _, hh.2⟩, ?_⟩
      rw [hh.2]
      exact lastStore_append_store_self (σ := sig w) Var.loSum _ _ _
    · refine ⟨⟨⟨mem_overheads hh.1.1 _, hh.1.2⟩, ?_⟩, ?_⟩
      · exact (lastStore_append (σ := sig w) (x := Var.loSum) rfl _).trans hh.2
      · rw [hh.1.2]
        exact lastStore_append_store_self (σ := sig w) Var.loSum2 _ _ _
    · refine ⟨⟨⟨⟨mem_overheads hh.1.1.1 _, hh.1.1.2⟩, ?_⟩, ?_⟩, ?_⟩
      · exact (lastStore_append (σ := sig w) (x := Var.loSum) rfl _).trans hh.1.2
      · exact (lastStore_append (σ := sig w) (x := Var.loSum2) rfl _).trans hh.2
      · exact lastStore_append_store_self (σ := sig w) Var.loNum _ _ _
    · obtain ⟨hat, hr, ⟨⟨⟨ho, -⟩, hsum⟩, hsum2⟩, hnum⟩ := hv
      exact ⟨hat, r, hr.clocks, hr.loads, hr.signals, o, ho, hsum, hsum2, hnum⟩

end Low

/-! ### The waiting thread -/

/-- The waiting thread between two rounds of its loop. -/
structure WaitAt (c : ℕ) (v : View w) : Prop where
  busy : Busy v.toProgress
  starts : v.starts = marks isStart v.hist
  waits : v.waits = c
  times : v.times = c
  timed : Timed v.hist v.starts

theorem Timed.measure {h : Hist w} {k : ℕ} (ht : Timed h k) (hk : k = marks isStart h)
    (t : Ccnt w) : Timed (h ++ [.did .clock t] ++ [.did (.store .stop t) ()]) k := by
  have hk' : k = marks isStart (h ++ [.did .clock t]) := by
    rw [marks_concat, ← hk]
    rfl
  rw [Timed, stops, clocks, phase, filterMap_segment_concat _ _ rfl hk',
    filterMap_segment_concat _ _ rfl hk', filterMap_segment_concat _ _ rfl hk,
    filterMap_segment_concat _ _ rfl hk]
  change stops (phase h k) ++ [] ++ [t] = clocks (phase h k) ++ [t] ++ []
  rw [ht, List.append_nil, List.append_nil]

theorem waitFn_round (hc : c < e.runs) :
    ((protocol e).spec .wait).Triple (WaitAt c)
      (do
        Code.wait .ntfn
        let t ← Code.clock
        Code.store (σ := sig w) .stop t)
      fun _ => WaitAt (c + 1) := by
  rintro k v ⟨hbusy, hs, hw, ht, htimed⟩ hk
  refine ⟨.wait hbusy (ht.trans hw.symm) (hw.trans_lt hc), fun a _ => ?_⟩
  have hadv : (step .wait v (.did (.wait .ntfn) a)).toProgress =
      { v.toProgress with waits := v.waits + 1 } := advance_wait_of_busy (w := w) hbusy .ntfn a
  have hbusy' : Busy (step .wait v (.did (.wait .ntfn) a)).toProgress := by
    rw [hadv]
    exact hbusy
  have hlt : (step .wait v (.did (.wait .ntfn) a)).times <
      (step .wait v (.did (.wait .ntfn) a)).waits := by
    rw [hadv, ht, hw]
    exact Nat.lt_succ_self c
  have hs' : (step .wait v (.did (.wait .ntfn) a)).starts = v.starts := by rw [hadv]
  refine ⟨.waitClock hbusy' hlt, fun t _ => ⟨.waitStore (by exact hbusy') (by exact hlt) t,
    fun _ _ => hk _ _ ⟨hbusy', ?_, ?_, ?_, ?_⟩⟩⟩
  · refine hs'.trans (hs.trans ?_)
    simp only [protocol, step_hist, marks_concat, isStart, Bool.toNat_false, Nat.add_zero]
  · exact (congrArg Progress.waits hadv).trans (congrArg (· + 1) hw)
  · exact congrArg (· + 1) ((congrArg Progress.times hadv).trans ht)
  · have hm : v.starts = marks isStart (v.hist ++ [.did (.wait .ntfn) a]) := by
      rw [marks_concat, ← hs]
      rfl
    refine Eq.mp (congrArg (Timed _) hs'.symm) ?_
    have htimed : Timed (v.hist ++ [.did (.wait .ntfn) a]) v.starts := htimed.append rfl rfl
    exact htimed.measure hm t

theorem waitFn_triple : ((protocol e).spec .wait).Triple (WaitAt 0)
    (waitFn e.toConfig) fun _ v => Idle v.toProgress := by
  refine (Spec.Triple.loop (fun i _ => WaitAt i) fun i hi _ => waitFn_round hi).bind fun _ => ?_
  rintro k v ⟨hbusy, -, hw, ht, htimed⟩ hk
  exact ⟨.waitSend hbusy hw ht htimed, fun n _ =>
    ⟨.block nofun hbusy.1 rfl, fun _ _ => hk _ _ (.inr rfl)⟩⟩

/-! ### The third round -/

section High

variable {r a : Readings w} {start stop : Ccnt w} {n : ℕ}

/-- `signal` in the third round, after `n` measurements. -/
structure HighAt (n : ℕ) (v : View w) : Prop where
  busy : Busy v.toProgress
  starts : v.starts = 2
  marks : marks isStart v.hist = 2
  times : v.times = n

/-- An event that is no measurement. -/
theorem HighAt.stay (h : HighAt n v) {ev : Event (sig w)} (hev : isStart ev = false)
    (hbusy : Busy (advance .signal v.toProgress ev))
    (hstarts : (advance .signal v.toProgress ev).starts = v.starts)
    (htimes : (advance .signal v.toProgress ev).times = v.times) :
    HighAt n (step .signal v ev) := by
  refine ⟨hbusy, hstarts.trans h.starts, ?_, htimes.trans h.times⟩
  rw [step_hist, marks_concat, h.marks, hev]
  rfl

/-- `signal` after `n` measurements of the third round, with the times that it has read. -/
def HighMid (n : ℕ) (l : List (Ccnt w)) (F : Hist w → Prop) (v : View w) : Prop :=
  HighAt n v ∧ clocks (phase v.hist 2) = l ∧ F v.hist

section Measure

variable {l : List (Ccnt w)} {F : Hist w → Prop}
  (hF : ∀ h ev, (∀ x, storeOf x ev = none) → F h → F (h ++ [ev]))

include hF

theorem highClock_triple (hn : n < e.total) : ((protocol e).spec .signal).Triple (HighMid n l F)
    Code.clock fun t => HighMid n (l ++ [t]) F := by
  rintro k v ⟨hat, hl, hv⟩ hk
  refine ⟨.highClock hat.busy hat.starts (hat.times.trans_lt hn), fun t _ => hk _ _
    ⟨hat.stay rfl hat.busy rfl rfl, ?_, hF _ _ (fun _ => rfl) hv⟩⟩
  refine (filterMap_segment_concat _ _ rfl hat.marks.symm).trans ?_
  exact congrArg (· ++ [t]) hl

/-- Signalling, which may find the flag set. -/
theorem highSignal_triple (hn : n < e.total) : ((protocol e).spec .signal).Triple (HighMid n l F)
    (Code.signal .ntfn) fun _ => HighMid n l F := by
  rintro k v ⟨hat, hl, hv⟩ hk
  refine ⟨.highSignal hat.busy hat.starts (hat.times.trans_lt hn), fun a _ => hk _ _
    ⟨hat.stay rfl hat.busy rfl rfl, ?_, hF _ _ (fun _ => rfl) hv⟩⟩
  exact (filterMap_segment_of_none _ rfl 2).trans hl

/-- A measurement around the code `body`, the result of which is stored in `x`. -/
theorem high_measure {body : Code (sig w) Unit} {x : Var} (hn : n < e.total)
    (hx : resultOf x = (.signal, 2)) (t : Ccnt w → Ccnt w → Val w x)
    (F' : Ccnt w → Ccnt w → Hist w → Prop)
    (hbody : ∀ l, ((protocol e).spec .signal).Triple (HighMid n l F) body fun _ => HighMid n l F)
    (hF' : ∀ start stop h, F h → F' start stop (h ++ [.did (.store x (t start stop)) ()])) :
    ((protocol e).spec .signal).Triple (HighMid n l F)
      (do
        let start ← Code.clock
        body
        let stop ← Code.clock
        Code.store x (t start stop))
      fun _ v => ∃ start stop, HighMid (n + 1) (l ++ [start, stop]) (F' start stop) v := by
  refine (highClock_triple hF hn).bind fun start => (hbody _).bind fun _ =>
    (highClock_triple hF hn).bind fun stop => ?_
  rintro k v ⟨hat, hl, hv⟩ hk
  have hadv := advance_store_high hx v.toProgress (t start stop) ()
  refine ⟨.highStore hat.busy hat.starts (hat.times.trans_lt hn) hx _, fun _ _ => hk _ _
    ⟨start, stop, ⟨?_, ?_, ?_, ?_⟩, ?_, hF' start stop _ hv⟩⟩
  · exact ⟨(congrArg Progress.active hadv).trans hat.busy.1,
      (congrArg Progress.done hadv).trans hat.busy.2⟩
  · exact (congrArg Progress.starts hadv).trans hat.starts
  · exact (marks_concat _ _).trans hat.marks
  · exact (congrArg Progress.times hadv).trans (congrArg (· + 1) hat.times)
  · refine (filterMap_segment_of_none _ rfl 2).trans (hl.trans ?_)
    rw [List.append_assoc]
    rfl

end Measure

/-- The row of the single signals. -/
def resultRow (h : Hist w) (i : ℕ) : Option (Ccnt w) :=
  lastStore (σ := sig w) (Var.hiPrioResults i) h

/-- The row of the averages. -/
def averageRow (h : Hist w) (j : ℕ) : Option (Ccnt w) :=
  lastStore (σ := sig w) (Var.hiPrioAverage j) h

theorem Stored.resultRow_append {h : Hist w} {ev : Event (sig w)} (hs : Stored (resultRow h) c r)
    (hev : ∀ i, storeOf (Var.hiPrioResults i) ev = none) : Stored (resultRow (h ++ [ev])) c r :=
  hs.congr fun i => lastStore_append (hev i) h

/-- The single signals of the third round. -/
def HighLoop (c : ℕ) (v : View w) : Prop :=
  ∃ r, HighMid c (pairs r c) (fun h => Stored (resultRow h) c r) v

theorem highResult_round (hc : c < e.runs) :
    ((protocol e).spec .signal).Triple (HighLoop c)
      (do
        let start ← Code.clock
        Code.signal .ntfn
        let stop ← Code.clock
        Code.store (σ := sig w) (.hiPrioResults c) (stop - start : Ccnt w))
      fun _ => HighLoop (c + 1) := by
  have htotal : c < e.total := Nat.lt_add_right _ hc
  refine Spec.Triple.of_exists fun r => ?_
  have hF : ∀ (h : Hist w) ev, (∀ x, storeOf x ev = none) → Stored (resultRow h) c r →
      Stored (resultRow (h ++ [ev])) c r := fun h ev hev hs => hs.resultRow_append fun _ => hev _
  refine (high_measure hF htotal (x := .hiPrioResults c) rfl (fun start stop => stop - start)
    (fun start stop h => Stored (resultRow h) (c + 1) (r.set c start stop))
    (fun l => highSignal_triple hF htotal) fun start stop h hs => ?_).conseq (fun _ h => h)
    fun _ v hv => ?_
  · refine hs.set ?_ fun i hi => ?_
    · exact lastStore_append_store_self (σ := sig w) (Var.hiPrioResults c) _ _ _
    · exact lastStore_append_store_of_ne (σ := sig w)
        (fun h => hi (Var.hiPrioResults.inj h).symm) _ _ _
  · obtain ⟨start, stop, hat, hl, hs⟩ := hv
    exact ⟨r.set c start stop, hat, by rw [hl, pairs_set], hs⟩

section Averages

variable {chunks j m : ℕ}

/-- The elapsed time of the last chunk of every run before `j`. -/
def Averaged (chunks j : ℕ) (a : Readings w) (h : Hist w) : Prop :=
  0 < chunks → ∀ i < j, averageRow h i =
    some (a.stop ((i + 1) * chunks - 1) - a.start ((i + 1) * chunks - 1))

/-- The averages of the third round, in run `j` after `m` chunks: the elapsed time of the last chunk
is in the row. -/
def AverageLoop (cfg : Config) (r : Readings w) (j m : ℕ) (v : View w) : Prop :=
  ∃ a, HighMid (cfg.runs + (j * cfg.chunks + m)) (pairs r cfg.runs ++ pairs a (j * cfg.chunks + m))
    (fun h => Stored (resultRow h) cfg.runs r ∧ Averaged cfg.chunks j a h ∧
      (0 < m → averageRow h j =
        some (a.stop (j * cfg.chunks + m - 1) - a.start (j * cfg.chunks + m - 1)))) v

/-- The chunks of the earlier runs are before those of run `j`. -/
theorem last_chunk_lt {i : ℕ} (hc : 0 < chunks) (hi : i < j) :
    (i + 1) * chunks - 1 < j * chunks + m := by
  have hle : (i + 1) * chunks ≤ j * chunks := Nat.mul_le_mul_right _ hi
  have hpos : 0 < (i + 1) * chunks := Nat.mul_pos (Nat.succ_pos i) hc
  omega

/-- The chunks of run `j` belong to the measurements. -/
theorem chunk_lt_total {cfg : Config} (hj : j < cfg.runs) (hm : m < cfg.chunks) :
    cfg.runs + (j * cfg.chunks + m) < cfg.total := by
  have hle : (j + 1) * cfg.chunks ≤ cfg.runs * cfg.chunks := Nat.mul_le_mul_right _ hj
  rw [Nat.succ_mul] at hle
  unfold Config.total
  omega

theorem averageChunk_round (hj : j < e.runs) (hm : m < e.chunks) :
    ((protocol e).spec .signal).Triple (AverageLoop e.toConfig r j m)
      (do
        let start ← Code.clock
        Code.loop e.averageRuns () fun _ _ => Code.signal .ntfn
        let stop ← Code.clock
        Code.store (σ := sig w) (.hiPrioAverage j) (stop - start : Ccnt w))
      fun _ => AverageLoop e.toConfig r j (m + 1) := by
  have htotal := chunk_lt_total hj hm
  refine Spec.Triple.of_exists fun a => ?_
  have hF : ∀ (h : Hist w) ev, (∀ x, storeOf x ev = none) →
      (Stored (resultRow h) e.runs r ∧ Averaged e.chunks j a h ∧ (0 < m → averageRow h j =
        some (a.stop (j * e.chunks + m - 1) - a.start (j * e.chunks + m - 1)))) →
      Stored (resultRow (h ++ [ev])) e.runs r ∧ Averaged e.chunks j a (h ++ [ev]) ∧
        (0 < m → averageRow (h ++ [ev]) j =
          some (a.stop (j * e.chunks + m - 1) - a.start (j * e.chunks + m - 1))) := by
    rintro h ev hev ⟨hs, ha, hlast⟩
    exact ⟨hs.resultRow_append fun _ => hev _,
      fun hc i hi => (lastStore_append (hev _) h).trans (ha hc i hi),
      fun hpos => (lastStore_append (hev _) h).trans (hlast hpos)⟩
  refine (high_measure hF htotal (x := .hiPrioAverage j) rfl (fun start stop => stop - start)
    (fun start stop h => Stored (resultRow h) e.runs r ∧
      Averaged e.chunks j (a.set (j * e.chunks + m) start stop) h ∧
      averageRow h j = some (stop - start))
    (fun l => Spec.Triple.loop (fun _ _ => HighMid _ l _) fun _ _ _ => highSignal_triple hF htotal)
    fun start stop h hs => ?_).conseq (fun _ h => h) fun _ v hv => ?_
  · obtain ⟨hs, ha, -⟩ := hs
    refine ⟨hs.resultRow_append fun _ => rfl,
      fun hc i hi => ?_, lastStore_append_store_self (σ := sig w) (Var.hiPrioAverage j) _ _ _⟩
    rw [set_elapsed_of_ne a _ _ (last_chunk_lt hc hi).ne]
    exact (lastStore_append_store_of_ne (σ := sig w)
      (fun h => hi.ne (Var.hiPrioAverage.inj h).symm) _ _ _).trans (ha hc i hi)
  · obtain ⟨start, stop, hat, hl, hs, ha, hlast⟩ := hv
    refine ⟨a.set (j * e.chunks + m) start stop, hat, ?_, hs, ha, fun _ => ?_⟩
    · rw [hl, List.append_assoc, ← pairs_set]
      rfl
    · rw [hlast, ← Nat.add_assoc, Nat.add_sub_cancel, set_elapsed_self]

theorem average_round (hj : j < e.runs) :
    ((protocol e).spec .signal).Triple (AverageLoop e.toConfig r j 0)
      (Code.loop e.chunks () fun _ _ => do
        let start ← Code.clock
        Code.loop e.averageRuns () fun _ _ => Code.signal .ntfn
        let stop ← Code.clock
        Code.store (σ := sig w) (.hiPrioAverage j) (stop - start : Ccnt w))
      fun _ => AverageLoop e.toConfig r (j + 1) 0 := by
  refine (Spec.Triple.loop (fun m _ => AverageLoop e.toConfig r j m) fun m hm _ =>
    averageChunk_round hj hm).conseq (fun _ h => h) fun _ v hv => ?_
  obtain ⟨a, hat, hl, hs, ha, hlast⟩ := hv
  have hmul : (j + 1) * e.chunks + 0 = j * e.chunks + e.chunks := Nat.succ_mul _ _
  refine ⟨a, ?_, ?_, hs, fun hc i hi => ?_, nofun⟩
  · rwa [hmul]
  · rwa [hmul]
  · obtain hi | rfl := Nat.lt_succ_iff_lt_or_eq.mp hi
    · exact ha hc i hi
    · rw [Nat.succ_mul]
      exact hlast hc

/-- After its done message `signal` does not work any more. -/
theorem finish_high : ((protocol e).spec .signal).Triple
    (fun v => HighAt e.total v ∧ RecordedHigh e.toConfig v.hist) finish
    fun _ v => Idle v.toProgress := by
  rintro k v ⟨hat, hrec⟩ hk
  exact ⟨.highSend hat.busy hat.starts hat.times hrec, fun n _ =>
    ⟨.block nofun hat.busy.1 rfl, fun _ _ => hk _ _ (.inr rfl)⟩⟩

theorem highPrioSignalFn_triple : ((protocol e).spec .signal).Triple
    (fun v => HighAt 0 v ∧ phase v.hist 2 = []) (highPrioSignalFn e.toConfig)
    fun _ v => Idle v.toProgress := by
  refine ((Spec.Triple.loop (fun i _ => HighLoop i) fun i hi _ =>
    highResult_round hi).conseq (fun v hv => ?_) fun _ _ h => h).bind fun _ => ?_
  · obtain ⟨hat, hphase⟩ := hv
    refine ⟨⟨0, 0⟩, hat, ?_, nofun⟩
    rw [hphase]
    rfl
  · refine Spec.Triple.of_exists fun r => ((Spec.Triple.loop
      (fun j _ => AverageLoop e.toConfig r j 0) fun j hj _ => average_round hj).conseq
      (fun v hv => ?_) fun _ _ h => h).bind fun _ => finish_high.conseq (fun v hv => ?_)
      fun _ _ h => h
    · obtain ⟨hat, hl, hs⟩ := hv
      refine ⟨⟨0, 0⟩, ?_, ?_, hs, fun _ => nofun, nofun⟩
      · rwa [Nat.zero_mul]
      · rw [hl, Nat.zero_mul]
        exact (List.append_nil _).symm
    · obtain ⟨a, hat, hl, hs, ha, -⟩ := hv
      exact ⟨hat, r, a, hl, hs, ha⟩

end Averages

end High

/-! ### Main -/

section Main

variable {r : Readings w} {b : Low}

/-- `main` while it measures the overhead and sets the priorities of the first two rounds. -/
def Prologue (F : Hist w → Prop) (v : View w) : Prop :=
  v.round = 0 ∧ v.stage = 0 ∧ F v.hist

theorem mainStore_triple {x : Var} (hx : writer x = .main) (hp : x ≠ .prio .main) (t : Val w x)
    (F F' : Hist w → Prop) (hF : ∀ h, F h → F' (h ++ [.did (.store x t) ()])) :
    ((protocol e).spec .main).Triple (Prologue F) (Code.store x t) fun _ => Prologue F' := by
  rintro k v ⟨hr, hd, hv⟩ hk
  exact ⟨.mainStore hr hd hx hp t, fun _ _ => hk _ _ ⟨hr, hd, hF _ hv⟩⟩

/-- The row of the overheads. -/
def overheadRow (h : Hist w) (i : ℕ) : Option (Ccnt w) :=
  lastStore (σ := sig w) (Var.overhead i) h

/-- The first `c` overheads, and no priority of `main` yet. -/
def OverheadLoop (c : ℕ) (r : Readings w) (h : Hist w) : Prop :=
  clocks h = pairs r c ∧ Stored (overheadRow h) c r ∧ lastStore (Var.prio .main) h = none

theorem measureSignalOverhead_round :
    ((protocol e).spec .main).Triple (Prologue fun h => ∃ r, OverheadLoop c r h)
      (do
        let start ← Code.clock
        let stop ← Code.clock
        Code.store (σ := sig w) (.overhead c) (stop - start : Ccnt w))
      fun _ => Prologue fun h => ∃ r, OverheadLoop (c + 1) r h := by
  rintro k v ⟨hr, hd, r, hl, hs, hp⟩ hk
  refine ⟨.mainClock hr hd, fun start _ => ⟨.mainClock hr hd, fun stop _ =>
    ⟨.mainStore (x := .overhead c) (by exact hr) (by exact hd) rfl nofun _, fun _ _ =>
      hk _ _ ⟨hr, hd, r.set c start stop, ?_, ?_, ?_⟩⟩⟩⟩
  · rw [pairs_set, ← hl]
    simp only [protocol, step_hist, clocks, List.filterMap_append, List.append_assoc]
    rfl
  · refine hs.set ?_ fun i hi => ?_
    · exact lastStore_append_store_self (σ := sig w) (Var.overhead c) _ _ _
    · refine (lastStore_append_store_of_ne (σ := sig w)
        (fun h => hi (Var.overhead.inj h).symm) _ _ _).trans ?_
      exact (lastStore_append (σ := sig w) rfl _).trans (lastStore_append (σ := sig w) rfl _)
  · exact (lastStore_append (σ := sig w) rfl _).trans ((lastStore_append (σ := sig w) rfl _).trans
      ((lastStore_append (σ := sig w) rfl _).trans hp))

theorem measureSignalOverhead_triple :
    ((protocol e).spec .main).Triple (fun v => v = {}) (measureSignalOverhead e.toConfig)
      fun _ => Prologue fun h => ∃ r, OverheadLoop e.runs r h := by
  refine (Spec.Triple.loop (fun i _ => Prologue fun h => ∃ r, OverheadLoop i r h) fun i _ _ =>
    measureSignalOverhead_round).conseq (fun v hv => ?_) fun _ _ h => h
  subst hv
  exact ⟨rfl, rfl, ⟨0, 0⟩, rfl, nofun, rfl⟩

/-- What `main` reads in the row of the overheads is what it has stored there. -/
theorem minOverhead_triple :
    ((protocol e).spec .main).Triple (Prologue fun h => OverheadLoop e.runs r h)
      (minOverhead e.toConfig) fun o => Prologue fun h => OverheadLoop e.runs r h ∧
        o = getMinOverhead (fun i => r.stop i - r.start i) e.runs := by
  refine ((Spec.Triple.loop (fun i (overhead : ℕ → Ccnt w) => Prologue fun h =>
    OverheadLoop e.runs r h ∧ ∀ j < i, overhead j = r.stop j - r.start j)
    fun i hi overhead => ?_).conseq (fun v hv => ?_) fun _ _ h => h).bind fun overhead => ?_
  · rintro k v ⟨hr, hd, ⟨hl, hs, hp⟩, ho⟩ hk
    refine ⟨.mainLoad hr hd i, fun x hx => hk _ _ ⟨hr, hd, ⟨?_, ?_, ?_⟩, fun j hj => ?_⟩⟩
    · refine (filterMap_concat _ _ _).trans ?_
      exact (List.append_nil _).trans hl
    · exact hs.congr fun i => lastStore_append (σ := sig w) rfl _
    · exact (lastStore_append (σ := sig w) rfl _).trans hp
    · by_cases hji : j = i
      · subst hji
        rw [Function.update_self]
        exact hx rfl _ (hs j hi)
      · rw [Function.update_of_ne hji]
        exact ho j (by omega)
  · obtain ⟨hr, hd, hv⟩ := hv
    exact ⟨hr, hd, hv, fun _ => nofun⟩
  · refine Spec.Triple.pure fun v hv => ?_
    obtain ⟨hr, hd, hv, ho⟩ := hv
    exact ⟨hr, hd, hv, getMinOverhead_congr ho⟩

/-- The overhead has been measured, and the priorities of the first two rounds are set. -/
def Ready (e : Setup w) (h : Hist w) : Prop := Measured e.toConfig h ∧ LowPrios e h

theorem Ready.quiet {h : Hist w} {ev : Event (sig w)} (hr : Ready e h) (hev : Quiet ev) :
    Ready e (h ++ [ev]) :=
  ⟨hr.1.append hev.clock fun x _ _ => hev.store x, hr.2.append fun _ => hev.store _⟩

/-- The priorities of the first two rounds. -/
theorem setLowPrios_triple {α : Type} {c : Code (sig w) α} {Q : α → View w → Prop}
    (hc : ((protocol e).spec .main).Triple (Prologue (Ready e)) c Q) :
    ((protocol e).spec .main).Triple
      (Prologue fun h => Measured e.toConfig h ∧ lastStore (Var.prio .main) h = none)
      (do
        setPriority .wait e.maxPrio
        setPriority .signal (e.maxPrio - 1)
        setPriority .signalEarlyProc (e.maxPrio - 1)
        c) Q := by
  have hmeasured : ∀ {h : Hist w} {p : Party} {n : ℕ}, Measured e.toConfig h →
      Measured e.toConfig (h ++ [.did (.store (.prio p) n) ()]) := fun hm =>
    hm.append rfl fun x _ hx => storeOf_store_of_ne (σ := sig w) (hx _).symm _ _
  let F₁ : Hist w → Prop := fun h => Measured e.toConfig h ∧ lastStore (Var.prio .main) h = none
  let F₂ : Hist w → Prop := fun h => F₁ h ∧ lastStore (Var.prio .wait) h = some e.maxPrio
  let F₃ : Hist w → Prop := fun h => F₂ h ∧ lastStore (Var.prio .signal) h = some (e.maxPrio - 1)
  refine (mainStore_triple (x := .prio .wait) rfl nofun e.maxPrio F₁ F₂ fun h hh => ?_).bind
    fun _ => (mainStore_triple (x := .prio .signal) rfl nofun (e.maxPrio - 1) F₂ F₃
      fun h hh => ?_).bind fun _ => (mainStore_triple (x := .prio .signalEarlyProc) rfl nofun
      (e.maxPrio - 1) F₃ (Ready e) fun h hh => ?_).bind fun _ => hc
  · refine ⟨⟨hmeasured hh.1, (lastStore_append (σ := sig w) rfl _).trans hh.2⟩, ?_⟩
    exact lastStore_append_store_self (σ := sig w) (Var.prio .wait) _ _ _
  · obtain ⟨⟨hm, hp⟩, hwait⟩ := hh
    refine ⟨⟨⟨hmeasured hm, (lastStore_append (σ := sig w) rfl _).trans hp⟩,
      (lastStore_append (σ := sig w) rfl _).trans hwait⟩, ?_⟩
    exact lastStore_append_store_self (σ := sig w) (Var.prio .signal) _ _ _
  · obtain ⟨⟨⟨hm, hp⟩, hwait⟩, hsignal⟩ := hh
    refine ⟨hmeasured hm, (lastStore_append (σ := sig w) rfl _).trans hwait,
      (lastStore_append (σ := sig w) rfl _).trans hsignal, ?_,
      (lastStore_append (σ := sig w) rfl _).trans hp⟩
    exact lastStore_append_store_self (σ := sig w) (Var.prio .signalEarlyProc) _ _ _

/-- A place of `main` between two of its rounds. -/
def RoundAt (n : ℕ) (F : Hist w → Prop) (v : View w) : Prop :=
  v.round = n ∧ v.stage = 0 ∧ F v.hist

/-- The end of a low round, after which `main` continues with `c`. -/
theorem stopLow_triple {α : Type} {c : Code (sig w) α} {Q : α → View w → Prop} (b : Low)
    (hc : ((protocol e).spec .main).Triple (RoundAt (b.index + 1) (Ready e)) c Q) :
    ((protocol e).spec .main).Triple
      (fun v => v.round = b.index ∧ v.stage = 4 ∧ Ready e v.hist)
      (do
        stopThreads b.signaller .wait
        c) Q := by
  rintro k v ⟨hr, hd, hready⟩ hk
  have hlt := b.index_lt
  refine ⟨.stopSignaller hr hd, fun a _ => ?_⟩
  have hadv : (step .main v (.did (.suspend b.signaller) a)).toProgress =
      { v.toProgress with stage := 5 } := by
    simp only [step_progress, advance, hd]
    rfl
  refine ⟨.stopWait ?_ (congrArg Progress.stage hadv), fun a' _ => hc k _ ?_ hk⟩
  · exact (congrArg Progress.round hadv).trans_lt (hr.trans_lt hlt)
  · have hadv' : (step .main (step .main v (.did (.suspend b.signaller) a))
        (.did (.suspend .wait) a')).toProgress =
        { v.toProgress with round := v.round + 1, stage := 0 } := by
      rw [step_progress, hadv]
      rfl
    exact ⟨(congrArg Progress.round hadv').trans (congrArg (· + 1) hr),
      congrArg Progress.stage hadv', (hready.quiet (quiet_suspend _ _)).quiet (quiet_suspend _ _)⟩

/-- A low round, after which `main` continues with `c`. -/
theorem lowRound_triple {α : Type} {c : Code (sig w) α} {Q : α → View w → Prop} (b : Low)
    (hc : ((protocol e).spec .main).Triple (RoundAt (b.index + 1) (Ready e)) c Q) :
    ((protocol e).spec .main).Triple (RoundAt b.index (Ready e))
      (do
        startThreads b.signaller b.signalFn .wait .waitFn
        benchmarkWaitChildren Msg.isFault .ep 2
        stopThreads b.signaller .wait
        c) Q := by
  rintro k v ⟨hr, hd, hready⟩ hk
  have hlt := b.index_lt
  have hr' : v.round < 2 := hr.trans_lt hlt
  -- The round stays the same, and the stage goes from 0 to 5.
  refine ⟨.startSignaller hr hd hready.1 hready.2, fun _ _ => ⟨.startWait hr' ?_, fun _ _ => ?_⟩⟩
  · exact congrArg (· + 1) hd
  refine ⟨.recvLow hr' (.inl ?_), fun x hx => ?_⟩
  · exact congrArg (· + 2) hd
  obtain ⟨n, m⟩ := x
  cases (hx : m = .empty)
  refine ⟨.recvLow hr' (.inr ?_), fun y hy => ?_⟩
  · exact congrArg (· + 3) hd
  obtain ⟨n', m'⟩ := y
  cases (hy : m' = .empty)
  refine stopLow_triple b hc k _ ⟨hr, congrArg (· + 4) hd, ?_⟩ hk
  exact (((hready.quiet (quiet_start _ _ _)).quiet (quiet_start _ _ _)).quiet
    (quiet_recv _ _)).quiet (quiet_recv _ _)

theorem setPriority_triple (p : Party) (n : ℕ) (F F' : Hist w → Prop)
    (hF : ∀ h, F h → F' (h ++ [.did (.store (.prio p) n) ()])) :
    ((protocol e).spec .main).Triple (RoundAt 2 F) (setPriority p n) fun _ => RoundAt 2 F' := by
  rintro k v ⟨hr, hd, hv⟩ hk
  exact ⟨.setPriority hr hd p n, fun _ _ => hk _ _ ⟨hr, hd, hF _ hv⟩⟩

theorem stopHigh_triple : ((protocol e).spec .main).Triple (fun v => v.round = 2 ∧ v.stage = 3)
    (stopThreads .wait .signal) fun _ v => v.round = 2 ∧ v.stage = 5 := by
  rintro k v ⟨hr, hd⟩ hk
  refine ⟨.stopWaitHigh hr hd, fun a _ => ?_⟩
  have hadv : (step .main v (.did (.suspend .wait) a)).toProgress =
      { v.toProgress with stage := 4 } := by
    simp only [step_progress, advance, hd]
    rfl
  refine ⟨.stopSignal ((congrArg Progress.round hadv).trans hr) (congrArg Progress.stage hadv),
    fun a' _ => hk _ _ ?_⟩
  have hadv' : (step .main (step .main v (.did (.suspend .wait) a))
      (.did (.suspend .signal) a')).toProgress = { v.toProgress with stage := 5 } := by
    rw [step_progress, hadv]
    rfl
  exact ⟨(congrArg Progress.round hadv').trans hr, congrArg Progress.stage hadv'⟩

theorem highRound_triple : ((protocol e).spec .main).Triple (RoundAt 2 (HighPrios e))
    (do
      startThreads .wait .waitFn .signal .highPrioSignalFn
      benchmarkWaitChildren Msg.isFault .ep 1
      stopThreads .wait .signal)
    fun _ v => v.round = 2 ∧ v.stage = 5 := by
  rintro k v ⟨hr, hd, hp⟩ hk
  refine ⟨.startWaitHigh hr hd hp, fun _ _ => ⟨.startSignal hr ?_, fun _ _ =>
    ⟨.recvHigh hr ?_, fun x hx => ?_⟩⟩⟩
  · exact congrArg (· + 1) hd
  · exact congrArg (· + 2) hd
  obtain ⟨n, m⟩ := x
  cases (hx : m = .empty)
  exact stopHigh_triple k _ ⟨hr, congrArg (· + 3) hd⟩ hk

theorem benchmark_triple : ((protocol e).spec .main).Triple
    (Prologue fun h => Measured e.toConfig h ∧ lastStore (Var.prio .main) h = none)
    (benchmark e.toConfig) fun _ v => v.round = 2 ∧ v.stage = 5 := by
  let F₁ : Hist w → Prop := fun h => lastStore (Var.prio .wait) h = some (e.maxPrio - 1)
  let F₂ : Hist w → Prop := fun h => F₁ h ∧ lastStore (Var.prio .signal) h = some e.maxPrio
  refine setLowPrios_triple (lowRound_triple .late (lowRound_triple .early ?_))
  refine (setPriority_triple .wait (e.maxPrio - 1) (Ready e) F₁ fun h _ => ?_).bind fun _ =>
    (setPriority_triple .signal e.maxPrio F₁ F₂ fun h hh => ⟨?_, ?_⟩).bind fun _ =>
    (setPriority_triple .main (e.maxPrio - 2) F₂ (HighPrios e) fun h hh => ⟨?_, ?_, ?_⟩).bind
    fun _ => highRound_triple
  · exact lastStore_append_store_self (σ := sig w) (Var.prio .wait) _ _ _
  · exact (lastStore_append (σ := sig w) rfl _).trans hh
  · exact lastStore_append_store_self (σ := sig w) (Var.prio .signal) _ _ _
  · exact (lastStore_append (σ := sig w) rfl _).trans hh.1
  · exact (lastStore_append (σ := sig w) rfl _).trans hh.2
  · exact lastStore_append_store_self (σ := sig w) (Var.prio .main) _ _ _

theorem main_triple : ((protocol e).spec .main).Triple (fun v => v = {}) (main e.toConfig)
    fun _ v => v.round = 2 ∧ v.stage = 5 := by
  refine measureSignalOverhead_triple.bind fun _ => ?_
  refine Spec.Triple.bind (Q := fun o => Prologue fun h => ∃ r, OverheadLoop e.runs r h ∧
    o = getMinOverhead (fun i => r.stop i - r.start i) e.runs) ?_ fun o => ?_
  · rintro k v ⟨hr, hd, r, hv⟩ hk
    exact minOverhead_triple k v ⟨hr, hd, hv⟩ fun o v' hv' =>
      hk o v' ⟨hv'.1, hv'.2.1, r, hv'.2.2⟩
  · refine (mainStore_triple (x := .overheadMin) rfl nofun o _ (fun h => Measured e.toConfig h ∧
      lastStore (Var.prio .main) h = none) fun h hh => ?_).bind fun _ => benchmark_triple
    obtain ⟨r, ⟨hl, hs, hp⟩, ho⟩ := hh
    refine ⟨⟨r, ?_, fun i hi => ?_, ?_⟩, (lastStore_append (σ := sig w) rfl _).trans hp⟩
    · exact (filterMap_concat _ _ _).trans ((List.append_nil _).trans hl)
    · exact (lastStore_append (σ := sig w) rfl _).trans (hs i hi)
    · rw [← ho]
      exact lastStore_append_store_self (σ := sig w) Var.overheadMin _ _ _

end Main

theorem code_safe (e : Setup w) (p : Party) (ℓ : Entry) (v : View w) (hv : AtEntry p ℓ v) :
    ((protocol e).spec p).Safe (code e.toConfig ℓ) v := by
  cases hv with
  | wait hv hm hp =>
    refine waitFn_triple.safe_run ⟨⟨hv.active, hv.done⟩, hm, hv.waits, hv.times, ?_⟩
    rw [Timed, hp]
    rfl
  | @low b _ hv hs hm hp =>
    have hat : LowAt 0 0 v := ⟨⟨hv.active, hv.done⟩, hs, hm, hv.signals, hv.times⟩
    cases b with
    | late => exact lowPrioSignalFn_triple.safe_run ⟨hat, hp⟩
    | early => exact lowPrioSignalEarlyProcFn_triple.safe_run ⟨hat, hp⟩
  | high hv hs hm hp =>
    have hat : HighAt 0 v := ⟨⟨hv.active, hv.done⟩, hs, hm, hv.times⟩
    exact highPrioSignalFn_triple.safe_run ⟨hat, hp⟩

theorem inv_init (e : Setup w) : (protocol e).Inv (init e.toConfig e.mem) where
  safe p := by
    cases p with
    | wait | signal | signalEarlyProc => exact .inl rfl
    | main => exact main_triple.safe_run rfl
  own p := by
    have hlow : ∀ b, OwnLow e b {} := fun b =>
      ⟨rfl, fun h => absurd h nofun, fun h => absurd h nofun, fun h => absurd h nofun,
        fun h => absurd h nofun⟩
    cases p with
    | wait => exact ⟨rfl, ⟨le_rfl, Nat.zero_le _, Nat.zero_le _⟩, nofun, rfl, nofun⟩
    | signal => exact ⟨hlow .late, nofun⟩
    | signalEarlyProc => exact hlow .early
    | main =>
      have hnot : ¬(0 < (0 : ℕ) ∨ 0 < 0) := by omega
      exact ⟨fun h => absurd h hnot, fun _ h => absurd h hnot, nofun, fun _ => rfl⟩
  rel := by
    refine ⟨⟨Nat.zero_le 2, fun p hp => ?_, fun p hp => ?_, fun _ _ h => ?_, fun _ _ => rfl⟩,
      fun _ => rfl, fun b hb => ?_, fun b => ?_, nofun, fun _ => nofun⟩
    · cases p <;> rfl
    · cases p <;> first | exact .inl rfl | trivial
    · exact absurd h.2 (by rintro (h | h) <;> exact absurd h nofun)
    · exact absurd hb (by rintro (h | ⟨-, h⟩) <;> exact absurd h nofun)
    · exact List.nil_prefix

/-! ### Bounds -/

section Bounds

variable {B : Budget (sig w)} (cfg : Config)

/-- The steps of a thread. -/
def budget : ℕ :=
  cfg.runs * 4 + cfg.runs * (cfg.chunks * (1 + (cfg.averageRuns * 1 + (1 + 1)))) + 8

/-- The threads take a bounded number of steps. -/
theorem within_code (ℓ : Entry) : Within (σ := sig w) B (budget cfg) (code cfg ℓ) := by
  unfold budget
  cases ℓ with
  | waitFn =>
    have hfn : Bounded (σ := sig w) B _ (waitFn cfg) := (Bounded.loop fun _ _ =>
      (Bounded.wait _).bind fun _ => Bounded.clock.bind fun _ => Bounded.store _ _).bind
      fun _ => .sendWait _ _ _
    exact hfn.within_run.mono (by omega)
  | lowPrioSignalFn =>
    have hfn : Bounded (σ := sig w) B _ (lowPrioSignalFn cfg) := (Bounded.loop fun _ _ =>
      Bounded.clock.bind fun _ => (Bounded.signal _).bind fun _ =>
      (Bounded.load (σ := sig w) .stop).bind fun _ => Bounded.store _ _).bind
      fun _ => .sendWait _ _ _
    exact hfn.within_run.mono (by omega)
  | lowPrioSignalEarlyProcFn =>
    have hfn : Bounded (σ := sig w) B _ (lowPrioSignalEarlyProcFn cfg) :=
      (Bounded.load (σ := sig w) .overheadMin).bind fun _ => (Bounded.loop fun _ _ =>
      Bounded.clock.bind fun _ => (Bounded.signal _).bind fun _ =>
      (Bounded.load (σ := sig w) .stop).bind fun _ => .pure _).bind fun _ =>
      (Bounded.store _ _).bind fun _ => (Bounded.store _ _).bind fun _ =>
      (Bounded.store _ _).bind fun _ => .sendWait _ _ _
    exact hfn.within_run.mono (by omega)
  | highPrioSignalFn =>
    have hfn : Bounded (σ := sig w) B _ (highPrioSignalFn cfg) := (Bounded.loop fun _ _ =>
      Bounded.clock.bind fun _ => (Bounded.signal _).bind fun _ => Bounded.clock.bind fun _ =>
      Bounded.store _ _).bind fun _ => (Bounded.loop fun _ _ => Bounded.loop fun _ _ =>
      Bounded.clock.bind fun _ => (Bounded.loop fun _ _ => Bounded.signal _).bind fun _ =>
      Bounded.clock.bind fun _ => Bounded.store _ _).bind fun _ => .sendWait _ _ _
    exact hfn.within_run.mono (by omega)

/-- `main` takes a bounded number of steps, those of the threads that it starts included. -/
theorem exists_within_main (n : ℕ) :
    ∃ m, Within (σ := sig w) { label := fun _ => n } m (main cfg).run := by
  have hstart : ∀ p ℓ q ℓ', Bounded (σ := sig w) { label := fun _ => n } (n + 1 + (n + 1))
      (startThreads p ℓ q ℓ') := fun p ℓ q ℓ' =>
    (Bounded.start (σ := sig w) p ℓ).bind fun _ => .start (σ := sig w) q ℓ'
  have hstop : ∀ p q, Bounded (σ := sig w) { label := fun _ => n } (1 + 1) (stopThreads p q) :=
    fun p q => (Bounded.suspend (σ := sig w) p).bind fun _ => .suspend (σ := sig w) q
  have hprio : ∀ p x, Bounded (σ := sig w) { label := fun _ => n } 1 (setPriority p x) :=
    fun p x => .store (σ := sig w) (.prio p) x
  have hmeasure : Bounded (σ := sig w) { label := fun _ => n } (cfg.runs * (1 + (1 + 1)))
      (measureSignalOverhead cfg) :=
    Bounded.loop fun _ _ => Bounded.clock.bind fun _ => Bounded.clock.bind fun _ => .store _ _
  have hmin : Bounded (σ := sig w) { label := fun _ => n } (cfg.runs * (1 + 0) + 0)
      (minOverhead cfg) := (Bounded.loop fun i _ => (Bounded.load (σ := sig w) (.overhead i)).bind
    fun _ => .pure _).bind fun _ => .pure _
  have hbenchmark : Bounded (σ := sig w) { label := fun _ => n } _ (benchmark cfg) :=
    (hprio _ _).bind fun _ => (hprio _ _).bind fun _ => (hprio _ _).bind fun _ =>
    (hstart _ _ _ _).bind fun _ => (bounded_benchmarkWaitChildren _ _ 2).bind fun _ =>
    (hstop _ _).bind fun _ => (hstart _ _ _ _).bind fun _ =>
    (bounded_benchmarkWaitChildren _ _ 2).bind fun _ => (hstop _ _).bind fun _ =>
    (hprio _ _).bind fun _ => (hprio _ _).bind fun _ => (hprio _ _).bind fun _ =>
    (hstart _ _ _ _).bind fun _ => (bounded_benchmarkWaitChildren _ _ 1).bind fun _ => hstop _ _
  exact ⟨_, (hmeasure.bind fun _ => hmin.bind fun o => (Bounded.store (σ := sig w) .overheadMin
    o).bind fun _ => hbenchmark).within_run⟩

end Bounds

/-! ### Runs -/

section Runs

variable {s : State (sig w)} (e : Setup w)

variable {e} (hrun : Run (code e.toConfig) (FixedPriority (code e.toConfig) prio)
  (init e.toConfig e.mem) s)

include hrun

theorem inv_of_run : (protocol e).Inv s :=
  Protocol.inv_of_run (sound (code_safe e)) (inv_init e) hrun

theorem exists_step (hfin : s.thread .main ≠ .halt) : ∃ ps s',
    FixedPriority (code e.toConfig) prio s ps ∧ Step (code e.toConfig) s ps s' :=
  exists_fixedPriority (progress (inv_of_run hrun) hfin)

/-- Every run can be continued until `main` has ended. -/
theorem exists_run_halt : ∃ s', Run (code e.toConfig) (FixedPriority (code e.toConfig) prio) s s' ∧
    s'.thread .main = .halt := by
  obtain ⟨m, hm⟩ := exists_within_main (w := w) e.toConfig (budget e.toConfig + 1)
  refine exists_run_of_within (B := { label := fun _ => budget e.toConfig + 1 })
    (fun ℓ => ⟨_, Nat.lt_succ_self _, within_code e.toConfig ℓ⟩)
    (b := fun p => if p = .main then m else 0) (fun p => ?_)
    (fun s hs hgoal => exists_step hs hgoal) hrun
  cases p with
  | wait | signal | signalEarlyProc => exact .halt 0
  | main => exact hm

/-- A result in memory is the one that was last stored. -/
theorem mem_of_lastStore {x : Var} {t : Val w x}
    (h : lastStore (σ := sig w) x (s.hist (writer x)) = some t) : s.kernel.mem x = t := by
  have hmem := (inv_of_run hrun).rel.mem x
  rwa [records_hist.view, stored, h, Option.getD_some] at hmem

/-- The overhead that was subtracted is the one that `main` has stored. -/
theorem overhead_of_mem {o : Ccnt w} (ho : o ∈ overheads (s.hist .signalEarlyProc)) :
    s.kernel.mem .overheadMin = o := by
  refine mem_of_lastStore hrun (x := .overheadMin) ?_
  have hfacts := (inv_of_run hrun).rel.facts.overhead
  rw [records_hist.view] at hfacts
  have hlast := (hfacts o ho).2
  rwa [records_hist.view] at hlast

section Halt

variable (hfin : s.thread .main = .halt)

include hfin

/-- When `main` has ended it is at the end of its third round. -/
theorem round_of_halt : ((protocol e).view s.log .main).round = 2 ∧
    ((protocol e).view s.log .main).stage = 5 := by
  have hsafe := (inv_of_run hrun).safe .main
  rwa [hfin] at hsafe

theorem measured_of_halt : Measured e.toConfig (s.hist .main) := by
  have hown : OwnMain e ((protocol e).view s.log .main) := (inv_of_run hrun).own .main
  have hr := (round_of_halt hrun hfin).1
  have hm := hown.measured (.inl (by omega))
  rwa [records_hist.view] at hm

/-- The measurements of a low round, when `main` has ended. -/
theorem low_of_halt (b : Low) : ∃ r, Signalled e.toConfig b r (s.hist b.signaller) ∧
    clocks (phase (s.hist .wait) (b.index + 1)) = (List.range e.runs).map r.stop := by
  have hfacts := (inv_of_run hrun).rel.facts
  have hr := (round_of_halt hrun hfin).1
  obtain ⟨⟨r, hs⟩, hlen, htimed⟩ := hfacts.low b (.inl (b.index_lt.trans_eq hr.symm))
  have hpre := hfacts.paired b
  rw [hs.loads] at hpre
  rw [Timed, records_hist.view] at htimed
  rw [records_hist.view] at hpre hlen hs
  have heq := hpre.eq_of_length (by rw [hlen, List.length_map, List.length_range])
  exact ⟨r, hs, htimed.symm.trans heq.symm⟩

theorem high_of_halt : RecordedHigh e.toConfig (s.hist .signal) := by
  obtain ⟨hr, hd⟩ := round_of_halt hrun hfin
  have hrec := (inv_of_run hrun).rel.facts.high hr (by omega)
  rwa [records_hist.view] at hrec

end Halt

end Runs

/-- In a low round that is over the signaller has read the times `r.start` and sent as many signals,
none of which was lost, and the waiting thread has read the times `r.stop` when they have woken
it. -/
def Paired (cfg : Config) (b : Low) (r : Readings w) (s : State (sig w)) : Prop :=
  clocks (phase (s.hist b.signaller) 1) = (List.range cfg.runs).map r.start ∧
    signals (phase (s.hist b.signaller) 1) = List.replicate cfg.runs false ∧
    clocks (phase (s.hist .wait) (b.index + 1)) = (List.range cfg.runs).map r.stop

/-- **The samples of the signal benchmark.** For any number of runs and chunks, under fixed
priorities that `main` changes between its rounds: until `main` has ended some step is possible, and
it can end. When it has ended, the minimal overhead is that of the overheads that it has measured;
in the first two rounds no signal was lost, and the results of run `i`, or the sums of early
processing with this overhead, are computed from the time that the signaller has read before its
`i`-th signal and the time that the waiting thread has read when it was woken for the `i`-th time;
the results of the third round are the times between readings of `signal`, and of every run the
average of the last chunk is left. -/
theorem signal_samples (cfg : Config) (hprios : 2 ≤ cfg.maxPrio) (mem : ∀ x, Val w x)
    {s : State (sig w)} (hrun : Run (code cfg) (FixedPriority (code cfg) prio) (init cfg mem) s) :
    (s.thread .main ≠ .halt →
      ∃ ps s', FixedPriority (code cfg) prio s ps ∧ Step (code cfg) s ps s') ∧
      (∃ s', Run (code cfg) (FixedPriority (code cfg) prio) s s' ∧ s'.thread .main = .halt) ∧
      (s.thread .main = .halt → ∃ r₀ late early high average : Readings w,
        clocks (s.hist .main) = pairs r₀ cfg.runs ∧
        s.kernel.mem .overheadMin =
          getMinOverhead (fun i => r₀.stop i - r₀.start i) cfg.runs ∧
        Paired cfg .late late s ∧
        (∀ i < cfg.runs, s.kernel.mem (.loPrioResults i) = late.stop i - late.start i) ∧
        Paired cfg .early early s ∧
        (let res := earlyRun cfg.wordBits cfg.runs cfg.ignored early (s.kernel.mem .overheadMin)
        s.kernel.mem .loSum = res.sum ∧ s.kernel.mem .loSum2 = res.sum2 ∧
          s.kernel.mem .loNum = res.num) ∧
        clocks (phase (s.hist .signal) 2) =
          pairs high cfg.runs ++ pairs average (cfg.runs * cfg.chunks) ∧
        (∀ i < cfg.runs, s.kernel.mem (.hiPrioResults i) = high.stop i - high.start i) ∧
        (0 < cfg.chunks → ∀ j < cfg.runs, s.kernel.mem (.hiPrioAverage j) =
          average.stop ((j + 1) * cfg.chunks - 1) -
            average.start ((j + 1) * cfg.chunks - 1))) := by
  let e : Setup w := { toConfig := cfg, mem := mem, prios := hprios }
  have hrun' : Run (code e.toConfig) (FixedPriority (code e.toConfig) prio)
      (init e.toConfig e.mem) s := hrun
  refine ⟨exists_step hrun', exists_run_halt hrun', fun hfin => ?_⟩
  obtain ⟨r₀, hclocks, -, hmin⟩ := measured_of_halt hrun' hfin
  obtain ⟨late, hlate, hlate'⟩ := low_of_halt hrun' hfin .late
  obtain ⟨early, hearly, hearly'⟩ := low_of_halt hrun' hfin .early
  obtain ⟨high, average, hhigh⟩ := high_of_halt hrun' hfin
  obtain ⟨o, ho, hsum, hsum2, hnum⟩ := hearly.results
  obtain rfl := overhead_of_mem hrun' ho
  refine ⟨r₀, late, early, high, average, hclocks, mem_of_lastStore hrun' (x := .overheadMin) hmin,
    ⟨hlate.clocks, hlate.signals, hlate'⟩, fun i hi => ?_,
    ⟨hearly.clocks, hearly.signals, hearly'⟩, ⟨?_, ?_, ?_⟩, hhigh.clocks, fun i hi => ?_,
    fun hc j hj => ?_⟩
  · exact mem_of_lastStore hrun' (x := .loPrioResults i) (hlate.results i hi)
  · exact mem_of_lastStore hrun' (x := .loSum) hsum
  · exact mem_of_lastStore hrun' (x := .loSum2) hsum2
  · exact mem_of_lastStore hrun' (x := .loNum) hnum
  · exact mem_of_lastStore hrun' (x := .hiPrioResults i) (hhigh.results i hi)
  · exact mem_of_lastStore hrun' (x := .hiPrioAverage j) (hhigh.average hc j hj)

/-- A memory that is clear. -/
def zeroMem : ∀ x, Val w x
  | .prio _ => (0 : ℕ)
  | .stop | .loPrioResults _ | .hiPrioResults _ | .hiPrioAverage _ | .overhead _ | .overheadMin
  | .loSum | .loSum2 | .loNum => (0 : Ccnt w)

/-- One run has an execution, and its only sample of the first round is as stated. -/
theorem signal_samples_one : ∃ s : State (sig 64),
    Run (code ⟨64, 1, 0, 255, 1, 1⟩) (FixedPriority (code ⟨64, 1, 0, 255, 1, 1⟩) prio)
      (init ⟨64, 1, 0, 255, 1, 1⟩ zeroMem) s ∧
    ∃ start stop : Ccnt 64, clocks (phase (s.hist .signal) 1) = [start] ∧
      clocks (phase (s.hist .wait) 1) = [stop] ∧
      s.kernel.mem (.loPrioResults 0) = stop - start := by
  obtain ⟨-, ⟨s, hs, hfin⟩, -⟩ := signal_samples ⟨64, 1, 0, 255, 1, 1⟩ (by decide) zeroMem .refl
  obtain ⟨-, -, hhalt⟩ := signal_samples ⟨64, 1, 0, 255, 1, 1⟩ (by decide) _ hs
  obtain ⟨r₀, late, early, high, average, -, -, hpaired, hresults, -⟩ := hhalt hfin
  exact ⟨s, hs, late.start 0, late.stop 0, hpaired.1, hpaired.2.2, hresults 0 Nat.one_pos⟩

end Sel4bench.Signal
