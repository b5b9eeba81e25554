import Sel4bench.Scheduler.Protocol
import Sel4bench.Lib.Termination

/-!
# The rounds of the scheduler benchmark

The functions of the scheduler benchmark follow the protocol of `Scheduler.Protocol`, for every
number of runs and of priority levels. So no signal is lost, no thread gets stuck, every thread
completes its rounds, and no signal is left over at the end of a level. Under the fixed-priority
rule the results of a level are the differences between the times that `low` has read and the values
of `start` that `high` has written in the same rounds.

## Main results

* `Sel4bench.Scheduler.code_safe` — the threads follow the protocol.
* `Sel4bench.Scheduler.handshake` — the handshake of the two threads.
-/

namespace Sel4bench.Scheduler

open Machine
open Support (Msg benchmarkWaitChildren bounded_benchmarkWaitChildren)

variable {w : ℕ} {e : Setup w} {v : View w} {c : ℕ}

/-! ### Rounds -/

/-- A thread that works on a round, with what it has done so far. -/
structure At (signals waits times : ℕ) (v : Progress) : Prop where
  busy : Busy v
  signals : v.signals = signals
  waits : v.waits = waits
  times : v.times = times

theorem highFn_round (hc : c < e.runs) :
    ((protocol e).spec .high).Triple (fun v => At c c c v.toProgress)
      (do
        Code.signal .produce
        let t ← Code.clock
        Code.store .start t
        Code.wait .consume)
      fun _ v => At (c + 1) (c + 1) (c + 1) v.toProgress := by
  rintro k v ⟨hbusy, hs, hw, ht⟩ hk
  have hlt : v.times < v.signals + 1 := by omega
  refine ⟨⟨hbusy, hs.trans hw.symm, hs.trans_lt hc⟩, fun a _ => ⟨⟨hbusy, hlt⟩, fun t _ =>
    ⟨⟨hbusy, hlt⟩, fun _ _ => ⟨⟨hbusy, ?_, ?_⟩, fun _ _ => hk _ _ ⟨hbusy, ?_, ?_, ?_⟩⟩⟩⟩⟩
  · exact Nat.lt_succ_of_le (hw.trans hs.symm).le
  · exact congrArg (· + 1) (ht.trans hs.symm)
  · exact congrArg (· + 1) hs
  · exact congrArg (· + 1) hw
  · exact congrArg (· + 1) ht

/-- After its done message `high` does not come back from waiting. -/
theorem finish_high {Q : Unit → View w → Prop} :
    ((protocol e).spec .high).Triple (fun v => At e.runs e.runs e.runs v.toProgress) finish Q := by
  rintro k v ⟨hbusy, hs, hw, -⟩ hk
  exact ⟨⟨hbusy, hs, hw, rfl⟩, fun n _ => ⟨⟨hbusy.1, rfl⟩, fun a ha => absurd ha nofun⟩⟩

/-- After its done message `low` does not come back from waiting. -/
theorem finish_low {Q : Unit → View w → Prop} :
    ((protocol e).spec .low).Triple
      (fun v => At e.runs e.runs e.runs v.toProgress ∧ Recorded e v) finish Q := by
  rintro k v ⟨⟨hbusy, hs, hw, -⟩, hrec⟩ hk
  exact ⟨⟨hbusy, hs, hw, rfl, hrec⟩, fun n _ =>
    ⟨⟨hbusy.1, fun h => absurd h nofun⟩, fun a ha => absurd ha nofun⟩⟩

theorem highFn_triple {Q : Unit → View w → Prop} :
    ((protocol e).spec .high).Triple (fun v => At 0 0 0 v.toProgress) (highFn e.toConfig) Q :=
  (Spec.Triple.loop (fun i _ (v : View w) => At i i i v.toProgress) fun _ hi _ =>
    highFn_round hi).bind fun _ => finish_high

/-! ### Samples -/

section Low

variable {ℓ : Entry w} {r : Readings w} {start stop : Ccnt w} {level : ℕ}

theorem map_range_set (f g : ℕ → Ccnt w) (hg : ∀ i ≠ c, g i = f i) :
    (List.range (c + 1)).map g = (List.range c).map f ++ [g c] := by
  rw [List.range_succ, List.map_append, List.map_singleton]
  congr 1
  exact List.map_congr_left fun i hi => hg i (List.mem_range.mp hi).ne

theorem Sampled.measure (h : Sampled ℓ c r v) (a : Unit) (start stop : Ccnt w) :
    Sampled ℓ (c + 1) (r.set c start stop) (step .low (step .low (step .low v
      (.did (.wait .produce) a)) (.did .clock stop)) (.did (.load .start) start)) := by
  refine ⟨h.entry, ?_, ?_⟩
  · rw [map_range_set r.start _ fun i hi => r.set_start_of_ne _ _ hi, r.set_start_self, ← h.loads]
    simp only [step, Scheduler.loads, List.filterMap_append, List.append_assoc]
    rfl
  · rw [map_range_set r.stop _ fun i hi => r.set_stop_of_ne _ _ hi, r.set_stop_self, ← h.clocks]
    simp only [step, Machine.clocks, List.filterMap_append, List.append_assoc]
    rfl

/-- The first `c` samples are in the row of the level. -/
def Late (level c : ℕ) (r : Readings w) (v : View w) : Prop :=
  ∀ i < c, lastStore (Var.result level i) v.hist = some (r.stop i - r.start i)

theorem Late.append {ev : Event (sig w)} (h : Late level c r v) (p : Party)
    (hev : ∀ x, storeOf x ev = none) : Late level c r (step p v ev) := fun i hi =>
  (lastStore_append (hev _) _).trans (h i hi)

theorem Late.store (h : Late level c r v) (start stop : Ccnt w) :
    Late level (c + 1) (r.set c start stop)
      (step .low v (.did (.store (.result level c) (stop - start)) ())) := by
  intro i hi
  by_cases hic : i = c
  · subst hic
    rw [r.set_start_self, r.set_stop_self]
    exact lastStore_append_store_self _ _ _ _
  · rw [r.set_start_of_ne _ _ hic, r.set_stop_of_ne _ _ hic]
    refine (lastStore_append_store_of_ne (fun heq => hic ?_) _ _ _).trans (h i (by omega))
    exact (Var.result.inj heq).2.symm

/-- The measurement of a sample, after which the thread continues with `f`. -/
theorem low_round {α : Type} {f : Ccnt w → Ccnt w → Code (sig w) α} {Q : α → View w → Prop}
    {F : View w → Prop} (hc : c < e.runs)
    (hF : ∀ v ev, (∀ x, storeOf x ev = none) → F v → F (step .low v ev))
    (hf : ∀ start stop, ((protocol e).spec .low).Triple
      (fun v => At c (c + 1) (c + 1) v.toProgress ∧ Sampled ℓ (c + 1) (r.set c start stop) v ∧ F v)
      (f start stop) Q) :
    ((protocol e).spec .low).Triple (fun v => At c c c v.toProgress ∧ Sampled ℓ c r v ∧ F v)
      (do
        Code.wait .produce
        let stop ← Code.clock
        let start ← loadStart
        f start stop) Q := by
  rintro k v ⟨⟨hbusy, hs, hw, ht⟩, hr, hv⟩ hk
  have hlt : v.signals < v.waits + 1 := by omega
  have hlt' : v.times < v.waits + 1 := by omega
  refine ⟨⟨hbusy.1, fun _ => ⟨hs.trans hw.symm, hw.trans_lt hc⟩⟩, fun a _ => ⟨⟨hbusy, hlt⟩,
    fun stop _ => ⟨⟨hbusy, hlt, hlt'⟩, fun start _ => hf start stop _ _
    ⟨⟨hbusy, hs, congrArg (· + 1) hw, congrArg (· + 1) ht⟩, hr.measure a start stop, ?_⟩ hk⟩⟩⟩
  exact hF _ _ (fun _ => rfl) (hF _ _ (fun _ => rfl) (hF _ _ (fun _ => rfl) hv))

/-- The signal that ends a round of `low`. -/
theorem signal_triple {F : View w → Prop}
    (hF : ∀ v ev, (∀ x, storeOf x ev = none) → F v → F (step .low v ev)) :
    ((protocol e).spec .low).Triple
      (fun v => At c (c + 1) (c + 1) v.toProgress ∧ Sampled ℓ (c + 1) r v ∧ F v)
      (Code.signal .consume)
      fun _ v => At (c + 1) (c + 1) (c + 1) v.toProgress ∧ Sampled ℓ (c + 1) r v ∧ F v := by
  rintro k v ⟨⟨hbusy, hs, hw, ht⟩, hr, hv⟩ hk
  exact ⟨⟨hbusy, by omega, ht.trans hw.symm⟩, fun a _ => hk _ _
    ⟨⟨hbusy, congrArg (· + 1) hs, hw, ht⟩, hr.append .low nofun rfl rfl, hF _ _ (fun _ => rfl) hv⟩⟩

theorem store_result_triple :
    ((protocol e).spec .low).Triple
      (fun v => At c (c + 1) (c + 1) v.toProgress ∧
        Sampled ℓ (c + 1) (r.set c start stop) v ∧ Late level c r v)
      (Code.store (.result level c) (stop - start))
      fun _ v => At c (c + 1) (c + 1) v.toProgress ∧
        Sampled ℓ (c + 1) (r.set c start stop) v ∧ Late level (c + 1) (r.set c start stop) v := by
  rintro k v ⟨⟨hbusy, hs, hw, ht⟩, hr, hv⟩ hk
  exact ⟨⟨hbusy, nofun⟩, fun _ _ => hk _ _ ⟨⟨hbusy, hs, hw, ht⟩, hr.append .low nofun rfl rfl,
    hv.store start stop⟩⟩

/-- The times and the samples in the row after `c` rounds of `low_fn`. -/
def LateLoop (ℓ : Entry w) (level c : ℕ) (v : View w) : Prop :=
  ∃ r, At c c c v.toProgress ∧ Sampled ℓ c r v ∧ Late level c r v

/-- The times and the sums after `c` rounds of `low_fn_ep`. -/
def EarlyLoop (e : Setup w) (ℓ : Entry w) (overhead : Ccnt w) (c : ℕ) (acc : Sums w) (v : View w) :
    Prop :=
  ∃ r, At c c c v.toProgress ∧ Sampled ℓ c r v ∧
    acc = datacollectLoop e.wordBits c e.ignored r.start r.stop overhead

theorem lowFn_round (hc : c < e.runs) :
    ((protocol e).spec .low).Triple (LateLoop ℓ level c)
      (do
        Code.wait .produce
        let stop ← Code.clock
        let start ← loadStart
        Code.store (.result level c) (stop - start)
        Code.signal .consume)
      fun _ => LateLoop ℓ level (c + 1) := by
  refine Spec.Triple.of_exists fun r => low_round (F := Late level c r) hc
    (fun _ _ hev h => h.append .low hev) fun start stop => store_result_triple.bind fun _ => ?_
  exact (signal_triple (F := Late level (c + 1) (r.set c start stop)) fun _ _ hev h =>
    h.append .low hev).conseq (fun _ h => h) fun _ v h => ⟨r.set c start stop, h⟩

theorem lowFnEp_round (hc : c < e.runs) (overhead : Ccnt w) (acc : Sums w) :
    ((protocol e).spec .low).Triple (EarlyLoop e ℓ overhead c acc)
      (do
        Code.wait .produce
        let stop ← Code.clock
        let start ← loadStart
        let acc := datacollectGetSums (BitVec.ofNat e.wordBits c)
          (BitVec.ofNat e.wordBits e.ignored) start stop overhead acc
        Code.signal .consume
        return acc)
      (EarlyLoop e ℓ overhead (c + 1)) := by
  refine Spec.Triple.of_exists fun r => low_round
    (F := fun _ => acc = datacollectLoop e.wordBits c e.ignored r.start r.stop overhead) hc
    (fun _ _ _ h => h) fun start stop => (signal_triple fun _ _ _ h => h).bind fun _ => ?_
  refine Spec.Triple.pure fun v h => ?_
  obtain ⟨hat, hr, hacc⟩ := h
  exact ⟨r.set c start stop, hat, hr, by rw [datacollectLoop_set, hacc]⟩

theorem lowFn_triple (hbm : e.bm = .late) {Q : Unit → View w → Prop} :
    ((protocol e).spec .low).Triple
      (fun v => At 0 0 0 v.toProgress ∧ v.cur = [] ∧ v.entry = some (.lowFn level))
      (lowFn e.toConfig level) Q := by
  refine ((Spec.Triple.loop (fun i _ => LateLoop (.lowFn level) level i) fun i hi _ =>
    lowFn_round hi).conseq (fun v hv => ?_) fun _ _ h => h).bind fun _ => ?_
  · obtain ⟨hat, hcur, hentry⟩ := hv
    exact ⟨⟨0, 0⟩, hat, ⟨hentry, by rw [hcur]; rfl, by rw [hcur]; rfl⟩, nofun⟩
  · refine finish_low.conseq (fun v hv => ?_) fun _ _ h => h
    obtain ⟨r, hat, hr, hlate⟩ := hv
    exact ⟨hat, level, r, by rwa [hbm], by rw [hbm]; exact hlate⟩

theorem lowFnEp_triple {overheadCcntMin : Ccnt w} (hbm : e.bm = .early overheadCcntMin)
    {Q : Unit → View w → Prop} :
    let overhead := wordArg e.wordBits overheadCcntMin
    ((protocol e).spec .low).Triple
      (fun v => At 0 0 0 v.toProgress ∧ v.cur = [] ∧ v.entry = some (.lowFnEp level overhead))
      (lowFnEp e.toConfig level overhead) Q := by
  intro overhead
  refine ((Spec.Triple.loop (EarlyLoop e (.lowFnEp level overhead) overhead) fun i hi acc =>
    lowFnEp_round hi overhead acc).conseq (fun v hv => ?_) fun _ _ h => h).bind fun acc => ?_
  · obtain ⟨hat, hcur, hentry⟩ := hv
    exact ⟨⟨0, 0⟩, hat, ⟨hentry, by rw [hcur]; rfl, by rw [hcur]; rfl⟩, rfl⟩
  · rintro k v ⟨r, ⟨hbusy, hs, hw, ht⟩, hr, hacc⟩ hk
    refine ⟨⟨hbusy, nofun⟩, fun _ _ => ⟨⟨hbusy, nofun⟩, fun _ _ => ⟨⟨hbusy, nofun⟩, fun _ _ =>
      finish_low k _ ⟨⟨hbusy, hs, hw, ht⟩, level, r, ?_, ?_⟩ hk⟩⟩⟩
    · rw [hbm]
      exact ((hr.append .low (by nofun) (by rfl) (by rfl)).append .low (by nofun) (by rfl)
        (by rfl)).append .low nofun rfl rfl
    · simp only [hbm, Results, step_hist, protocol]
      refine ⟨?_, ?_, lastStore_append_store_self _ _ _ _⟩
      · rw [lastStore_append_store_of_ne (by simp), lastStore_append_store_of_ne (by simp),
          lastStore_append_store_self, hacc]
        rfl
      · rw [lastStore_append_store_of_ne (by simp), lastStore_append_store_self, hacc]
        rfl

end Low

theorem code_safe (e : Setup w) (p : Party) (ℓ : Entry w) (v : View w) (hv : atEntry e p ℓ v) :
    ((protocol e).spec p).Safe (code e.toConfig ℓ) v := by
  obtain ⟨⟨hactive, hs, hw, ht, hdone⟩, hcur, hentry, ⟨rfl, rfl⟩ | ⟨rfl, level, rfl⟩⟩ := hv
  · exact highFn_triple.safe_run ⟨⟨hactive, hdone⟩, hs, hw, ht⟩
  · have hat : At 0 0 0 v.toProgress := ⟨⟨hactive, hdone⟩, hs, hw, ht⟩
    cases hbm : e.bm with
    | late =>
      rw [hbm] at hentry
      exact (lowFn_triple hbm).safe_run ⟨hat, hcur, hentry⟩
    | early overheadCcntMin =>
      rw [hbm] at hentry
      exact (lowFnEp_triple hbm).safe_run ⟨hat, hcur, hentry⟩

/-! ### Driver -/

theorem level_triple {i : ℕ} (hi : i < e.prios) :
    ((protocol e).spec .driver).Triple (fun v => v.stage = 0 ∧ v.level = i)
      (do
        Code.start .low (e.bm.low e.toConfig i)
        Code.start .high .highFn
        benchmarkWaitChildren Msg.isFault .ep 2)
      fun _ v => v.stage = 0 ∧ v.level = i + 1 := by
  rintro k v ⟨hstage, rfl⟩ hk
  refine ⟨⟨hstage, hi, rfl⟩, fun _ _ => ⟨⟨rfl, rfl⟩, fun _ _ => ⟨.inl rfl, fun x hx => ?_⟩⟩⟩
  obtain ⟨n, m⟩ := x
  cases (hx : m = .empty)
  refine ⟨.inr rfl, fun y hy => ?_⟩
  obtain ⟨n', m'⟩ := y
  cases (hy : m' = .empty)
  exact hk _ _ ⟨rfl, rfl⟩

theorem benchmarkPrio_triple :
    ((protocol e).spec .driver).Triple (fun v => v.stage = 0 ∧ v.level = 0)
      (benchmarkPrio e.toConfig (e.bm.low e.toConfig)) fun _ => rest e .driver := by
  refine (Spec.Triple.loop (fun i _ (v : View w) => v.stage = 0 ∧ v.level = i) fun i hi _ =>
    level_triple hi).bind fun _ => ?_
  rintro k v hv hk
  exact ⟨hv, fun _ _ => ⟨⟨rfl, hv.2⟩, fun _ _ => hk _ _ ⟨rfl, hv.2⟩⟩⟩

theorem inv_init (e : Setup w) : (protocol e).Inv (init e.toConfig e.mem e.bm) where
  safe p := by
    cases p with
    | high | low => exact .inl rfl
    | driver =>
      have hsafe := (benchmarkPrio_triple (e := e)).safe_run (g := {}) ⟨rfl, rfl⟩
      cases hbm : e.bm with
      | late | early => rwa [hbm] at hsafe
  own p := by
    have hdone : ¬DoneSent ([] : List (Event (sig w))) := fun ⟨_, hn⟩ => absurd hn List.not_mem_nil
    refine ⟨?_, ?_, fun _ => nofun⟩
    · cases p with
      | high | low => exact ⟨le_rfl, le_rfl, Nat.zero_le _, Nat.zero_le _, nofun⟩
      | driver => exact ⟨rfl, rfl, rfl, rfl⟩
    · exact ⟨nofun, rfl, rfl, fun _ => rfl, fun _ h => absurd h (lt_irrefl 0), fun _ => rfl,
        fun _ => ⟨nofun, fun h => absurd h hdone⟩⟩
  rel := by
    have hnot : ¬Running {} := by rintro (h | h) <;> exact absurd h nofun
    exact ⟨⟨fun h => absurd h hnot, fun h => absurd h hnot, fun _ => ⟨rfl, rfl, .inl rfl⟩, nofun,
      fun _ _ => .inl rfl, fun _ _ h => absurd h (lt_irrefl 0)⟩, fun _ => rfl,
      fun _ => List.nil_prefix⟩

/-! ### Bounds -/

section Bounds

variable {B : Budget (sig w)} (cfg : Config)

theorem bounded_loadStart : Bounded (σ := sig w) B 1 loadStart := Bounded.load _

/-- The threads take a bounded number of steps. -/
theorem within_code (ℓ : Entry w) : Within B (cfg.runs * 5 + 5) (code cfg ℓ) := by
  cases ℓ with
  | highFn =>
    have hfn : Bounded (σ := sig w) B _ (highFn cfg) := (Bounded.loop fun _ _ =>
      (Bounded.signal _).bind fun _ => Bounded.clock.bind fun _ => (Bounded.store _ _).bind fun _ =>
      Bounded.wait _).bind fun _ => .sendWait _ _ _
    exact hfn.within_run.mono (by omega)
  | lowFn level =>
    have hfn : Bounded (σ := sig w) B _ (lowFn cfg level) := (Bounded.loop fun _ _ =>
      (Bounded.wait _).bind fun _ => Bounded.clock.bind fun _ => bounded_loadStart.bind fun _ =>
      (Bounded.store _ _).bind fun _ => Bounded.signal _).bind fun _ => .sendWait _ _ _
    exact hfn.within_run.mono (by omega)
  | lowFnEp level overhead =>
    have hfn : Bounded (σ := sig w) B _ (lowFnEp cfg level overhead) := (Bounded.loop fun _ _ =>
      (Bounded.wait _).bind fun _ => Bounded.clock.bind fun _ => bounded_loadStart.bind fun _ =>
      (Bounded.signal _).bind fun _ => .pure _).bind fun _ => (Bounded.store _ _).bind fun _ =>
      (Bounded.store _ _).bind fun _ => (Bounded.store _ _).bind fun _ => .sendWait _ _ _
    exact hfn.within_run.mono (by omega)

theorem exists_bounded_benchmarkPrio (n : ℕ) (low : ℕ → Entry w) :
    ∃ m, Bounded (σ := sig w) { label := fun _ => n } m (benchmarkPrio cfg low) :=
  ⟨_, (Bounded.loop (n := n + 1 + (n + 1 + 2 * 1)) fun i _ =>
    (Bounded.start (σ := sig w) .low (low i)).bind fun _ =>
    (Bounded.start (σ := sig w) .high .highFn).bind fun _ =>
    bounded_benchmarkWaitChildren _ _ 2).bind fun _ =>
    (Bounded.suspend _).bind fun _ => Bounded.suspend _⟩

end Bounds

/-! ### Runs -/

/-- The events since the last start are those of the history. -/
theorem view_cur (e : Setup w) (log : Log (sig w)) (p : Party) :
    ((protocol e).view log p).cur = current (log.hist p) :=
  (List.foldl_hom View.cur fun _ _ => rfl).symm

/-- The entry point of the last start is that of the history. -/
theorem view_entry (e : Setup w) (log : Log (sig w)) (p : Party) :
    ((protocol e).view log p).entry = lastEntry (log.hist p) :=
  (List.foldl_hom View.entry fun _ _ => rfl).symm

/-- Both threads have sent the done messages of their level. -/
def BothDone (s : State (sig w)) : Prop :=
  DoneSent (current (s.hist .high)) ∧ DoneSent (current (s.hist .low))

section Main

variable {e : Setup w} {s : State (sig w)}
  (hrun : Run (code e.toConfig) (fun s ps => e.prio → FixedPriority e.toConfig s ps)
    (init e.toConfig e.mem e.bm) s)

include hrun

theorem inv_of_run : (protocol e).Inv s :=
  Protocol.inv_of_run (sound (code_safe e)) (inv_init e) hrun

theorem done_iff {p : Party} (hp : p ≠ .driver) :
    ((protocol e).view s.log p).done = true ↔ DoneSent (current (s.hist p)) := by
  rw [((inv_of_run hrun).own p).traces.done hp, view_cur]

theorem signals_kept (p : Party) (n : Ntfn) : ∀ a ∈ signals n (s.hist p), a = false := by
  have hkept := ((inv_of_run hrun).own p).traces.kept n
  rwa [records_hist.view] at hkept

theorem exists_step (hfin : s.thread .driver ≠ .halt) :
    ∃ ps s', FixedPriority e.toConfig s ps ∧ Step (code e.toConfig) s ps s' :=
  progress (inv_of_run hrun) hfin

/-- When a thread has sent its done message it has completed its rounds. -/
theorem rounds_of_done {p : Party} (hp : p ≠ .driver) (hdone : DoneSent (current (s.hist p))) :
    signals (out p) (current (s.hist p)) = List.replicate e.runs false ∧
      waits (inn p) (current (s.hist p)) = e.runs := by
  have hown := (inv_of_run hrun).own p
  have hcounts : ((protocol e).view s.log p).signals = e.runs ∧
      ((protocol e).view s.log p).waits = e.runs := by
    have hcounts := hown.counts
    cases p with
    | driver => exact absurd rfl hp
    | high | low => exact hcounts.2.2.2.2 ((done_iff hrun hp).mpr hdone)
  have hsignals := hown.traces.signals
  have hwaits := hown.traces.waits
  rw [view_cur] at hsignals hwaits
  exact ⟨hsignals.trans (by rw [hcounts.1]), hwaits.trans hcounts.2⟩

/-- When both threads are done their level has ended. -/
theorem not_running_of_done (hdone : BothDone s) :
    ¬Running ((protocol e).view s.log .driver).toProgress := by
  intro hrunning
  obtain ⟨-, -, hstage⟩ := (inv_of_run hrun).rel.sync.active hrunning
  have hhigh := (done_iff hrun (p := .high) nofun).mpr hdone.1
  have hlow := (done_iff hrun (p := .low) nofun).mpr hdone.2
  rw [hhigh, hlow, Bool.toNat_true] at hstage
  unfold Running at hrunning
  omega

theorem clear_of_not_running (hnot : ¬Running ((protocol e).view s.log .driver).toProgress)
    (n : Ntfn) : s.kernel.pending n = false := by
  obtain ⟨hp, hc, -⟩ := (inv_of_run hrun).rel.sync.clear hnot
  cases n
  · exact hp
  · exact hc

/-- No flag is set when the driver starts a thread. -/
theorem clear_of_start {q : Party} {ℓ : Entry w} {k : Unit → Prog (sig w)}
    (hd : s.thread .driver = .op (.start q ℓ) k) (n : Ntfn) : s.kernel.pending n = false := by
  refine clear_of_not_running hrun ?_ n
  have hguar := (inv_of_run hrun).guar hd
  unfold Running
  cases q with
  | driver => exact hguar.elim
  | high | low =>
    have hstage := hguar.1
    omega

/-- When the driver has ended both threads are done. -/
theorem bothDone_of_halt (hprios : 0 < e.prios) (hd : s.thread .driver = .halt) : BothDone s := by
  have hinv := inv_of_run hrun
  have hrest := hinv.safe .driver
  rw [hd] at hrest
  obtain ⟨hstage, hlevel⟩ := hrest
  have hdone := hinv.rel.sync.done (by unfold Running; omega) (by omega)
    (hlevel.symm ▸ hprios)
  exact ⟨(done_iff hrun (by nofun)).mp hdone.1, (done_iff hrun (by nofun)).mp hdone.2⟩

/-- Under the fixed-priority rule, the results of a level that has ended are the differences
between the times that `low` has read and the values that `high` has written to `start`. -/
theorem results_of_done (hprio : e.prio) (hdone : BothDone s) :
    ∃ level r, lastEntry (s.hist .low) = some (e.bm.low e.toConfig level) ∧
      starts (current (s.hist .high)) = (List.range e.runs).map r.start ∧
      clocks (current (s.hist .low)) = (List.range e.runs).map r.stop ∧
      Results e.toConfig e.bm level (fun x => some (s.kernel.mem x)) r := by
  have hinv := inv_of_run hrun
  obtain ⟨level, r, ⟨hentry, hloads, hclocks⟩, hres⟩ :=
    (hinv.own .low).recorded rfl ((done_iff hrun (by nofun)).mpr hdone.2)
  have hhigh := hinv.own .high
  have hpre := hinv.rel.loads hprio
  rw [hloads, view_cur] at hpre
  have hlen : (starts (current (s.hist .high))).length = e.runs := by
    have hstarts := hhigh.traces.starts rfl
    rw [view_cur] at hstarts
    obtain ⟨h₁, h₂, -, -, h₅⟩ := hhigh.counts
    obtain ⟨hsignals, hwaits⟩ := h₅ ((done_iff hrun (by nofun)).mpr hdone.1)
    exact hstarts.trans (le_antisymm (h₂.trans hsignals.le) (hwaits.symm.le.trans h₁))
  have hstarts := hpre.eq_of_length (by rw [hlen, List.length_map, List.length_range])
  rw [view_entry] at hentry
  rw [view_cur] at hclocks
  refine ⟨level, r, hentry, hstarts.symm, hclocks, ?_⟩
  have hmem : ∀ x t, writer x = .low → lastStore x ((protocol e).view s.log .low).hist = some t →
      some (s.kernel.mem x) = some t := by
    intro x t hx hlast
    rw [hinv.rel.mem, hx, stored, hlast, Option.getD_some]
  unfold Results at hres ⊢
  split at hres
  · exact fun i hi => hmem _ _ rfl (hres i hi)
  · obtain ⟨hsum, hsum2, hnum⟩ := hres
    exact ⟨hmem _ _ rfl hsum, hmem _ _ rfl hsum2, hmem _ _ rfl hnum⟩

/-- Every run can be continued until the driver has ended, also under the fixed-priority rule. -/
theorem exists_run_halt : ∃ s', Run (code e.toConfig)
    (fun s ps => e.prio → FixedPriority e.toConfig s ps) s s' ∧ s'.thread .driver = .halt := by
  let n := e.runs * 5 + 6
  obtain ⟨m, hm⟩ := exists_bounded_benchmarkPrio e.toConfig n (e.bm.low e.toConfig)
  let bd : Party → ℕ := fun p => if p = .driver then m else 0
  refine exists_run_of_within (B := { label := fun _ => n })
    (fun ℓ => ⟨e.runs * 5 + 5, Nat.lt_succ_self _, within_code e.toConfig ℓ⟩) (b := bd)
    (fun p => ?_) (fun s hs hgoal => ?_) hrun
  · cases p with
    | high | low => exact .halt 0
    | driver =>
      have hwithin := hm.within_run
      cases hbm : e.bm with
      | late | early => rwa [hbm] at hwithin
  · obtain ⟨ps, s', hok, hstep⟩ := exists_step hs hgoal
    exact ⟨ps, s', fun _ => hok, hstep⟩

end Main

/-- **The handshake of the scheduler benchmark.** For any number of runs and priority levels and
every interleaving of `high`, `low` and the driver that restarts them: no signal finds the flag of
its notification set; until the driver has ended some step is possible, even one that the
fixed-priority rule allows, and the driver can end, with both threads done; a thread that has sent
its done message has completed exactly `N_RUNS` rounds since it was started; the flags are clear
when both threads are done and when a thread is started. If `low` only takes steps while `high` is
blocked, the results of a level that has ended are computed from the times that `low` has read in
its rounds and the values that `high` has written to `start` in the same rounds. -/
theorem handshake (cfg : Config) (mem : Var → Ccnt w) (bm : Benchmark w) {s : State (sig w)}
    (hreach : Reach (code cfg) (init cfg mem bm) s) :
    (∀ p n, ∀ a ∈ signals n (s.hist p), a = false) ∧
      (s.thread .driver ≠ .halt → ∃ ps s', FixedPriority cfg s ps ∧ Step (code cfg) s ps s') ∧
      (∃ s', Reach (code cfg) s s' ∧ s'.thread .driver = .halt ∧
        (0 < cfg.prios → DoneSent (current (s'.hist .high)) ∧ DoneSent (current (s'.hist .low)))) ∧
      (DoneSent (current (s.hist .high)) →
        signals .produce (current (s.hist .high)) = List.replicate cfg.runs false ∧
        waits .consume (current (s.hist .high)) = cfg.runs) ∧
      (DoneSent (current (s.hist .low)) →
        signals .consume (current (s.hist .low)) = List.replicate cfg.runs false ∧
        waits .produce (current (s.hist .low)) = cfg.runs) ∧
      (DoneSent (current (s.hist .high)) ∧ DoneSent (current (s.hist .low)) →
        ∀ n, s.kernel.pending n = false) ∧
      (∀ q ℓ k, s.thread .driver = .op (.start q ℓ) k → ∀ n, s.kernel.pending n = false) ∧
      (Run (code cfg) (FixedPriority cfg) (init cfg mem bm) s →
        DoneSent (current (s.hist .high)) ∧ DoneSent (current (s.hist .low)) →
        ∃ level r, lastEntry (s.hist .low) = some (bm.low cfg level) ∧
          starts (current (s.hist .high)) = (List.range cfg.runs).map r.start ∧
          clocks (current (s.hist .low)) = (List.range cfg.runs).map r.stop ∧
          Results cfg bm level (fun x => some (s.kernel.mem x)) r) := by
  let e : Setup w := { toConfig := cfg, mem := mem, bm := bm, prio := False }
  have hrun : Run (code e.toConfig) (fun s ps => e.prio → FixedPriority e.toConfig s ps)
      (init cfg mem bm) s := Run.mono (fun _ _ _ => False.elim) hreach
  refine ⟨signals_kept hrun, exists_step hrun, ?_, rounds_of_done hrun (p := .high) nofun,
    rounds_of_done hrun (p := .low) nofun, fun h => ?_, fun _ _ _ => clear_of_start hrun,
    fun hfix h => ?_⟩
  · obtain ⟨s', hs', hd⟩ := exists_run_halt hrun
    exact ⟨s', Run.mono (fun _ _ _ => trivial) hs', hd, fun hprios =>
      bothDone_of_halt (hrun.trans hs') hprios hd⟩
  · exact clear_of_not_running hrun (not_running_of_done hrun h)
  · let e' : Setup w := { toConfig := cfg, mem := mem, bm := bm, prio := True }
    have hrun' : Run (code e'.toConfig) (fun s ps => e'.prio → FixedPriority e'.toConfig s ps)
        (init cfg mem bm) s := Run.mono (fun _ _ hok _ => hok) hfix
    exact results_of_done hrun' trivial h

/-- Two runs at two levels have an execution under the fixed-priority rule. At its end the driver
has restarted the threads for the second level, and their samples are as stated. -/
theorem handshake_two : ∃ s', Run (code ⟨64, 2, 0, 2⟩) (FixedPriority ⟨64, 2, 0, 2⟩)
    (init ⟨64, 2, 0, 2⟩ (fun _ => 0) .late : State (sig 64)) s' ∧ s'.thread .driver = .halt ∧
      ∃ (level : ℕ) (r : Readings 64),
        starts (current (s'.hist .high)) = [r.start 0, r.start 1] ∧
        clocks (current (s'.hist .low)) = [r.stop 0, r.stop 1] ∧
        ∀ i < 2, s'.kernel.mem (.result level i) = r.stop i - r.start i := by
  let e : Setup 64 := ⟨⟨64, 2, 0, 2⟩, fun _ => 0, .late, True⟩
  obtain ⟨s', hs', hd⟩ := exists_run_halt (e := e) .refl
  have hdone := bothDone_of_halt hs' Nat.two_pos hd
  have hfix : Run (code ⟨64, 2, 0, 2⟩) (FixedPriority ⟨64, 2, 0, 2⟩)
      (init ⟨64, 2, 0, 2⟩ (fun _ => 0) .late) s' := Run.mono (fun _ _ hok => hok trivial) hs'
  have hreach : Reach (code ⟨64, 2, 0, 2⟩) (init ⟨64, 2, 0, 2⟩ (fun _ => 0) .late) s' :=
    Run.mono (fun _ _ _ => trivial) hs'
  obtain ⟨-, -, -, -, -, -, -, hresults⟩ := handshake _ _ _ hreach
  obtain ⟨level, r, -, hstarts, hclocks, hres⟩ := hresults hfix hdone
  exact ⟨s', hfix, hd, level, r, hstarts, hclocks, fun i hi => Option.some_inj.mp (hres i hi)⟩

end Sel4bench.Scheduler
