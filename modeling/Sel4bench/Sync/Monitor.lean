import Sel4bench.Sync.Protocol
import Sel4bench.Lib.Termination

/-!
# Producer and consumer

The functions of the producer and consumer benchmark follow the protocol of `Sync.Protocol`, without
and with early processing. So `fifo_head` stays within its bounds, the two threads work in turn, no
run gets stuck, the second benchmark finds the lock free and nobody waiting, and every sample is
the difference between a time that a thread has read and the time that the other thread has written
in the round before.

## Main definitions

* `Sel4bench.Sync.workSteps`, `Sel4bench.Sync.alternating` — the order of the work of both threads.

## Main results

* `Sel4bench.Sync.code_safe` — the threads follow the protocol.
* `Sel4bench.Sync.workSteps_alternate` — producer and consumer take turns.
* `Sel4bench.Sync.producer_consumer` — the monitor is safe and the samples are paired.
-/

namespace Sel4bench.Sync

open Machine
open Support (bounded_benchmarkWaitChildren)

variable {w : ℕ} {e : Setup w} {b : Bench} {r : Role} {v : View w} {i : ℕ} {acc : Sums w}

/-! ### Functions -/

/-- What a function does with a sample. -/
def record (cfg : Config) (b : Bench) (r : Role) :
    ℕ → Sums w → Ccnt w → Ccnt w → Code (sig w) (Sums w) :=
  match b with
  | .late => storeSample (series r)
  | .early => addSample cfg

/-- What a function does after its rounds. -/
def report (cfg : Config) (b : Bench) (r : Role) : Sums w → Code (sig w) Unit :=
  match b with
  | .late => fun _ => return ()
  | .early => storeSums cfg (series r)

/-- The four functions in terms of their roles. -/
theorem code_eq (cfg : Config) (b : Bench) (r : Role) (pt : Point w) :
    code cfg ⟨func b r, args b r, pt⟩ = (producerConsumer cfg (func b r) (args b r) (condition r)
      (work r) (record cfg b r) (report cfg b r) pt).run := by
  cases b <;> cases r <;> rfl

/-! ### Samples -/

/-- A thread that has measured its sample in the round `i` and may work. -/
structure Mid (e : Setup w) (r : Role) (i : ℕ) (v : Progress) : Prop where
  hold : Holding v
  loads : v.loads = i + 1
  works : v.works = i
  stamps : v.stamps = i
  wakes : v.wakes = i
  lt : i < e.runs
  seen : ∃ n, v.seen = some n ∧ condition r n = false

/-- The history of a thread that has measured its sample in the round `i`. -/
structure Half (b : Bench) (r : Role) (i : ℕ) (rd : Readings w) (stamp : ℕ → Ccnt w)
    (h : List (Event (sig w))) : Prop where
  clocks : clocks h = ((List.range i).flatMap fun j => [rd.stop j, stamp j]) ++ [rd.stop i]
  loads : loads h = (List.range (i + 1)).map rd.start
  stamps : stamps b r h = (List.range i).map stamp

section Samples

variable {rd : Readings w} {stamp : ℕ → Ccnt w} {h : List (Event (sig w))} {ev : Event (sig w)}

theorem Kept.append (hk : Kept e b r i acc rd h)
    (hev : ∀ j, storeOf (σ := sig w) (.ccnt (.sample (series r) j)) ev = none) :
    Kept e b r i acc rd (h ++ [ev]) := by
  cases b with
  | late => exact fun j hj => (lastStore_append (hev j) _).trans (hk j hj)
  | early => exact hk

theorem Collected.append (hc : Collected e b r i acc h) (hclock : clockOf ev = none)
    (hload : startOf ev = none) (hev : Silent ev) : Collected e b r i acc (h ++ [ev]) := by
  obtain ⟨rd, stamp, hs, hk⟩ := hc
  exact ⟨rd, stamp, hs.append hclock hload (hev _), hk.append fun _ => hev _⟩

theorem Half.append (hh : Half b r i rd stamp h) (hclock : clockOf ev = none)
    (hload : startOf ev = none) (hstamp : stampOf b r ev = none) :
    Half b r i rd stamp (h ++ [ev]) := by
  refine ⟨?_, ?_, ?_⟩
  · rw [clocks_append_of_none _ hclock, hh.clocks]
  · rw [loads_append, hload, Option.toList_none, List.append_nil, hh.loads]
  · rw [stamps_append, hstamp, Option.toList_none, List.append_nil, hh.stamps]

theorem Sampled.measure (hs : Sampled b r i rd stamp h) (stop start : Ccnt w) (x : CcntVar) :
    Half b r i (rd.set i start stop) stamp
      (h ++ [.did .clock stop] ++ [.did (.load (.ccnt x)) start]) := by
  have hclocks : ((List.range i).flatMap fun j => [(rd.set i start stop).stop j, stamp j]) =
      (List.range i).flatMap fun j => [rd.stop j, stamp j] :=
    List.flatMap_congr fun j hj => by rw [rd.set_stop_of_ne _ _ (List.mem_range.mp hj).ne]
  have hloads : (List.range i).map (rd.set i start stop).start = (List.range i).map rd.start :=
    List.map_congr_left fun j hj => rd.set_start_of_ne _ _ (List.mem_range.mp hj).ne
  refine ⟨?_, ?_, ?_⟩
  · rw [clocks_append, clocks_append, hs.clocks, hclocks, rd.set_stop_self]
    exact List.append_nil _
  · rw [loads_append, loads_append, hs.loads, List.range_succ, List.map_append, hloads,
      List.map_singleton, rd.set_start_self]
    exact congrArg (· ++ [start]) (List.append_nil _)
  · rw [stamps_append, stamps_append, hs.stamps]
    exact (List.append_nil _).trans (List.append_nil _)

/-- The time that is written for the other thread. -/
theorem Half.sampled (hh : Half b r i rd stamp h) (t : Ccnt w) :
    Sampled b r (i + 1) rd (Function.update stamp i t)
      (h ++ [.did .clock t] ++ [.did (.store (.ccnt (args b r).signal) t) ()]) := by
  have hclocks : ((List.range i).flatMap fun j => [rd.stop j, Function.update stamp i t j]) =
      (List.range i).flatMap fun j => [rd.stop j, stamp j] :=
    List.flatMap_congr fun j hj => by rw [Function.update_of_ne (List.mem_range.mp hj).ne]
  have hstamps : (List.range i).map (Function.update stamp i t) = (List.range i).map stamp :=
    List.map_congr_left fun j hj => Function.update_of_ne (List.mem_range.mp hj).ne _ _
  refine ⟨?_, ?_, ?_⟩
  · rw [clocks_append, clocks_append, hh.clocks, List.range_succ, List.flatMap_append, hclocks,
      List.flatMap_singleton, Function.update_self]
    simp [clockOf]
  · rw [loads_append, loads_append, hh.loads]
    exact (List.append_nil _).trans (List.append_nil _)
  · rw [stamps_append, stamps_append, hh.stamps, List.range_succ, List.map_append, hstamps,
      List.map_singleton, Function.update_self]
    simp [stampOf, storeOf]

end Samples

/-! ### Triples -/

section Triples

variable {rd : Readings w} {stamp : ℕ → Ccnt w} {start stop : Ccnt w}

theorem args_fifoHead (b : Bench) (r : Role) : (args b r).fifoHead = b := by cases r <;> rfl

theorem writer_signal (b : Bench) (r : Role) : writer (args b r).signal = .thread b r := by
  cases r <;> rfl

/-- A thread that is in a round and holds the lock. -/
structure Round (e : Setup w) (b : Bench) (r : Role) (i : ℕ) (acc : Sums w) (v : View w) :
    Prop where
  hold : Holding v.toProgress
  counts : At i v.toProgress
  lt : i < e.runs
  collected : Collected e b r i acc v.hist

/-- The thread has to wait. -/
theorem wait_triple {Q : Unit → View w → Prop} : ((protocol e).spec (.thread b r)).Triple
    (fun v => Round e b r i acc v ∧ ∃ n, v.seen = some n ∧ condition r n = true)
    (do
      Code.waitCond .lock (args b r).waitCv
      Code.goto ⟨func b r, args b r, .whileLoop i acc⟩) Q := by
  rintro k v ⟨⟨hhold, hat, hlt, hcol⟩, hseen⟩ -
  have hbusy := hhold.toBusy
  obtain ⟨hl, hw, hs, hk⟩ := hat
  refine ⟨⟨hhold, rfl, ⟨hl.trans hk.symm, hw.trans hk.symm, hs.trans hk.symm, rfl⟩,
    hk.trans_lt hlt, hseen⟩, fun _ _ => ⟨⟨rfl, rfl⟩, fun _ _ =>
    ⟨⟨⟨hbusy.started, rfl, hbusy.unfinished⟩, rfl, hk.trans_lt hlt⟩, fun _ _ =>
    ⟨rfl, rfl, ⟨hbusy.started, rfl, hbusy.unfinished⟩, rfl, ⟨hl, hw, hs, hk⟩, hlt, ?_⟩⟩⟩⟩
  exact ((hcol.append rfl rfl fun _ => rfl).append rfl rfl fun _ => rfl).append rfl rfl fun _ => rfl

/-- The measurement of a sample, after which the thread continues with `f`. -/
theorem measure_triple {α : Type} {f : Ccnt w → Ccnt w → Code (sig w) α} {Q : α → View w → Prop}
    (hf : ∀ start stop rd stamp, ((protocol e).spec (.thread b r)).Triple
      (fun v => Mid e r i v.toProgress ∧ Half b r i (rd.set i start stop) stamp v.hist ∧
        Kept e b r i acc rd v.hist) (f start stop) Q) :
    ((protocol e).spec (.thread b r)).Triple
      (fun v => Round e b r i acc v ∧ ∃ n, v.seen = some n ∧ condition r n = false)
      (do
        let stop ← Code.clock
        let start ← loadCcnt (args b r).start
        f start stop) Q := by
  rintro k v ⟨⟨hhold, hat, hlt, rd, stamp, hs, hkept⟩, hseen⟩ hk
  obtain ⟨hl, hw, hst, hwk⟩ := hat
  refine ⟨hhold, fun stop _ => ⟨⟨hhold, rfl, ⟨hl.trans hwk.symm, hw.trans hwk.symm,
    hst.trans hwk.symm, rfl⟩, hwk.trans_lt hlt, hseen⟩, fun start _ => ?_⟩⟩
  refine hf start stop rd stamp _ _ ⟨⟨⟨⟨hhold.started, hhold.awake, hhold.unfinished⟩,
    hhold.holding⟩, congrArg (· + 1) hl, hw, hst, hwk, hlt, hseen⟩, hs.measure stop start _, ?_⟩ hk
  exact (hkept.append fun _ => rfl).append fun _ => rfl

/-- A sample is stored or added up. -/
theorem record_triple : ((protocol e).spec (.thread b r)).Triple
    (fun v => Mid e r i v.toProgress ∧ Half b r i (rd.set i start stop) stamp v.hist ∧
      Kept e b r i acc rd v.hist)
    (record e.toConfig b r i acc start stop)
    fun acc v => Mid e r i v.toProgress ∧ Half b r i (rd.set i start stop) stamp v.hist ∧
      Kept e b r (i + 1) acc (rd.set i start stop) v.hist := by
  rintro k v ⟨hmid, hhalf, hkept⟩ hk
  cases b with
  | early =>
    refine hk _ _ ⟨hmid, hhalf, ?_⟩
    rw [Kept, datacollectLoop_set, show acc = _ from hkept]
  | late =>
    have hwriter : writer (.sample (series r) i) = .thread .late r := by cases r <;> rfl
    have hne : CcntVar.sample (series r) i ≠ (args .late r).signal := by cases r <;> nofun
    have hstamp : stampOf .late r (.did (.store (.ccnt (.sample (series r) i)) (stop - start)) () :
        Event (sig w)) = none := storeOf_store_of_ne (fun heq => hne (Var.ccnt.inj heq)) _ _
    have hsame : advance (.thread .late r) v.toProgress
        (.did (.store (.ccnt (.sample (series r) i)) (stop - start)) () : Event (sig w)) =
        v.toProgress := if_neg hne
    refine ⟨⟨hmid.hold.toBusy, hwriter, fun heq => absurd heq hne⟩, fun _ _ => hk _ _
      ⟨?_, hhalf.append rfl rfl hstamp, fun j hj => ?_⟩⟩
    · exact (congrArg (Mid e r i) hsame).mpr hmid
    · by_cases hji : j = i
      · subst hji
        rw [rd.set_start_self, rd.set_stop_self]
        exact lastStore_append_store_self (σ := sig w) _ _ _ _
      · rw [rd.set_start_of_ne _ _ hji, rd.set_stop_of_ne _ _ hji]
        refine (lastStore_append_store_of_ne (σ := sig w) (fun heq => hji ?_) _ _ _).trans
          (hkept j (by omega))
        exact (CcntVar.sample.inj (Var.ccnt.inj heq)).2.symm

/-- A thread that has written its time in the round `i`. -/
structure Stamped (e : Setup w) (i : ℕ) (v : Progress) : Prop where
  hold : Holding v
  loads : v.loads = i + 1
  works : v.works = i + 1
  stamps : v.stamps = i + 1
  wakes : v.wakes = i
  lt : i < e.runs

/-- The end of a round. -/
theorem release_triple {Q : Unit → View w → Prop} : ((protocol e).spec (.thread b r)).Triple
    (fun v => Stamped e i v.toProgress ∧ Collected e b r (i + 1) acc v.hist)
    (do
      Code.wake (args b r).signalCv
      Code.release .lock
      Code.goto ⟨func b r, args b r, .forLoop (i + 1) acc⟩) Q := by
  rintro k v ⟨⟨hhold, hl, hw, hs, hwk, hlt⟩, hcol⟩ -
  have hbusy := hhold.toBusy
  have hnext : v.wakes + 1 = i + 1 := congrArg (· + 1) hwk
  refine ⟨⟨hhold, rfl, hl.trans hnext.symm, hw.trans hnext.symm, hs.trans hnext.symm⟩, fun _ _ =>
    ⟨⟨⟨⟨hbusy.started, hbusy.awake, hbusy.unfinished⟩, hhold.holding⟩, hl.trans hnext.symm,
    hw.trans hnext.symm, hs.trans hnext.symm, rfl⟩, fun _ _ => ⟨rfl, rfl,
    ⟨hbusy.started, hbusy.awake, hbusy.unfinished⟩, rfl, ⟨hl, hw, hs, hnext⟩, hlt, ?_⟩⟩⟩
  exact (hcol.append rfl rfl fun _ => rfl).append rfl rfl fun _ => rfl

/-- The work of a thread, and the end of its round. -/
theorem work_triple {Q : Unit → View w → Prop} : ((protocol e).spec (.thread b r)).Triple
    (fun v => Mid e r i v.toProgress ∧ Half b r i rd stamp v.hist ∧
      Kept e b r (i + 1) acc rd v.hist)
    (do
      let fifoHead ← loadFifoHead (args b r).fifoHead
      storeFifoHead (args b r).fifoHead (work r fifoHead)
      let t ← Code.clock
      storeCcnt (args b r).signal t
      Code.wake (args b r).signalCv
      Code.release .lock
      Code.goto ⟨func b r, args b r, .forLoop (i + 1) acc⟩) Q := by
  rintro k v ⟨⟨hhold, hl, hw, hs, hwk, hlt, n, hseen, hcond⟩, hhalf, hkept⟩ -
  have hbusy := hhold.toBusy
  refine ⟨⟨hhold, args_fifoHead b r⟩, fun m hm => ?_⟩
  obtain rfl : m = n := hm n hseen
  refine ⟨⟨⟨⟨hbusy.started, hbusy.awake, hbusy.unfinished⟩, hhold.holding⟩, args_fifoHead b r,
    hw.trans hwk.symm, hs.trans hwk.symm, hl.trans (congrArg (· + 1) hwk.symm), m, rfl, hcond, rfl⟩,
    fun _ _ => ⟨⟨⟨hbusy.started, hbusy.awake, hbusy.unfinished⟩, hhold.holding⟩, fun t _ =>
    ⟨⟨⟨hbusy.started, hbusy.awake, hbusy.unfinished⟩, writer_signal b r, fun _ => ⟨hhold.holding,
    hs.trans hwk.symm, congrArg (· + 1) (hw.trans hwk.symm)⟩⟩, fun _ _ => ?_⟩⟩⟩
  refine release_triple _ _ ⟨?_, rd, Function.update stamp i t, ?_, ?_⟩ fun _ _ h => h
  · refine (congrArg (Stamped e i) (if_pos rfl)).mpr ⟨⟨⟨hbusy.started, hbusy.awake,
      hbusy.unfinished⟩, hhold.holding⟩, hl, congrArg (· + 1) hw, congrArg (· + 1) hs, hwk, hlt⟩
  · exact Half.sampled ((hhalf.append rfl rfl rfl).append rfl rfl rfl) t
  · refine (((hkept.append fun _ => rfl).append fun _ => rfl).append fun _ => rfl).append
      fun j => ?_
    refine storeOf_store_of_ne (fun heq => ?_) _ _
    cases r <;> exact absurd (Var.ccnt.inj heq) nofun

/-- The loop around waiting, and the rest of a round. -/
theorem whileLoop_triple {Q : Unit → View w → Prop} : ((protocol e).spec (.thread b r)).Triple
    (Round e b r i acc)
    (producerConsumer e.toConfig (func b r) (args b r) (condition r) (work r)
      (record e.toConfig b r) (report e.toConfig b r) (.whileLoop i acc)) Q := by
  have hload : ((protocol e).spec (.thread b r)).Triple (Round e b r i acc)
      (loadFifoHead (args b r).fifoHead) fun n v => Round e b r i acc v ∧ v.seen = some n := by
    rintro k v ⟨hhold, hat, hlt, hcol⟩ hk
    exact ⟨⟨hhold, args_fifoHead b r⟩, fun n _ => hk _ _ ⟨⟨⟨⟨hhold.started, hhold.awake,
      hhold.unfinished⟩, hhold.holding⟩, ⟨hat.loads, hat.works, hat.stamps, hat.wakes⟩, hlt,
      hcol.append rfl rfl fun _ => rfl⟩, rfl⟩⟩
  refine hload.bind fun n => Spec.Triple.ite (fun hcond => ?_) fun hcond => ?_
  · exact wait_triple.conseq (fun v hv => ⟨hv.1, n, hv.2, hcond⟩) fun _ _ h => h
  · refine (measure_triple fun start stop rd stamp => record_triple.bind fun acc => ?_).conseq
      (fun v hv => ⟨hv.1, n, hv.2, Bool.eq_false_iff.mpr hcond⟩) fun _ _ h => h
    exact work_triple

theorem finish_triple {Q : Unit → View w → Prop} : ((protocol e).spec (.thread b r)).Triple
    (fun v => Busy v.toProgress ∧ v.holding = false ∧ v.wakes = e.runs ∧ Recorded e b r v.hist)
    finish Q := by
  rintro k v ⟨hbusy, hfree, hruns, hrec⟩ -
  exact ⟨⟨hbusy, rfl, rfl, hfree, hruns, hrec⟩, fun n _ => ⟨⟨rfl, rfl⟩, fun a ha => ha.elim⟩⟩

/-- The results of early processing are stored. -/
theorem report_triple : ((protocol e).spec (.thread b r)).Triple
    (fun v => Busy v.toProgress ∧ v.holding = false ∧ v.wakes = e.runs ∧
      Collected e b r e.runs acc v.hist)
    (report e.toConfig b r acc)
    fun _ v => Busy v.toProgress ∧ v.holding = false ∧ v.wakes = e.runs ∧
      Recorded e b r v.hist := by
  rintro k v ⟨hbusy, hfree, hruns, rd, stamp, hs, hkept⟩ hk
  cases b with
  | late => exact hk _ _ ⟨hbusy, hfree, hruns, rd, stamp, hs, hkept⟩
  | early =>
    have hwriter : ∀ f, writer (.early (series r) f) = .thread .early r := by
      intro f
      cases r <;> rfl
    have hne : ∀ f, CcntVar.early (series r) f ≠ (args .early r).signal := by
      intro f
      cases r <;> nofun
    have hsame : ∀ (u : Progress) f (t : Ccnt w), advance (.thread .early r) u
        (.did (.store (.ccnt (.early (series r) f)) t) () : Event (sig w)) = u := fun _ f _ =>
      if_neg (hne f)
    have hstamp : ∀ f (t : Ccnt w), stampOf .early r
        (.did (.store (.ccnt (.early (series r) f)) t) () : Event (sig w)) = none := fun f t =>
      storeOf_store_of_ne (fun heq => hne f (Var.ccnt.inj heq)) _ _
    let v₁ := step (.thread .early r) v (.did (.store (.ccnt (.early (series r) .sum)) acc.sum) ())
    let v₂ := step (.thread .early r) v₁
      (.did (.store (.ccnt (.early (series r) .sum2)) acc.sum2) ())
    have hv₁ : v₁.toProgress = v.toProgress := hsame v.toProgress .sum acc.sum
    have hv₂ : v₂.toProgress = v.toProgress := (hsame v₁.toProgress .sum2 acc.sum2).trans hv₁
    refine ⟨⟨hbusy, hwriter _, fun h => absurd h (hne _)⟩, fun _ _ =>
      ⟨⟨(congrArg Busy hv₁).mpr hbusy, hwriter _, fun h => absurd h (hne _)⟩, fun _ _ =>
      ⟨⟨(congrArg Busy hv₂).mpr hbusy, hwriter _, fun h => absurd h (hne _)⟩,
      fun _ _ => hk _ _ ?_⟩⟩⟩
    have hv₃ := (hsame v₂.toProgress .num
      (BitVec.ofInt w ((e.runs : ℤ) - e.ignored))).trans hv₂
    refine ⟨(congrArg Busy hv₃).mpr hbusy, (congrArg Progress.holding hv₃).trans hfree,
      (congrArg Progress.wakes hv₃).trans hruns, rd, stamp,
      ((hs.append rfl rfl (hstamp _ _)).append rfl rfl (hstamp _ _)).append rfl rfl (hstamp _ _),
      ?_⟩
    rw [show acc = _ from hkept]
    refine ⟨?_, ?_, lastStore_append_store_self (σ := sig w) _ _ _ _⟩
    · exact (lastStore_append_store_of_ne (σ := sig w) (by simp) _ _ _).trans
        ((lastStore_append_store_of_ne (σ := sig w) (by simp) _ _ _).trans
        (lastStore_append_store_self (σ := sig w) _ _ _ _))
    · exact (lastStore_append_store_of_ne (σ := sig w) (by simp) _ _ _).trans
        (lastStore_append_store_self (σ := sig w) _ _ _ _)

theorem forLoop_triple {Q : Unit → View w → Prop} : ((protocol e).spec (.thread b r)).Triple
    (fun v => Busy v.toProgress ∧ v.holding = false ∧ At i v.toProgress ∧ i ≤ e.runs ∧
      Collected e b r i acc v.hist)
    (producerConsumer e.toConfig (func b r) (args b r) (condition r) (work r)
      (record e.toConfig b r) (report e.toConfig b r) (.forLoop i acc)) Q := by
  refine Spec.Triple.ite (fun hlt => ?_) fun hlt => ?_
  · rintro k v ⟨hbusy, hfree, hat, -, hcol⟩ -
    exact ⟨⟨hbusy, hfree, hat.wakes.trans_lt hlt⟩, fun _ _ => ⟨rfl, rfl,
      ⟨hbusy.started, hbusy.awake, hbusy.unfinished⟩, rfl,
      ⟨hat.loads, hat.works, hat.stamps, hat.wakes⟩, hlt, hcol.append rfl rfl fun _ => rfl⟩⟩
  · refine (report_triple.conseq (fun v hv => ?_) fun _ _ h => h).bind fun _ => finish_triple
    obtain ⟨hbusy, hfree, hat, hle, hcol⟩ := hv
    obtain rfl : i = e.runs := by omega
    exact ⟨hbusy, hfree, hat.wakes, hcol⟩

end Triples

theorem code_safe (e : Setup w) (p : Party) (ℓ : Label w) (v : View w) (hv : atLabel e p ℓ v) :
    ((protocol e).spec p).Safe (code e.toConfig ℓ) v := by
  cases p with
  | driver => exact hv.elim
  | thread b r =>
    obtain ⟨f, a, pt⟩ := ℓ
    obtain ⟨rfl, rfl, hbusy, hpt⟩ := hv
    rw [code_eq]
    cases pt with
    | forLoop i acc => exact forLoop_triple.safe_run ⟨hbusy, hpt⟩
    | whileLoop i acc =>
      obtain ⟨hhold, hat, hlt, hcol⟩ := hpt
      exact whileLoop_triple.safe_run ⟨⟨hbusy, hhold⟩, hat, hlt, hcol⟩

/-! ### Driver -/

theorem runBenchmark_triple (e : Setup w) (b : Bench) : ((protocol e).spec .driver).Triple
    (fun v => v.stage = base b) (runBenchmark b (func b .producer) (func b .consumer))
    fun _ v => v.stage = base b + 7 := by
  rintro k v hv hk
  have hstage : ∀ n, v.stage + n = base b + n := fun n => congrArg (· + n) hv
  refine ⟨⟨hv, rfl⟩, fun _ _ => ⟨⟨hstage 1, rfl⟩, fun _ _ => ⟨⟨hstage 2, rfl⟩, fun _ _ =>
    ⟨⟨rfl, b, .inl (hstage 3)⟩, fun x hx => ?_⟩⟩⟩⟩
  obtain ⟨n, m⟩ := x
  cases (hx : m = .empty)
  refine ⟨⟨rfl, b, .inr (hstage 4)⟩, fun y hy => ?_⟩
  obtain ⟨n', m'⟩ := y
  cases (hy : m' = .empty)
  exact ⟨hstage 5, fun _ _ => ⟨hstage 6, fun _ _ => hk _ _ (hstage 7)⟩⟩

theorem inv_init (e : Setup w) : (protocol e).Inv (init e.mem) where
  safe p := by
    cases p with
    | thread b r => exact .inl rfl
    | driver =>
      have hdriver : ((protocol e).spec .driver).Triple (fun v => v.stage = 0) driver
          fun _ => rest .driver :=
        (runBenchmark_triple e .late).bind fun _ => runBenchmark_triple e .early
      exact hdriver.safe_run rfl
  own p := by
    cases p with
    | driver => rfl
    | thread b r =>
      have hstart : ¬Started ([] : List (Event (sig w))) := fun ⟨_, h⟩ => absurd h List.not_mem_nil
      have hdone : ¬DoneSent ([] : List (Event (sig w))) := fun ⟨_, h⟩ => absurd h List.not_mem_nil
      exact ⟨⟨le_rfl, le_rfl, le_rfl, Nat.zero_le _, Nat.zero_le _, fun _ => rfl, nofun, nofun,
        fun h => absurd rfl h, nofun, fun _ => rfl⟩, ⟨nofun, fun h => absurd h hstart⟩,
        ⟨nofun, fun h => absurd h hdone⟩, rfl, rfl, fun _ => rfl, nofun⟩
  rel := by
    refine ⟨⟨fun p => ⟨nofun, nofun⟩, fun b r => ⟨nofun, fun h => ?_⟩, fun b => ?_,
      fun b r => Nat.zero_le _, fun b h => absurd h (Nat.not_lt_zero _), nofun, nofun⟩,
      fun _ => rfl, fun b r => List.nil_prefix⟩
    · exact absurd h (Nat.not_lt_zero _)
    · change min (0 - (base b + 3)) 2 = 0 + 0
      omega

/-! ### Bounds -/

section Bounds

variable (cfg : Config)

/-- The steps that are left at a loop head. -/
def budget : Budget (sig w) where
  label ℓ := match ℓ.point with
    | .forLoop i _ => (cfg.runs - i) * 17 + 6
    | .whileLoop i _ => (cfg.runs - i - 1) * 17 + 21
  wake := 4

variable {cfg}

/-- The functions take fewer steps from a loop head than are left there. -/
theorem within_producerConsumer (f : Func) (a : Args) (condition : ℤ → Bool) (work : ℤ → ℤ)
    {record : ℕ → Sums w → Ccnt w → Ccnt w → Code (sig w) (Sums w)}
    {report : Sums w → Code (sig w) Unit}
    (hrecord : ∀ i acc start stop, Bounded (budget cfg) 1 (record i acc start stop))
    (hreport : ∀ acc, Bounded (budget cfg) 3 (report acc)) (pt : Point w) :
    ∃ m < (budget cfg).label ⟨f, a, pt⟩, Within (budget cfg) m
      (producerConsumer cfg f a condition work record report pt).run := by
  cases pt with
  | forLoop i acc =>
    simp only [budget, producerConsumer]
    by_cases hi : i < cfg.runs
    · rw [if_pos hi]
      have hcode : Bounded (budget cfg) (1 + ((cfg.runs - i - 1) * 17 + 21)) (do
          Code.acquire .lock
          Code.goto ⟨f, a, .whileLoop i acc⟩ : Code (sig w) Unit) :=
        (Bounded.acquire _).bind fun _ => .goto le_rfl
      exact ⟨_, by omega, hcode.within_run⟩
    · rw [if_neg hi]
      exact ⟨_, by omega, ((hreport acc).bind fun _ => .sendRecv _ _ _).within_run⟩
  | whileLoop i acc =>
    have hwait : Bounded (budget cfg) ((cfg.runs - i - 1) * 17 + 19) (do
        Code.waitCond .lock a.waitCv
        Code.goto ⟨f, a, .whileLoop i acc⟩ : Code (sig w) Unit) :=
      .waitCond_goto (by omega) (Nat.succ_pos 3) (by simp only [budget]; omega)
    have hround : Bounded (budget cfg) ((cfg.runs - i - 1) * 17 + 19) (do
        let stop ← Code.clock
        let start ← loadCcnt a.start
        let acc ← record i acc start stop
        let fifoHead ← loadFifoHead a.fifoHead
        storeFifoHead a.fifoHead (work fifoHead)
        let t ← Code.clock
        storeCcnt a.signal t
        Code.wake a.signalCv
        Code.release .lock
        Code.goto ⟨f, a, .forLoop (i + 1) acc⟩ : Code (sig w) Unit) := by
      have hcode := Bounded.clock.bind fun stop => (Bounded.load (σ := sig w) (.ccnt a.start)).bind
        fun start => (hrecord i acc start stop).bind fun acc =>
        (Bounded.load (σ := sig w) (.fifoHead a.fifoHead)).bind fun n =>
        (Bounded.store (σ := sig w) (.fifoHead a.fifoHead) (work n)).bind fun _ =>
        Bounded.clock.bind fun t => (Bounded.store (σ := sig w) (.ccnt a.signal) t).bind fun _ =>
        (Bounded.wake (σ := sig w) a.signalCv).bind fun _ =>
        (Bounded.release (σ := sig w) .lock).bind fun _ =>
        Bounded.goto (σ := sig w) (α := Unit) (n := (cfg.runs - (i + 1)) * 17 + 6)
          (ℓ := ⟨f, a, .forLoop (i + 1) acc⟩) (le_refl _)
      exact fun m k h => (hcode m k h).mono (by simp only [budget]; omega)
    have hcode : Bounded (budget cfg) (1 + ((cfg.runs - i - 1) * 17 + 19))
        (producerConsumer cfg f a condition work record report (.whileLoop i acc)) := by
      refine (Bounded.load (σ := sig w) (.fifoHead a.fifoHead)).bind fun n => ?_
      split
      · exact hwait
      · exact hround
    exact ⟨_, by simp only [budget]; omega, hcode.within_run⟩

theorem bounded_storeSample (result : Series) (i : ℕ) (acc : Sums w) (start stop : Ccnt w) :
    Bounded (σ := sig w) (budget cfg) 1 (storeSample result i acc start stop) :=
  (Bounded.store _ _).bind fun _ => .pure _

theorem bounded_addSample (i : ℕ) (acc : Sums w) (start stop : Ccnt w) :
    Bounded (σ := sig w) (budget cfg) 1 (addSample cfg i acc start stop) :=
  fun m k h => (h _).mono (by omega)

theorem bounded_storeSums (direction : Series) (acc : Sums w) :
    Bounded (σ := sig w) (budget cfg) 3 (storeSums cfg direction acc) :=
  (Bounded.store _ _).bind fun _ => (Bounded.store _ _).bind fun _ => .store _ _

/-- The threads take fewer steps from a loop head than are left there. -/
theorem within_code (ℓ : Label w) :
    ∃ m < (budget cfg).label ℓ, Within (budget cfg) m (code cfg ℓ) := by
  have hlate : ∀ acc : Sums w, Bounded (σ := sig w) (budget cfg) 3 (pure ()) := fun _ m k h =>
    (h _).mono (by omega)
  obtain ⟨f, a, pt⟩ := ℓ
  cases f with
  | consumerFunc0 result | producerFunc0 result =>
    exact within_producerConsumer _ a _ _ (bounded_storeSample result) hlate pt
  | consumerFuncEp | producerFuncEp =>
    exact within_producerConsumer _ a _ _ bounded_addSample (bounded_storeSums _) pt

theorem exists_bounded_runBenchmark (cfg : Config) (b : Bench) (f f' : Func) :
    ∃ n, Bounded (σ := sig w) (budget cfg) n (runBenchmark b f f') :=
  ⟨_, (Bounded.store _ _).bind fun _ => (Bounded.start _ _).bind fun _ =>
    (Bounded.start _ _).bind fun _ => (bounded_benchmarkWaitChildren _ _ 2).bind fun _ =>
    (Bounded.suspend _).bind fun _ => Bounded.suspend _⟩

end Bounds

/-! ### Runs -/

section Runs

variable {s : State (sig w)} (hreach : Reach (code e.toConfig) (init e.mem) s)

include hreach

theorem inv_of_reach : (protocol e).Inv s :=
  Protocol.inv_of_run (sound (code_safe e)) (inv_init e) hreach

theorem started_iff : ((protocol e).view s.log (.thread b r)).started = true ↔
    Started (s.hist (.thread b r)) := by
  rw [((inv_of_reach hreach).own (.thread b r)).2.started, records_hist.view]

theorem done_iff : ((protocol e).view s.log (.thread b r)).done = true ↔
    DoneSent (s.hist (.thread b r)) := by
  rw [((inv_of_reach hreach).own (.thread b r)).2.done, records_hist.view]

/-- Every run can be continued until the driver has ended. -/
theorem exists_reach_halt :
    ∃ s', Reach (code e.toConfig) s s' ∧ s'.thread .driver = .halt := by
  obtain ⟨n, hn⟩ := exists_bounded_runBenchmark (w := w) e.toConfig .late (func .late .producer)
    (func .late .consumer)
  obtain ⟨m, hm⟩ := exists_bounded_runBenchmark (w := w) e.toConfig .early (func .early .producer)
    (func .early .consumer)
  let bd : Party → ℕ := fun p => if p = .driver then n + m else 0
  refine exists_reach_of_within within_code (b := bd) (fun p => ?_)
    (fun s hs hgoal => progress (inv_of_reach hs) hgoal) hreach
  cases p with
  | thread b r => exact .halt 0
  | driver => exact (hn.bind fun _ => hm).within_run

/-- When the driver has ended all threads are done. -/
theorem doneSent_of_halt (hd : s.thread .driver = .halt) (b : Bench) (r : Role) :
    DoneSent (s.hist (.thread b r)) := by
  have hinv := inv_of_reach hreach
  have hrest := hinv.safe .driver
  rw [hd] at hrest
  have hstage : ((protocol e).view s.log .driver).stage = 14 := hrest
  refine (done_iff hreach).mp (hinv.rel.related.done_of_stage ?_ r)
  rw [hstage]
  cases b <;> decide

end Runs

/-! ### The order of the work -/

/-- The thread of the benchmark that writes `fifo_head` in the event. -/
def workOf (b : Bench) : Party × Event (sig w) → Option Role
  | (.thread b' r, .did (.store (.fifoHead _) _) _) => if b' = b then some r else none
  | _ => none

/-- The work of the threads of a benchmark, in the order in which it was done. -/
def workSteps (b : Bench) (log : Log (sig w)) : List Role := log.filterMap (workOf b)

/-- Producer and consumer in turn, starting with the producer. -/
def alternating (n : ℕ) : List Role :=
  (List.range n).map fun i => if i % 2 = 0 then .producer else .consumer

theorem alternating_succ (n : ℕ) :
    alternating (n + 1) = alternating n ++ [if n % 2 = 0 then .producer else .consumer] := by
  rw [alternating, List.range_succ, List.map_append]
  rfl

theorem count_alternating (n : ℕ) : (alternating n).count .producer = (n + 1) / 2 ∧
    (alternating n).count .consumer = n / 2 := by
  induction n with
  | zero => exact ⟨rfl, rfl⟩
  | succ n ih =>
    rw [alternating_succ, List.count_append, List.count_append, ih.1, ih.2]
    by_cases hn : n % 2 = 0
    · rw [if_pos hn, List.count_singleton_self, List.count_singleton, if_neg (by decide)]
      omega
    · rw [if_neg hn, List.count_singleton_self, List.count_singleton, if_neg (by decide)]
      omega

/-- Work in turn goes on with the thread that is not ahead. -/
theorem alternating_append {l : List Role} {r : Role} (hl : l = alternating l.length)
    (hle : (l ++ [r]).count .consumer ≤ (l ++ [r]).count .producer)
    (hle' : (l ++ [r]).count .producer ≤ (l ++ [r]).count .consumer + 1) :
    l ++ [r] = alternating (l.length + 1) := by
  obtain ⟨hp, hc⟩ := count_alternating l.length
  rw [← hl] at hp hc
  rw [List.count_append, List.count_append, hp, hc] at hle hle'
  rw [alternating_succ, ← hl]
  congr 2
  cases r with
  | producer =>
    rw [List.count_singleton_self, List.count_singleton, if_neg (by decide)] at hle'
    rw [if_pos (by omega)]
  | consumer =>
    rw [List.count_singleton_self, List.count_singleton, if_neg (by decide)] at hle
    rw [if_neg (by omega)]

theorem works_advance (b : Bench) (r : Role) (v : Progress) (ev : Event (sig w)) :
    (advance (.thread b r) v ev).works =
      v.works + (workOf b (.thread b r, ev)).toList.count r := by
  cases ev with
  | started ℓ | stopped => rfl
  | did req a =>
    cases req with
    | load x => cases x <;> rfl
    | store x t =>
      cases x with
      | fifoHead b' => simp [advance, advanceBy, workOf]
      | ccnt x =>
        simp only [advance, advanceBy]
        split <;> rfl
    | _ => rfl

/-- The work that a thread has counted is that in the log. -/
theorem count_workSteps (e : Setup w) (log : Log (sig w)) (b : Bench) (r : Role) :
    (workSteps b log).count r = ((protocol e).view log (.thread b r)).works := by
  induction log using List.reverseRecOn with
  | nil => rfl
  | append_singleton log x ih =>
    obtain ⟨p, ev⟩ := x
    have happend : workSteps b (log ++ [(p, ev)]) =
        workSteps b log ++ (workOf b (p, ev)).toList := by
      cases hev : workOf b (p, ev) <;> simp [workSteps, hev]
    rw [happend, List.count_append, ih, Protocol.view_append]
    by_cases hp : Party.thread b r = p
    · subst hp
      rw [Protocol.next_self]
      exact (works_advance b r _ ev).symm
    · rw [Protocol.next_of_ne _ _ hp]
      have hnone : (workOf b (p, ev)).toList.count r = 0 := by
        rw [List.count_eq_zero, Option.mem_toList]
        intro hr
        cases p with
        | driver => exact absurd hr nofun
        | thread b' r' =>
          unfold workOf at hr
          split at hr
          · rename_i heq
            cases heq
            split at hr
            · rename_i hb
              exact hp (by rw [hb, Option.some_inj.mp hr])
            · exact absurd hr nofun
          · exact absurd hr nofun
      rw [hnone, Nat.add_zero]

/-- A step does at most one piece of work. -/
theorem workSteps_step {F : Label w → Prog (sig w)} {s s' : State (sig w)}
    {ps : List (sig w).Party} (hstep : Step F s ps s') (b : Bench) :
    workSteps b s'.log = workSteps b s.log ∨
      ∃ r, workSteps b s'.log = workSteps b s.log ++ [r] := by
  have hquiet : ∀ {p q : Party} {ev ev' : Event (sig w)}, workOf b (p, ev) = none →
      workOf b (q, ev') = none →
      workSteps b (s.log ++ [(p, ev)] ++ [(q, ev')]) = workSteps b s.log := by
    intro p q ev ev' h h'
    simp [workSteps, h, h']
  have hdid : ∀ {p : Party} {req : Req (sig w)} {a : req.Resp}, (∀ x t, req ≠ .store x t) →
      workOf b (p, .did req a) = none := by
    intro p req a hreq
    unfold workOf
    split
    · rename_i heq
      cases heq
      exact absurd rfl (hreq _ _)
    · rfl
  cases hstep with
  | @act p req k a κ hp heff =>
    cases hev : workOf b (p, .did req a) with
    | none => exact .inl (by simp [workSteps, hev])
    | some r => exact .inr ⟨r, by simp [workSteps, hev]⟩
  | exchange hpq hp hq hex =>
    refine .inl (hquiet (hdid ?_) (hdid ?_))
    · cases hex <;> nofun
    · cases hex <;> nofun
  | jump hp => exact .inl rfl
  | start hpq hp =>
    refine .inl (hquiet (hdid nofun) ?_)
    unfold workOf
    split
    · rename_i heq
      exact absurd (congrArg Prod.snd heq) nofun
    · rfl
  | suspend hpq hp =>
    refine .inl (hquiet (hdid nofun) ?_)
    unfold workOf
    split
    · rename_i heq
      exact absurd (congrArg Prod.snd heq) nofun
    · rfl

/-- Producer and consumer work in turn, in every run. -/
theorem workSteps_alternate {s : State (sig w)} (hreach : Reach (code e.toConfig) (init e.mem) s)
    (b : Bench) : workSteps b s.log = alternating (workSteps b s.log).length := by
  induction hreach with
  | refl => rfl
  | @tail s s' hs hstep ih =>
    obtain ⟨ps, -, hstep'⟩ := hstep
    have hrelated := (inv_of_reach (hs.tail ⟨ps, trivial, hstep'⟩)).rel.related
    obtain heq | ⟨r, heq⟩ := workSteps_step hstep' b
    · rw [heq, ← ih]
    · have hprod := hrelated.order b .producer
      have hcons := hrelated.order b .consumer
      simp only [Role.other, Role.lead] at hprod hcons
      rw [← count_workSteps, ← count_workSteps, heq] at hprod hcons
      rw [heq, List.length_append, List.length_singleton]
      exact alternating_append ih hcons hprod

/-! ### The monitor -/

/-- The thread neither holds the lock nor waits for it, and does not wait on a condition
variable. -/
structure Outside (s : State (sig w)) (p : Party) : Prop where
  owner : s.kernel.owner .lock ≠ some p
  acquire : ∀ l k, s.thread p ≠ .op (.acquire l) k
  asleep : ∀ c k, s.thread p ≠ .op (.asleep c) k

section Main

variable {s : State (sig w)} (hreach : Reach (code e.toConfig) (init e.mem) s)

include hreach

/-- A thread that is done, or has not been started, is outside of the monitor. -/
theorem outside_of_idle (hidle : ((protocol e).view s.log (.thread b r)).started = false ∨
    ((protocol e).view s.log (.thread b r)).done = true) : Outside s (.thread b r) := by
  have hinv := inv_of_reach hreach
  have hcounts := (hinv.own (.thread b r)).1
  have hnot : ((protocol e).view s.log (.thread b r)).started = true →
      ((protocol e).view s.log (.thread b r)).done = false → False := by
    intro hs hd
    obtain hi | hi := hidle
    · exact absurd (hi.symm.trans hs) nofun
    · exact absurd (hd.symm.trans hi) nofun
  refine ⟨fun ho => ?_, fun l k ht => ?_, fun c k ht => ?_⟩
  · have hhold := hcounts.holding ((hinv.rel.related.lock _).mpr ho)
    exact hnot hhold.started hhold.unfinished
  · have hguar := hinv.guar ht
    exact hnot hguar.1.started hguar.1.unfinished
  · have hguar := hinv.guar ht
    obtain ⟨-, hs, hd, -⟩ := hcounts.asleep hguar.2
    exact hnot hs hd

/-- When both threads of a benchmark are done, the fifo is empty. -/
theorem fifoHead_of_done (hdone : ∀ r, DoneSent (s.hist (.thread b r))) :
    fifoHead s.kernel b = 0 := by
  have hinv := inv_of_reach hreach
  have hworks : ∀ r, ((protocol e).view s.log (.thread b r)).works = e.runs := by
    intro r
    have hcounts := (hinv.own (.thread b r)).1
    obtain ⟨-, hfree, hruns⟩ := hcounts.done ((done_iff hreach).mpr (hdone r))
    exact (hcounts.at_of_released (hcounts.released hfree)).works.trans hruns
  have hstage := (hinv.rel.related.started b .producer).mp
    ((hinv.own (.thread b .producer)).1.done ((done_iff hreach).mpr (hdone .producer))).1
  rw [hinv.rel.related.fifo b (by omega), hworks, hworks, Int.sub_self]

/-- The monitor is empty when a benchmark starts its producer. -/
theorem outside_of_start {ℓ : Label w} {k : Unit → Prog (sig w)}
    (hd : s.thread .driver = .op (.start (.thread b .producer) ℓ) k) :
    s.kernel.owner .lock = none ∧ ∀ b' r, Outside s (.thread b' r) := by
  have hinv := inv_of_reach hreach
  have hrelated := hinv.rel.related
  have hstage : ((protocol e).view s.log .driver).stage = base b + 1 := (hinv.guar hd).1
  have houtside : ∀ b' r, Outside s (.thread b' r) := by
    intro b' r
    refine outside_of_idle hreach ?_
    by_cases hlt : base b' + begin r < ((protocol e).view s.log .driver).stage
    · refine .inr (hrelated.done_of_stage ?_ r)
      cases b <;> cases b' <;> cases r <;> simp only [base, begin] at * <;> omega
    · exact .inl (fresh_of_stage hinv (not_lt.mp hlt)).1
  refine ⟨?_, houtside⟩
  cases ho : s.kernel.owner .lock with
  | none => rfl
  | some q =>
    cases q with
    | thread b' r => exact absurd ho (houtside b' r).owner
    | driver =>
      have hfree : ((protocol e).view s.log .driver).holding = false := hinv.own .driver
      exact absurd (hfree.symm.trans ((hrelated.lock .driver).mpr ho)) (by simp)

/-- What a thread that is done has measured: the times that it has read from the other thread are
those that the other one has written, and for the producer the first one comes from nobody. -/
theorem samples_of_done (hdone : DoneSent (s.hist (.thread b r))) : ∃ rd stamp,
    clocks (s.hist (.thread b r)) = (List.range e.runs).flatMap (fun i => [rd.stop i, stamp i]) ∧
    stamps b r (s.hist (.thread b r)) = (List.range e.runs).map stamp ∧
    Results e.toConfig b r (fun x => some (s.kernel.mem (.ccnt x))) rd ∧
    ∀ i, i + r.lead < e.runs →
      (stamps b r.other (s.hist (.thread b r.other)))[i]? = some (rd.start (i + r.lead)) := by
  have hinv := inv_of_reach hreach
  obtain ⟨rd, stamp, ⟨hclocks, hloads, hstamps⟩, hres⟩ :=
    (hinv.own (.thread b r)).2.recorded ((done_iff hreach).mpr hdone)
  have hpre := hinv.rel.loads b r
  rw [hloads, records_hist.view] at hpre
  rw [records_hist.view] at hclocks hstamps
  refine ⟨rd, stamp, hclocks, hstamps, ?_, fun i hi => ?_⟩
  · have hmem : ∀ x t, writer x = .thread b r →
        lastCcnt ((protocol e).view s.log (.thread b r)).hist x = some t →
        some (s.kernel.mem (.ccnt x)) = some t := by
      intro x t hx hlast
      rw [hinv.rel.mem, hx, stored, show lastStore _ _ = _ from hlast, Option.getD_some]
    cases b with
    | late =>
      have hx : ∀ i, writer (.sample (series r) i) = .thread .late r := by
        intro i
        cases r <;> rfl
      exact fun i hi => hmem _ _ (hx i) (hres i hi)
    | early =>
      have hx : ∀ f, writer (.early (series r) f) = .thread .early r := by
        intro f
        cases r <;> rfl
      obtain ⟨hsum, hsum2, hnum⟩ := hres
      exact ⟨hmem _ _ (hx _) hsum, hmem _ _ (hx _) hsum2, hmem _ _ (hx _) hnum⟩
  · have hlen : (before e b r).length = r.lead := by cases r <;> rfl
    have hget : (before e b r ++ stamps b r.other (s.hist (.thread b r.other)))[i + r.lead]? =
        some (rd.start (i + r.lead)) := by
      obtain ⟨t, ht⟩ := hpre
      rw [← ht, List.getElem?_append_left (by simpa using hi), List.getElem?_map,
        List.getElem?_range hi]
      rfl
    rwa [List.getElem?_append_right (by omega), hlen, Nat.add_sub_cancel] at hget

end Main

/-- **Producer and consumer.** For any number of runs and every interleaving, in both benchmarks:
once the producer is started, `fifo_head` is between `0` and `FIFO_SIZE`; the threads work in turn,
the producer first; while both threads are running and not both are done, one of them is not
blocked, and the run can be continued to its end; when both are done the fifo is empty and they are
outside of the monitor, and nobody is in it when a benchmark starts its producer; the consumer's
samples are computed from its times and the producer's times of the same rounds, and the producer's
samples, but the first, from its times and the consumer's times of the rounds before. -/
theorem producer_consumer (cfg : Config) (mem : ∀ x, Val w x) {s : State (sig w)}
    (hreach : Reach (code cfg) (init mem) s) :
    (∃ s', Reach (code cfg) s s' ∧ ∀ b r, DoneSent (s'.hist (.thread b r))) ∧
    (∀ b ℓ k, s.thread .driver = .op (.start (.thread b .producer) ℓ) k →
      s.kernel.owner .lock = none ∧ ∀ b' r, Outside s (.thread b' r)) ∧
    ∀ b,
      (Started (s.hist (.thread b .producer)) →
        0 ≤ fifoHead s.kernel b ∧ fifoHead s.kernel b ≤ fifoSize) ∧
      workSteps b s.log = alternating (workSteps b s.log).length ∧
      (Started (s.hist (.thread b .producer)) → Started (s.hist (.thread b .consumer)) →
        ¬(DoneSent (s.hist (.thread b .producer)) ∧ DoneSent (s.hist (.thread b .consumer))) →
        ¬(Blocked (code cfg) s (.thread b .producer) ∧
          Blocked (code cfg) s (.thread b .consumer))) ∧
      (DoneSent (s.hist (.thread b .producer)) → DoneSent (s.hist (.thread b .consumer)) →
        fifoHead s.kernel b = 0 ∧ ∀ r, Outside s (.thread b r)) ∧
      (DoneSent (s.hist (.thread b .consumer)) → ∃ rd stamp,
        clocks (s.hist (.thread b .consumer)) =
          (List.range cfg.runs).flatMap (fun i => [rd.stop i, stamp i]) ∧
        stamps b .consumer (s.hist (.thread b .consumer)) = (List.range cfg.runs).map stamp ∧
        Results cfg b .consumer (fun x => some (s.kernel.mem (.ccnt x))) rd ∧
        ∀ i < cfg.runs,
          (stamps b .producer (s.hist (.thread b .producer)))[i]? = some (rd.start i)) ∧
      (DoneSent (s.hist (.thread b .producer)) → ∃ rd stamp,
        clocks (s.hist (.thread b .producer)) =
          (List.range cfg.runs).flatMap (fun i => [rd.stop i, stamp i]) ∧
        stamps b .producer (s.hist (.thread b .producer)) = (List.range cfg.runs).map stamp ∧
        Results cfg b .producer (fun x => some (s.kernel.mem (.ccnt x))) rd ∧
        ∀ i, i + 1 < cfg.runs →
          (stamps b .consumer (s.hist (.thread b .consumer)))[i]? = some (rd.start (i + 1))) := by
  let e : Setup w := { toConfig := cfg, mem := mem }
  have hreach' : Reach (code e.toConfig) (init e.mem) s := hreach
  have hinv := inv_of_reach hreach'
  have hrelated := hinv.rel.related
  refine ⟨?_, fun _ _ _ => outside_of_start hreach', fun b => ⟨fun hstart => ?_,
    workSteps_alternate hreach' b, fun _ hstart hnot hblocked => ?_, fun hp hc => ?_,
    samples_of_done hreach', samples_of_done hreach'⟩⟩
  · obtain ⟨s', hs', hd⟩ := exists_reach_halt hreach'
    exact ⟨s', hs', doneSent_of_halt (Relation.ReflTransGen.trans hreach' hs') hd⟩
  · have hstage := (hrelated.started b .producer).mp ((started_iff hreach').mpr hstart)
    exact hrelated.fifo_bounds (by omega)
  · have hlt : base b + 2 < _ :=
      (hrelated.started b .consumer).mp ((started_iff hreach').mpr hstart)
    have hle : ((protocol e).view s.log .driver).stage ≤ base b + 4 := by
      by_contra hgt
      have hall := hrelated.done_of_stage (b := b) (not_le.mp hgt)
      exact hnot ⟨(done_iff hreach').mp (hall .producer), (done_iff hreach').mp (hall .consumer)⟩
    obtain ⟨r, hr⟩ := not_blocked (F := code cfg) hinv hlt hle
    cases r with
    | producer => exact hr hblocked.1
    | consumer => exact hr hblocked.2
  · have hdone : ∀ r, DoneSent (s.hist (.thread b r)) := by
      intro r
      cases r with
      | producer => exact hp
      | consumer => exact hc
    exact ⟨fifoHead_of_done hreach' hdone, fun r =>
      outside_of_idle hreach' (.inr ((done_iff hreach').mpr (hdone r)))⟩

/-- Two runs of both benchmarks can be completed. The second sample of the producer is then as
stated. -/
theorem producer_consumer_two : ∃ s', Reach (code ⟨64, 2, 0⟩)
    (init (fun | .fifoHead _ => (0 : ℤ) | .ccnt _ => (0 : Ccnt 64)) : State (sig 64)) s' ∧
      fifoHead s'.kernel .late = 0 ∧ ∃ (start stop : Ccnt 64),
        (stamps .late .consumer (s'.hist (.thread .late .consumer)))[0]? = some start ∧
        s'.kernel.mem (.ccnt (.sample .consumerToProducer 1)) = stop - start := by
  obtain ⟨⟨s', hs', hdone⟩, -⟩ := producer_consumer (w := 64) ⟨64, 2, 0⟩
    (fun | .fifoHead _ => (0 : ℤ) | .ccnt _ => (0 : Ccnt 64)) .refl
  obtain ⟨-, -, hall⟩ := producer_consumer _ _ hs'
  obtain ⟨-, -, -, hempty, -, hsamples⟩ := hall .late
  obtain ⟨rd, -, -, -, hres, hpair⟩ := hsamples (hdone .late .producer)
  exact ⟨s', hs', (hempty (hdone .late .producer) (hdone .late .consumer)).1, rd.start 1, rd.stop 1,
    hpair 0 (by decide), Option.some_inj.mp (hres 1 (by decide))⟩

end Sel4bench.Sync
