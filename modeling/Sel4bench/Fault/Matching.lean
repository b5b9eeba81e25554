import Sel4bench.Fault.Protocol
import Sel4bench.Lib.Termination

/-!
# Matching of faulter and handler

The functions of the fault benchmark follow the protocol of `Fault.Protocol`, in each of the six
pairs that `run_fault_benchmark` starts. So the handler receives exactly the faults that are
raised and replies to each of them once, no run gets stuck before the done messages, and the times
of every sample delimit the same fault, reply or round trip.

## Main definitions

* `Sel4bench.Fault.Delimits` — the times of a sample, in the histories of both parties.

## Main results

* `Sel4bench.Fault.function_safe` — the functions follow the protocol.
* `Sel4bench.Fault.fault_matching` — faults, replies and samples match.
-/

namespace Sel4bench.Fault

open Machine
open Support (bounded_benchmarkWaitChildren)

variable {b w : ℕ} {e : Setup b w} {p : Party} {v : View b w} {ev : Event (sig b w)} {i : ℕ}
  {start stop : Ccnt w}

/-! ### Samples in a loop -/

/-- The first `i` samples have been measured and stored. -/
def Late (e : Setup b w) (i : ℕ) (v : View b w) : Prop :=
  ∃ r : Readings w, ∀ j < i, Measured e v j (r.start j) (r.stop j) ∧
    lastStore (Var.sample e.bm.series j) v.hist = some (r.stop j - r.start j)

/-- The first `i` samples have been measured and added up. -/
def Early (e : Setup b w) (i : ℕ) (acc : Sums w) (v : View b w) : Prop :=
  ∃ r : Readings w, (∀ j < i, Measured e v j (r.start j) (r.stop j)) ∧
    acc = datacollectLoop b i e.ignored r.start r.stop (e.mem (.early e.bm.series .minOverhead))

theorem late_zero : Late e 0 v := ⟨⟨0, 0⟩, nofun⟩

theorem early_zero : Early e 0 ⟨0, 0⟩ v := ⟨⟨0, 0⟩, nofun, rfl⟩

theorem Late.step (h : Late e i v) (p : Party) (hev : ∀ x, storeOf x ev = none) :
    Late e i (step p v ev) := by
  obtain ⟨r, hr⟩ := h
  refine ⟨r, fun j hj => ⟨(hr j hj).1.append p ev, ?_⟩⟩
  exact (lastStore_append (hev _) _).trans (hr j hj).2

theorem Early.step {acc : Sums w} (h : Early e i acc v) (p : Party) (ev : Event (sig b w)) :
    Early e i acc (step p v ev) := by
  obtain ⟨r, hr, hacc⟩ := h
  exact ⟨r, fun j hj => (hr j hj).append p ev, hacc⟩

theorem Late.store (h : Late e i v) (hm : Measured e v i start stop) (p : Party) :
    Late e (i + 1) (Fault.step p v (.did (.store (.sample e.bm.series i) (stop - start)) ())) := by
  obtain ⟨r, hr⟩ := h
  refine ⟨r.set i start stop, fun j hj => ?_⟩
  by_cases hji : j = i
  · subst hji
    rw [r.set_start_self, r.set_stop_self]
    exact ⟨hm.append p _, lastStore_append_store_self _ _ _ _⟩
  · obtain ⟨hj, hlast⟩ := hr j (by omega)
    rw [r.set_start_of_ne _ _ hji, r.set_stop_of_ne _ _ hji]
    refine ⟨hj.append p _, (lastStore_append_store_of_ne ?_ _ _ _).trans hlast⟩
    exact fun heq => hji (Var.sample.inj heq).2.symm

theorem Early.add {acc : Sums w} (h : Early e i acc v) (hm : Measured e v i start stop) :
    Early e (i + 1) (getSums e.toConfig i start stop (e.mem (.early e.bm.series .minOverhead)) acc)
      v := by
  obtain ⟨r, hr, rfl⟩ := h
  refine ⟨r.set i start stop, fun j hj => ?_, ?_⟩
  · by_cases hji : j = i
    · subst hji
      rwa [r.set_start_self, r.set_stop_self]
    · rw [r.set_start_of_ne _ _ hji, r.set_stop_of_ne _ _ hji]
      exact hr j (by omega)
  · rw [datacollectLoop_set, getSums]

theorem Late.recorded (h : Late e i v) (hi : e.runs ≤ i) (hearly : e.bm.early = false) :
    Recorded e v := by
  obtain ⟨r, hr⟩ := h
  refine ⟨r, fun j hj => (hr j (hj.trans_le hi)).1, ?_⟩
  rw [Stored, if_neg (by simp [hearly])]
  exact fun j hj => (hr j (hj.trans_le hi)).2

/-- A party that runs, with its done message not yet sent. -/
structure Running (count : ℕ) (waiting : Bool) (v : View b w) : Prop where
  active : v.active = true
  count : v.count = count
  waiting : v.waiting = waiting
  unfinished : v.done = false

theorem Running.busy {c : ℕ} (h : Running c false v) : Busy p v.toProgress :=
  ⟨h.active, h.unfinished, fun _ => h.waiting⟩

/-- What stays when nothing is stored. -/
def Stable (p : Party) (F : View b w → Prop) : Prop :=
  ∀ v ev, (∀ x, storeOf x ev = none) → F v → F (step p v ev)

theorem stable_late (e : Setup b w) (i : ℕ) : Stable p (Late e i) := fun _ _ hev h => h.step p hev

theorem stable_early (e : Setup b w) (i : ℕ) (acc : Sums w) : Stable p (Early e i acc) :=
  fun _ ev _ h => h.step p ev

theorem stable_true : Stable (b := b) (w := w) p fun _ => True := fun _ _ _ h => h

/-! ### Pieces of the faulter -/

section Faulter

variable {c : ℕ} {F : View b w → Prop} {α : Type} {f : Ccnt w → Ccnt w → Code (sig b w) α}
  {Q : α → View b w → Prop}

/-- A fault that nothing is measured of. -/
theorem fault_triple (hc : c < e.total) (hs : e.bm.series ≠ .fault) (hF : Stable .faulter F) :
    ((protocol e).spec .faulter).Triple (fun v => Running c false v ∧ F v) (fault e.toConfig c)
      fun _ v => Running (c + 1) false v ∧ F v := by
  rintro k v ⟨hrun, hv⟩ hk
  obtain ⟨hactive, rfl, hwait, hdone⟩ := hrun
  refine ⟨⟨Running.busy ⟨hactive, rfl, hwait, hdone⟩, hc, rfl, fun h => absurd h hs⟩, fun n _ =>
    ⟨⟨hactive, rfl⟩, fun m _ => hk _ _ ⟨⟨hactive, rfl, rfl, hdone⟩, ?_⟩⟩⟩
  exact hF _ _ (fun _ => rfl) (hF _ _ (fun _ => rfl) hv)

theorem measureFault_round (hs : e.bm.series = .fault) (hc : c < e.total) :
    ((protocol e).spec .faulter).Triple (Running c false)
      (do
        readStart
        fault e.toConfig c)
      fun _ => Running (c + 1) false := by
  rintro k v ⟨hactive, rfl, hwait, hdone⟩ hk
  have hbusy : Busy .faulter v.toProgress := Running.busy ⟨hactive, rfl, hwait, hdone⟩
  have hwriter : e.writer .start = .faulter := by simp [Setup.writer, hs]
  refine ⟨hbusy, fun t _ => ⟨⟨hbusy, hwriter, by simp, by simp⟩, fun _ _ =>
    ⟨⟨hbusy, hc, rfl, fun _ => ⟨t, ?_⟩⟩, fun n _ =>
    ⟨⟨hactive, rfl⟩, fun m _ => hk _ _ ⟨hactive, rfl, rfl, hdone⟩⟩⟩⟩⟩
  exact ⟨v.hist, by simp [protocol, step]⟩

theorem measureReply_round (hs : e.bm.series = .faultReply) (hc : c + 1 < e.total)
    (hF : Stable .faulter F) (hf : ∀ start stop, ((protocol e).spec .faulter).Triple
      (fun v => (Running (c + 2) false v ∧ F v) ∧ Measured e v c start stop) (f start stop) Q) :
    ((protocol e).spec .faulter).Triple (fun v => Running (c + 1) false v ∧ F v)
      (do
        fault e.toConfig (c + 1)
        let stop ← Code.clock
        let start ← load .start
        f start stop) Q := by
  rintro k v ⟨⟨hactive, hcount, hwait, hdone⟩, hv⟩ hk
  have hbusy : Busy .faulter v.toProgress := Running.busy ⟨hactive, hcount, hwait, hdone⟩
  have hmay : ∀ u : Progress, u.waiting = false → 0 < u.count → MayLoad e .faulter u := by
    intro u hu hpos
    simp only [MayLoad, hs]
    exact ⟨hu, hpos⟩
  refine ⟨⟨hbusy, hcount.trans_lt hc, by rw [hcount], fun h => absurd (hs.symm.trans h) (by simp)⟩,
    fun n hn => ⟨⟨hactive, rfl⟩, fun m _ => ⟨⟨hactive, hdone, fun _ => rfl⟩, fun stop _ =>
    ⟨⟨⟨hactive, hdone, fun _ => rfl⟩, hmay _ rfl (Nat.succ_pos _)⟩, fun start _ =>
    hf _ _ _ _ ⟨⟨⟨hactive, congrArg (· + 1) hcount, rfl, hdone⟩, ?_⟩, ?_⟩ hk⟩⟩⟩⟩
  · exact hF _ _ (fun _ => rfl) (hF _ _ (fun _ => rfl) (hF _ _ (fun _ => rfl)
      (hF _ _ (fun _ => rfl) hv)))
  · have hn' : n = c + 1 := Eq.trans hn hcount
    subst hn'
    simp only [Measured, hs]
    refine ⟨?_, .fault (e.ip (c + 1)), m, v.hist, [], ?_⟩
    · simp [protocol, step, advance, startOf, loadOf, hcount]
    · simp [protocol, step]

theorem measureRoundtrip_round (hs : e.bm.series = .roundTrip) (hc : c < e.total)
    (hF : Stable .faulter F) (hf : ∀ start stop, ((protocol e).spec .faulter).Triple
      (fun v => (Running (c + 1) false v ∧ F v) ∧ Measured e v c start stop) (f start stop) Q) :
    ((protocol e).spec .faulter).Triple (fun v => Running c false v ∧ F v)
      (do
        let start ← Code.clock
        fault e.toConfig c
        let stop ← Code.clock
        f start stop) Q := by
  rintro k v ⟨⟨hactive, rfl, hwait, hdone⟩, hv⟩ hk
  have hbusy : Busy .faulter v.toProgress := Running.busy ⟨hactive, rfl, hwait, hdone⟩
  refine ⟨hbusy, fun start _ => ⟨⟨hbusy, hc, rfl, fun h => absurd (hs.symm.trans h) nofun⟩,
    fun n hn => ⟨⟨hactive, rfl⟩, fun m _ => ⟨⟨hactive, hdone, fun _ => rfl⟩, fun stop _ =>
    hf _ _ _ _ ⟨⟨⟨hactive, rfl, rfl, hdone⟩, ?_⟩, ?_⟩ hk⟩⟩⟩⟩
  · exact hF _ _ (fun _ => rfl) (hF _ _ (fun _ => rfl) (hF _ _ (fun _ => rfl)
      (hF _ _ (fun _ => rfl) hv)))
  · cases (hn : n = v.count)
    simp only [Measured, hs]
    exact ⟨.fault (e.ip v.count), m, v.hist, [], by simp [protocol, step, advance]⟩

end Faulter

/-! ### Pieces of the handler -/

section Handler

variable {c : ℕ} {F : View b w → Prop} {ip : Word b}

theorem faultHandlerStart_triple (hF : Stable .handler F) (htotal : 0 < e.total) :
    ((protocol e).spec .handler).Triple (fun v => Running 0 false v ∧ F v) faultHandlerStart
      fun ip v => (Running 1 true v ∧ F v) ∧ ip = e.ip 0 := by
  rintro k v ⟨⟨hactive, hcount, hwait, hdone⟩, hv⟩ hk
  refine ⟨⟨hactive, hwait, .inl (hcount ▸ htotal)⟩, fun a ha => hk _ _ ⟨⟨⟨hactive,
    congrArg (· + 1) hcount, rfl, hdone⟩, hF _ _ (fun _ => rfl) hv⟩, ?_⟩⟩
  have ha' : a = e.faultMsg v.count := ha.1
  rw [ha', hcount]
  rfl

/-- A reply and the next fault, where no time is taken. -/
theorem replyRecv1_triple (hs : e.bm.series ≠ .faultReply) (hc : c + 1 < e.total)
    (hF : Stable .handler F) :
    ((protocol e).spec .handler).Triple
      (fun v => (Running (c + 1) true v ∧ F v) ∧ ip = e.ip c)
      (replyRecv1 (ip + e.udInstructionSize))
      fun ip v => (Running (c + 2) true v ∧ F v) ∧ ip = e.ip (c + 1) := by
  rintro k v ⟨⟨⟨hactive, hcount, hwait, hdone⟩, hv⟩, rfl⟩ hk
  refine ⟨⟨hactive, hwait, by rw [hcount, Nat.add_sub_cancel], fun h => absurd h hs⟩, fun a _ =>
    ⟨⟨hactive, rfl, .inl (hcount.trans_lt hc)⟩, fun x hx => hk _ _ ⟨⟨⟨hactive,
    congrArg (· + 1) hcount, rfl, hdone⟩, ?_⟩, ?_⟩⟩⟩
  · exact hF _ _ (fun _ => rfl) (hF _ _ (fun _ => rfl) hv)
  · have hx' : x = e.faultMsg v.count := hx.1
    rw [hx', hcount]
    rfl

theorem measureFaultHandler_round {α : Type} {f : Word b → Ccnt w → Ccnt w → Code (sig b w) α}
    {Q : α → View b w → Prop} (hs : e.bm.series = .fault) (hc : c + 1 < e.total)
    (hF : Stable .handler F) (hf : ∀ start stop, ((protocol e).spec .handler).Triple
      (fun v => (Running (c + 2) true v ∧ F v) ∧ Measured e v c start stop)
      (f (e.ip (c + 1)) start stop) Q) :
    ((protocol e).spec .handler).Triple
      (fun v => (Running (c + 1) true v ∧ F v) ∧ ip = e.ip c)
      (do
        let ip ← replyRecv1 (ip + e.udInstructionSize)
        let stop ← Code.clock
        let start ← load .start
        f ip start stop) Q := by
  rintro k v ⟨⟨⟨hactive, hcount, hwait, hdone⟩, hv⟩, rfl⟩ hk
  have hmay : ∀ u : Progress, u.waiting = true → MayLoad e .handler u := by
    intro u hu
    simp only [MayLoad, hs]
    exact hu
  refine ⟨⟨hactive, hwait, by rw [hcount, Nat.add_sub_cancel], fun h => absurd (hs.symm.trans h)
    (by simp)⟩, fun a _ => ⟨⟨hactive, rfl, .inl (hcount.trans_lt hc)⟩, fun x hx =>
    ⟨⟨hactive, hdone, (by simp)⟩, fun stop _ => ⟨⟨⟨hactive, hdone, (by simp)⟩, hmay _ rfl⟩,
    fun start _ => ?_⟩⟩⟩⟩
  have hx' : x = (c + 1, .fault (e.ip (c + 1))) := (hcount ▸ hx.1 : x = e.faultMsg (c + 1))
  subst hx'
  refine hf _ _ _ _ ⟨⟨⟨hactive, congrArg (· + 1) hcount, rfl, hdone⟩, ?_⟩, ?_⟩ hk
  · exact hF _ _ (fun _ => rfl) (hF _ _ (fun _ => rfl) (hF _ _ (fun _ => rfl)
      (hF _ _ (fun _ => rfl) hv)))
  · simp only [Measured, hs]
    refine ⟨?_, .fault (e.ip (c + 1)), v.hist ++ [.did (.reply _) a], [], ?_⟩
    · simp [protocol, step, advance, startOf, loadOf, hcount]
    · simp [protocol, step]

theorem replyHandler_round (hs : e.bm.series = .faultReply) (hc : c + 1 < e.total) :
    ((protocol e).spec .handler).Triple
      (fun v => Running (c + 1) true v ∧ ip = e.ip c)
      (do
        readStart
        replyRecv1 (ip + e.udInstructionSize))
      fun ip v => Running (c + 2) true v ∧ ip = e.ip (c + 1) := by
  rintro k v ⟨⟨hactive, hcount, hwait, hdone⟩, rfl⟩ hk
  have hwriter : e.writer .start = .handler := by simp [Setup.writer, hs]
  have hbusy : Busy .handler v.toProgress := ⟨hactive, hdone, (by simp)⟩
  refine ⟨hbusy, fun t _ => ⟨⟨hbusy, hwriter, (by simp), fun _ _ => hwait⟩, fun _ _ =>
    ⟨⟨hactive, hwait, by simp [protocol, step, advance, hcount], fun _ _ => ⟨t, ?_⟩⟩, fun a _ =>
    ⟨⟨hactive, rfl, .inl (hcount.trans_lt hc)⟩, fun x hx => hk _ _ ⟨⟨hactive,
    congrArg (· + 1) hcount, rfl, hdone⟩, ?_⟩⟩⟩⟩⟩
  · exact ⟨v.hist, by simp [protocol, step]⟩
  · have hx' : x = e.faultMsg v.count := hx.1
    rw [hx', hcount]
    rfl

/-- After its done message the handler waits for a fault that never comes. -/
theorem faultHandlerDone_triple {Q : Unit → View b w → Prop} (hF : Stable .handler F)
    (hc : c + 1 = e.total) (hrec : .handler = e.recorder → ∀ v, F v → Recorded e v) :
    ((protocol e).spec .handler).Triple (fun v => (Running (c + 1) true v ∧ F v) ∧ ip = e.ip c)
      (faultHandlerDone e.toConfig ip) Q := by
  rintro k v ⟨⟨⟨hactive, hcount, hwait, hdone⟩, hv⟩, rfl⟩ hk
  refine ⟨⟨hactive, hwait, by rw [hcount, Nat.add_sub_cancel], fun _ h => ?_⟩, fun a _ =>
    ⟨⟨⟨hactive, hdone, nofun⟩, rfl, hcount.trans hc, rfl, fun hp => ?_⟩, fun n _ =>
    ⟨⟨hactive, rfl, .inr rfl⟩, fun x hx => absurd hx.2 ?_⟩⟩⟩
  · exact absurd (hcount.trans hc) h.ne
  · exact hrec hp _ (hF _ _ (fun _ => rfl) hv)
  · exact ((hcount.trans hc).symm ▸ lt_irrefl _ : ¬v.count < e.total)

end Handler

/-! ### Recording -/

section Recording

variable {c : ℕ} {waiting : Bool} {m : Series}

theorem load_minOverhead_triple (hp : p ≠ .driver) {F : View b w → Prop} (hF : Stable p F) :
    ((protocol e).spec p).Triple (fun v => Running c false v ∧ F v)
      (load (.early m .minOverhead))
      fun o v => (Running c false v ∧ F v) ∧ o = e.mem (.early m .minOverhead) := by
  rintro k v ⟨hrun, hv⟩ hk
  cases p with
  | driver => exact absurd rfl hp
  | faulter | handler =>
    refine ⟨hrun.busy, fun o ho => hk _ _ ⟨⟨⟨hrun.active, hrun.count, hrun.waiting,
      hrun.unfinished⟩, hF _ _ (fun _ => rfl) hv⟩, ho⟩⟩

/-- The requests to store that the recording party makes. -/
theorem guar_store {x : Var} {t : Ccnt w} (hp : p ≠ .driver) (hbusy : Busy p v.toProgress)
    (hx : e.writer x = p) (hne : ∀ m, x ≠ .early m .minOverhead) (hstart : x ≠ .start) :
    guar e p v (.store x t) := by
  cases p with
  | driver => exact absurd rfl hp
  | faulter | handler => exact ⟨hbusy, hx, hne, fun _ h => absurd h hstart⟩

/-- A store does not change how far a party is. -/
theorem Running.store (h : Running c waiting v) (hp : p ≠ .driver) (x : Var) (t : Ccnt w) :
    Running c waiting (step p v (.did (.store x t) ())) := by
  cases p with
  | driver => exact absurd rfl hp
  | faulter | handler => exact ⟨h.active, h.count, h.waiting, h.unfinished⟩

theorem store_triple (hs : e.bm.series = m) (hp : p = e.recorder)
    (hw : p = .faulter → waiting = false) :
    ((protocol e).spec p).Triple
      (fun v => (Running c waiting v ∧ Late e i v) ∧ Measured e v i start stop)
      (Code.store (.sample m i) (stop - start))
      fun _ v => Running c waiting v ∧ Late e (i + 1) v := by
  subst hs
  rintro k v ⟨⟨hrun, hlate⟩, hm⟩ hk
  have hdriver : p ≠ .driver := by
    rw [hp, Setup.recorder]
    split <;> nofun
  refine ⟨guar_store hdriver ⟨hrun.active, hrun.unfinished, fun h => hrun.waiting.trans (hw h)⟩
    hp.symm nofun nofun, fun _ _ => hk _ _ ⟨hrun.store hdriver _ _, hlate.store hm p⟩⟩

theorem storeSums_triple (hs : e.bm.series = m) (hp : p = e.recorder)
    (hw : p = .faulter → waiting = false) (hearly : e.bm.early = true) {acc : Sums w} :
    ((protocol e).spec p).Triple (fun v => Running c waiting v ∧ Early e e.runs acc v)
      (storeSums e.toConfig m acc) fun _ v => Running c waiting v ∧ Recorded e v := by
  subst hs
  rintro k v ⟨hrun, hacc⟩ hk
  have hdriver : p ≠ .driver := by
    rw [hp, Setup.recorder]
    split <;> nofun
  have hbusy : ∀ u : View b w, Running c waiting u → Busy p u.toProgress := fun u hu =>
    ⟨hu.active, hu.unfinished, fun h => hu.waiting.trans (hw h)⟩
  have hrun₁ := hrun.store hdriver (.early e.bm.series .sum) acc.sum
  have hrun₂ := hrun₁.store hdriver (.early e.bm.series .sum2) acc.sum2
  refine ⟨guar_store hdriver (hbusy _ hrun) hp.symm (by simp) nofun, fun _ _ =>
    ⟨guar_store hdriver (hbusy _ hrun₁) hp.symm (by simp) nofun, fun _ _ =>
    ⟨guar_store hdriver (hbusy _ hrun₂) hp.symm (by simp) nofun, fun _ _ =>
    hk _ _ ⟨hrun₂.store hdriver _ _, ?_⟩⟩⟩⟩
  obtain ⟨r, hr, rfl⟩ := hacc
  refine ⟨r, fun j hj => (((hr j hj).append p _).append p _).append p _, ?_⟩
  rw [Stored, if_pos hearly]
  simp only [protocol, step]
  refine ⟨?_, ?_, lastStore_append_store_self _ _ _ _⟩
  · rw [lastStore_append_store_of_ne (by simp), lastStore_append_store_of_ne (by simp),
      lastStore_append_store_self]
    rfl
  · rw [lastStore_append_store_of_ne (by simp), lastStore_append_store_self]
    rfl

theorem sendDone_triple {F : View b w → Prop}
    (hrec : .faulter = e.recorder → ∀ v, F v → Recorded e v) :
    ((protocol e).spec .faulter).Triple (fun v => Running e.total false v ∧ F v) sendDone
      fun _ => rest .faulter := by
  rintro k v ⟨hrun, hv⟩ hk
  exact ⟨⟨hrun.busy, hrun.waiting, hrun.count, rfl, fun hp => hrec hp v hv⟩,
    fun n _ => hk _ _ (.inr rfl)⟩

end Recording

/-! ### Functions -/

section Functions

theorem total_eq (hs : e.bm.series ≠ .faultReply) : e.total = e.runs + 1 := if_neg hs

theorem total_eq_of_faultReply (hs : e.bm.series = .faultReply) : e.total = e.runs + 2 := if_pos hs

theorem recorder_of_fault (hs : e.bm.series = .fault) : e.recorder = .handler := if_pos hs

theorem recorder_of_ne (hs : e.bm.series ≠ .fault) : e.recorder = .faulter := if_neg hs

/-- The faulter sends its done message, and there was nothing to record or it is recorded. -/
theorem sendDone_recorded {F : View b w → Prop} {c : ℕ} (hc : c = e.total)
    (hrec : ∀ v, F v → Recorded e v) :
    ((protocol e).spec .faulter).Triple (fun v => Running c false v ∧ F v) sendDone
      fun _ => rest .faulter :=
  hc ▸ sendDone_triple fun _ => hrec

theorem measureFaultFn_triple (hs : e.bm.series = .fault) :
    ((protocol e).spec .faulter).Triple (Running 0 false) (measureFaultFn e.toConfig)
      fun _ => rest .faulter := by
  have htotal := total_eq (e := e) (by simp [hs])
  refine (Spec.Triple.loop (fun i _ => Running i false) fun i hi _ =>
    measureFault_round hs (htotal ▸ hi)).bind fun _ => ?_
  refine (sendDone_triple (F := fun _ => True) fun h => ?_).conseq
    (fun v hv => ⟨htotal ▸ hv, trivial⟩)
    fun _ _ hv => hv
  rw [recorder_of_fault hs] at h
  exact absurd h nofun

theorem measureFaultHandlerFn_triple (hs : e.bm.series = .fault) (hearly : e.bm.early = false) :
    ((protocol e).spec .handler).Triple (Running 0 false) (measureFaultHandlerFn e.toConfig)
      fun _ => rest .handler := by
  have htotal := total_eq (e := e) (by simp [hs])
  have hrec := recorder_of_fault hs
  refine ((faultHandlerStart_triple (stable_late e 0) (by omega)).conseq
    (fun v hv => ⟨hv, late_zero⟩) fun _ _ hv => hv).bind fun ip => ?_
  refine (Spec.Triple.loop (fun i ip v => (Running (i + 1) true v ∧ Late e i v) ∧ ip = e.ip i)
    fun i hi ip => ?_).bind fun ip => ?_
  · refine measureFaultHandler_round hs (by omega) (stable_late e i) fun start stop => ?_
    exact (store_triple hs hrec.symm nofun).bind fun _ => .pure fun v hv => ⟨hv, rfl⟩
  · exact faultHandlerDone_triple (stable_late e _) htotal.symm
      fun _ v hv => hv.recorded le_rfl hearly

theorem measureFaultHandlerFnEp_triple (hs : e.bm.series = .fault) (hearly : e.bm.early = true) :
    ((protocol e).spec .handler).Triple (Running 0 false) (measureFaultHandlerFnEp e.toConfig)
      fun _ => rest .handler := by
  have htotal := total_eq (e := e) (by simp [hs])
  have hrec := recorder_of_fault hs
  refine ((load_minOverhead_triple (p := .handler) nofun (stable_early e 0 ⟨0, 0⟩)).conseq
    (fun v hv => ⟨hv, early_zero⟩) fun _ _ hv => hv).bind fun o => Spec.Triple.of_and fun ho => ?_
  subst ho
  refine (faultHandlerStart_triple (stable_early e 0 _) (by omega)).bind fun ip => ?_
  refine (Spec.Triple.loop (b := (ip, (⟨0, 0⟩ : Sums w)))
    (fun i (r : Word b × Sums w) v => (Running (i + 1) true v ∧ Early e i r.2 v) ∧ r.1 = e.ip i)
    fun i hi r => ?_).bind fun r => ?_
  · refine measureFaultHandler_round hs (by omega) (stable_early e i r.2) fun start stop =>
      .pure fun v hv => ⟨⟨hv.1.1, ?_⟩, rfl⟩
    have hadd := hv.1.2.add hv.2
    rwa [hs] at hadd
  · refine Spec.Triple.of_and fun hip => ?_
    refine (storeSums_triple hs hrec.symm nofun hearly).bind fun _ => ?_
    refine (faultHandlerDone_triple (F := Recorded e) (fun v ev hev h => h.append _ hev) htotal.symm
      fun _ v hv => hv).conseq (fun v hv => ⟨hv, hip⟩) fun _ _ hv => hv

theorem measureFaultReplyFn_triple (hs : e.bm.series = .faultReply) (hearly : e.bm.early = false) :
    ((protocol e).spec .faulter).Triple (Running 0 false) (measureFaultReplyFn e.toConfig)
      fun _ => rest .faulter := by
  have htotal := total_eq_of_faultReply hs
  have hrec := recorder_of_ne (e := e) (by simp [hs])
  refine ((fault_triple (by omega) (by simp [hs]) (stable_late e 0)).conseq
    (fun v hv => ⟨hv, late_zero⟩) fun _ _ hv => hv).bind fun _ => ?_
  refine (Spec.Triple.loop (fun i _ v => Running (i + 1) false v ∧ Late e i v)
    fun i hi _ => ?_).bind fun _ => ?_
  · exact measureReply_round hs (by omega) (stable_late e i) fun start stop =>
      store_triple hs hrec.symm fun _ => rfl
  · exact sendDone_recorded htotal.symm fun v hv => hv.recorded (Nat.le_succ _) hearly

theorem measureFaultReplyHandlerFn_triple (hs : e.bm.series = .faultReply) :
    ((protocol e).spec .handler).Triple (Running 0 false) (measureFaultReplyHandlerFn e.toConfig)
      fun _ => rest .handler := by
  have htotal := total_eq_of_faultReply hs
  have hrec := recorder_of_ne (e := e) (by simp [hs])
  refine ((faultHandlerStart_triple stable_true (by omega)).conseq
    (fun v hv => ⟨hv, trivial⟩) fun _ v hv => hv).bind fun ip => ?_
  refine (Spec.Triple.loop (fun i ip v => (Running (i + 1) true v ∧ True) ∧ ip = e.ip i)
    fun i hi ip => ?_).bind fun ip => ?_
  · exact (replyHandler_round (c := i) hs (by omega)).conseq (fun v hv => ⟨hv.1.1, hv.2⟩)
      fun _ v hv => ⟨⟨hv.1, trivial⟩, hv.2⟩
  refine faultHandlerDone_triple stable_true htotal.symm fun h => ?_
  rw [hrec] at h
  exact absurd h nofun

theorem measureFaultReplyFnEp_triple (hs : e.bm.series = .faultReply) (hearly : e.bm.early = true) :
    ((protocol e).spec .faulter).Triple (Running 0 false) (measureFaultReplyFnEp e.toConfig)
      fun _ => rest .faulter := by
  have htotal := total_eq_of_faultReply hs
  have hne : e.bm.series ≠ .fault := by simp [hs]
  have hrec := recorder_of_ne hne
  refine ((load_minOverhead_triple (p := .faulter) nofun (stable_early e 0 ⟨0, 0⟩)).conseq
    (fun v hv => ⟨hv, early_zero⟩) fun _ _ hv => hv).bind fun o => Spec.Triple.of_and fun ho => ?_
  subst ho
  refine (fault_triple (by omega) hne (stable_early e 0 _)).bind fun _ => ?_
  refine (Spec.Triple.loop (fun i acc v => Running (i + 1) false v ∧ Early e i acc v)
    fun i hi acc => ?_).bind fun acc => ?_
  · refine measureReply_round hs (by omega) (stable_early e i acc) fun start stop =>
      .pure fun v hv => ⟨hv.1.1, ?_⟩
    have hadd := hv.1.2.add hv.2
    rwa [hs] at hadd
  · refine (fault_triple (by omega) hne (stable_early e _ acc)).bind fun _ => ?_
    refine (storeSums_triple hs hrec.symm (fun _ => rfl) hearly).bind fun _ => ?_
    exact sendDone_recorded htotal.symm fun v hv => hv

theorem measureFaultRoundtripFn_triple (hs : e.bm.series = .roundTrip)
    (hearly : e.bm.early = false) :
    ((protocol e).spec .faulter).Triple (Running 0 false) (measureFaultRoundtripFn e.toConfig)
      fun _ => rest .faulter := by
  have htotal := total_eq (e := e) (by simp [hs])
  have hrec := recorder_of_ne (e := e) (by simp [hs])
  refine ((Spec.Triple.loop (fun i _ v => Running i false v ∧ Late e i v)
    fun i hi _ => ?_).conseq (fun v hv => ⟨hv, late_zero⟩) fun _ _ hv => hv).bind fun _ => ?_
  · exact measureRoundtrip_round hs (by omega) (stable_late e i) fun start stop =>
      store_triple hs hrec.symm fun _ => rfl
  · exact sendDone_recorded htotal.symm fun v hv => hv.recorded (Nat.le_succ _) hearly

theorem measureFaultRoundtripFnEp_triple (hs : e.bm.series = .roundTrip)
    (hearly : e.bm.early = true) :
    ((protocol e).spec .faulter).Triple (Running 0 false) (measureFaultRoundtripFnEp e.toConfig)
      fun _ => rest .faulter := by
  have htotal := total_eq (e := e) (by simp [hs])
  have hne : e.bm.series ≠ .fault := by simp [hs]
  have hrec := recorder_of_ne hne
  refine ((load_minOverhead_triple (p := .faulter) nofun (stable_early e 0 ⟨0, 0⟩)).conseq
    (fun v hv => ⟨hv, early_zero⟩) fun _ _ hv => hv).bind fun o => Spec.Triple.of_and fun ho => ?_
  subst ho
  refine (Spec.Triple.loop (fun i acc v => Running i false v ∧ Early e i acc v)
    fun i hi acc => ?_).bind fun acc => ?_
  · refine measureRoundtrip_round hs (by omega) (stable_early e i acc) fun start stop =>
      .pure fun v hv => ⟨hv.1.1, ?_⟩
    have hadd := hv.1.2.add hv.2
    rwa [hs] at hadd
  · refine (fault_triple (by omega) hne (stable_early e _ acc)).bind fun _ => ?_
    refine (storeSums_triple hs hrec.symm (fun _ => rfl) hearly).bind fun _ => ?_
    exact sendDone_recorded htotal.symm fun v hv => hv

theorem measureFaultRoundtripHandlerFn_triple (hs : e.bm.series = .roundTrip) :
    ((protocol e).spec .handler).Triple (Running 0 false)
      (measureFaultRoundtripHandlerFn e.toConfig) fun _ => rest .handler := by
  have htotal := total_eq (e := e) (by simp [hs])
  have hrec := recorder_of_ne (e := e) (by simp [hs])
  refine ((faultHandlerStart_triple stable_true (by omega)).conseq
    (fun v hv => ⟨hv, trivial⟩) fun _ v hv => hv).bind fun ip => ?_
  refine (Spec.Triple.loop (fun i ip v => (Running (i + 1) true v ∧ True) ∧ ip = e.ip i)
    fun i hi ip => replyRecv1_triple (by simp [hs]) (by omega) stable_true).bind fun ip => ?_
  refine faultHandlerDone_triple stable_true htotal.symm fun h => ?_
  rw [hrec] at h
  exact absurd h nofun

end Functions

/-! ### Bounds of the functions -/

section Bounds

variable {B : Budget (sig b w)} (cfg : Config b)

theorem bounded_fault (n : ℕ) : Bounded (σ := sig b w) B 2 (fault cfg n) :=
  (Bounded.call _ _).bind fun _ => .pure _

theorem bounded_load (x : Var) : Bounded (σ := sig b w) B 1 (load x) := Bounded.load _

theorem bounded_readStart : Bounded (σ := sig b w) B 2 readStart :=
  Bounded.clock.bind fun _ => .store _ _

theorem bounded_replyRecv1 (ip : Word b) : Bounded (σ := sig b w) B 2 (replyRecv1 ip) :=
  (Bounded.replyRecv _ _).bind fun _ => .pure _

theorem bounded_sendDone : Bounded (σ := sig b w) B 1 sendDone := .send _ _

theorem bounded_faultHandlerStart : Bounded (σ := sig b w) B 1 faultHandlerStart :=
  (Bounded.recv _).bind fun _ => .pure _

theorem bounded_faultHandlerDone (ip : Word b) :
    Bounded (σ := sig b w) B 3 (faultHandlerDone cfg ip) :=
  (Bounded.reply _).bind fun _ => bounded_sendDone.bind fun _ =>
    (Bounded.recv _).bind fun _ => .pure _

theorem bounded_storeSums (m : Series) (acc : Sums w) :
    Bounded (σ := sig b w) B 3 (storeSums cfg m acc) :=
  (Bounded.store _ _).bind fun _ => (Bounded.store _ _).bind fun _ => .store _ _

/-- The functions take a bounded number of steps. -/
theorem exists_bounded_functions (w : ℕ) (cfg : Config b) (f : Fn) :
    ∃ n, ∀ B : Budget (sig b w), Bounded B n (functions cfg f) := by
  cases f with
  | measureFaultFn =>
    exact ⟨_, fun B => (Bounded.loop fun i _ => bounded_readStart.bind fun _ =>
      bounded_fault cfg i).bind fun _ => bounded_sendDone⟩
  | measureFaultHandlerFn =>
    exact ⟨_, fun B => bounded_faultHandlerStart.bind fun _ => (Bounded.loop fun i ip =>
      (bounded_replyRecv1 _).bind fun _ => Bounded.clock.bind fun _ =>
      (bounded_load _).bind fun _ => (Bounded.store _ _).bind fun _ => .pure _).bind fun ip =>
      bounded_faultHandlerDone cfg ip⟩
  | measureFaultHandlerFnEp =>
    exact ⟨_, fun B => (bounded_load _).bind fun _ => bounded_faultHandlerStart.bind fun _ =>
      (Bounded.loop fun i r => (bounded_replyRecv1 _).bind fun _ => Bounded.clock.bind fun _ =>
      (bounded_load _).bind fun _ => .pure _).bind fun r =>
      (bounded_storeSums cfg _ _).bind fun _ => bounded_faultHandlerDone cfg r.1⟩
  | measureFaultReplyFn =>
    exact ⟨_, fun B => (bounded_fault cfg 0).bind fun _ => (Bounded.loop fun i _ =>
      (bounded_fault cfg (i + 1)).bind fun _ => Bounded.clock.bind fun _ =>
      (bounded_load _).bind fun _ => Bounded.store _ _).bind fun _ => bounded_sendDone⟩
  | measureFaultReplyHandlerFn =>
    exact ⟨_, fun B => bounded_faultHandlerStart.bind fun _ => (Bounded.loop fun i ip =>
      bounded_readStart.bind fun _ => bounded_replyRecv1 _).bind fun ip =>
      bounded_faultHandlerDone cfg ip⟩
  | measureFaultReplyFnEp =>
    exact ⟨_, fun B => (bounded_load _).bind fun _ => (bounded_fault cfg 0).bind fun _ =>
      (Bounded.loop fun i _ => (bounded_fault cfg (i + 1)).bind fun _ => Bounded.clock.bind fun _ =>
      (bounded_load _).bind fun _ => .pure _).bind fun _ => (bounded_fault cfg _).bind fun _ =>
      (bounded_storeSums cfg _ _).bind fun _ => bounded_sendDone⟩
  | measureFaultRoundtripFn =>
    exact ⟨_, fun B => (Bounded.loop fun i _ => Bounded.clock.bind fun _ =>
      (bounded_fault cfg i).bind fun _ => Bounded.clock.bind fun _ => Bounded.store _ _).bind
      fun _ => bounded_sendDone⟩
  | measureFaultRoundtripFnEp =>
    exact ⟨_, fun B => (bounded_load _).bind fun _ => (Bounded.loop fun i _ =>
      Bounded.clock.bind fun _ => (bounded_fault cfg i).bind fun _ => Bounded.clock.bind fun _ =>
      .pure _).bind fun _ => (bounded_fault cfg _).bind fun _ =>
      (bounded_storeSums cfg _ _).bind fun _ => bounded_sendDone⟩
  | measureFaultRoundtripHandlerFn =>
    exact ⟨_, fun B => bounded_faultHandlerStart.bind fun _ =>
      (Bounded.loop fun i ip => bounded_replyRecv1 _).bind fun ip =>
        bounded_faultHandlerDone cfg ip⟩

theorem exists_bounded_runBenchmark (B : Budget (sig b w)) (faulterFn handlerFn : Fn) :
    ∃ n, Bounded (σ := sig b w) B n (runBenchmark faulterFn handlerFn) :=
  ⟨_, (Bounded.start _ _).bind fun _ => (Bounded.start _ _).bind fun _ =>
    (bounded_benchmarkWaitChildren _ _ _).bind fun _ =>
    (bounded_benchmarkWaitChildren _ _ _).bind fun _ =>
    (Bounded.suspend _).bind fun _ => Bounded.suspend _⟩

end Bounds

/-! ### The benchmark -/

/-- The functions of a benchmark follow its protocol. -/
theorem function_safe (e : Setup b w) (hbm : e.bm ∈ runFaultBenchmark) (p : Party) (f : Fn)
    (v : View b w) (hv : atEntry e p f v) :
    ((protocol e).spec p).Safe (code e.toConfig w f) v := by
  obtain ⟨hactive, hcount, hwait, hdone, hf⟩ := hv
  have hrun : Running 0 false v := ⟨hactive, hcount, hwait, hdone⟩
  obtain ⟨cfg, mem, bm⟩ := e
  simp only [runFaultBenchmark, List.mem_cons, List.not_mem_nil, or_false] at hbm
  rcases hbm with rfl | rfl | rfl | rfl | rfl | rfl <;> rcases hf with ⟨rfl, rfl⟩ | ⟨rfl, rfl⟩
  · exact (measureFaultFn_triple rfl).safe_run hrun
  · exact (measureFaultHandlerFn_triple rfl rfl).safe_run hrun
  · exact (measureFaultFn_triple rfl).safe_run hrun
  · exact (measureFaultHandlerFnEp_triple rfl rfl).safe_run hrun
  · exact (measureFaultReplyFn_triple rfl rfl).safe_run hrun
  · exact (measureFaultReplyHandlerFn_triple rfl).safe_run hrun
  · exact (measureFaultReplyFnEp_triple rfl rfl).safe_run hrun
  · exact (measureFaultReplyHandlerFn_triple rfl).safe_run hrun
  · exact (measureFaultRoundtripFn_triple rfl rfl).safe_run hrun
  · exact (measureFaultRoundtripHandlerFn_triple rfl).safe_run hrun
  · exact (measureFaultRoundtripFnEp_triple rfl rfl).safe_run hrun
  · exact (measureFaultRoundtripHandlerFn_triple rfl).safe_run hrun

theorem inv_init (e : Setup b w) : (protocol e).Inv (init e.mem e.bm) where
  safe p := by
    cases p with
    | faulter | handler => exact .inl rfl
    | driver =>
      refine ⟨⟨rfl, rfl⟩, fun _ _ => ⟨⟨rfl, rfl⟩, fun _ _ => ⟨.inl rfl, fun x hx => ?_⟩⟩⟩
      obtain ⟨n, m⟩ := x
      cases (hx : m = .empty)
      refine ⟨.inr rfl, fun y hy => ?_⟩
      obtain ⟨n', m'⟩ := y
      cases (hy : m' = .empty)
      exact ⟨rfl, fun _ _ => ⟨rfl, fun _ _ => rfl⟩⟩
  own p := by
    refine ⟨nofun, Nat.zero_le _, rfl, ?_, fun _ => rfl, fun _ => ⟨nofun, ?_⟩, nofun⟩
    · cases p <;> rfl
    · rintro ⟨n, hn⟩
      exact absurd hn List.not_mem_nil
  rel := by
    refine ⟨⟨rfl, rfl, rfl, rfl, fun _ => ⟨rfl, rfl, rfl, rfl, rfl⟩, ?_, ?_, ?_⟩, fun _ => rfl,
      fun p hp => ?_, nofun⟩
    · exact fun (h : 1 ≤ 0) => absurd h (by decide)
    · exact fun (h : 2 ≤ 0) => absurd h (by decide)
    · exact fun (h : 2 ≤ 0) => absurd h (by decide)
    · -- No fault has been raised, so nobody may read `start`.
      unfold MayLoad at hp
      cases hs : e.bm.series <;> cases p <;> rw [hs] at hp <;>
        first | exact hp.elim | exact absurd hp nofun

section Main

variable {e : Setup b w} (hbm : e.bm ∈ runFaultBenchmark) {s : State (sig b w)}
  (hreach : Reach (code e.toConfig w) (init e.mem e.bm) s)

include hbm hreach

theorem inv_of_reach : (protocol e).Inv s :=
  Protocol.inv_of_run (sound (function_safe e hbm)) (inv_init e) hreach

theorem bothDone_iff : BothDone e s ↔ DoneSent (s.hist .faulter) ∧ DoneSent (s.hist .handler) := by
  have hinv := inv_of_reach hbm hreach
  rw [BothDone, (hinv.own .faulter).done nofun, (hinv.own .handler).done nofun,
    records_hist.view, records_hist.view]

/-- Before both done messages some step is possible. -/
theorem canStep_of_reach (hdone : ¬BothDone e s) : CanStep (code e.toConfig w) s :=
  progress (inv_of_reach hbm hreach) hdone

/-- Every run can be continued until both done messages are sent. -/
theorem exists_reach_bothDone : ∃ s', Reach (code e.toConfig w) s s' ∧ BothDone e s' := by
  choose bound hbound using exists_bounded_functions w e.toConfig
  let B : Budget (sig b w) := { label := fun f => bound f + 1 }
  have hcode : ∀ f, ∃ m < B.label f, Within B m (code e.toConfig w f) := fun f =>
    ⟨bound f, Nat.lt_succ_self _, (hbound f B).within_run⟩
  obtain ⟨n, hn⟩ := exists_bounded_runBenchmark B e.bm.faulterFn e.bm.handlerFn
  let bd : Party → ℕ := fun p => if p = .driver then n else 0
  refine exists_reach_of_within hcode (b := bd) (fun p => ?_)
    (fun s hs hgoal => canStep_of_reach hbm hs hgoal) hreach
  cases p with
  | driver => exact hn.within_run
  | faulter | handler => exact .halt 0

/-- The handler has received the faults that were raised, and replied to all of them but perhaps
the last. -/
theorem faults_replies : ∃ n k, k ≤ n ∧ n ≤ k + 1 ∧ n ≤ e.total ∧
    faults (s.hist .faulter) = (List.range n).map e.faultMsg ∧
    faults (s.hist .handler) = (List.range n).map e.faultMsg ∧
    replies (s.hist .handler) = (List.range k).map e.replyMsg ∧
    (BothDone e s → k = n ∧ n = e.total) := by
  have hinv := inv_of_reach hbm hreach
  have hfaulter := hinv.own .faulter
  have hhandler := hinv.own .handler
  have hcount : ((protocol e).view s.log .handler).count =
      ((protocol e).view s.log .faulter).count := hinv.rel.sync.count
  have hreplies := hhandler.replies
  have hfaults := hhandler.faults
  rw [if_pos rfl] at hreplies
  rw [hcount] at hreplies hfaults
  have hfaults' := hfaulter.faults
  rw [records_hist.view] at hreplies hfaults hfaults'
  refine ⟨_, _, Nat.sub_le _ _, ?_, hfaulter.le, hfaults', hfaults, hreplies, fun hdone => ?_⟩
  · split <;> omega
  · rw [if_neg (by simp [(hhandler.finished hdone.2).1]), Nat.sub_zero]
    exact ⟨rfl, (hfaulter.finished hdone.1).2.1⟩

end Main

/-- The times of sample `i` delimit one fault, one reply or one round trip. The fault of a sample
is the one after the first: that one only brings the handler into its loop. -/
def Delimits (m : Series) (faulter handler : List (Event (sig b w))) (i : ℕ)
    (start stop : Ccnt w) : Prop :=
  match m with
  | .fault => ∃ m m',
    [.did .clock start, .did (.store .start start) (), .did (.sendCall .faultEp m) (i + 1)] <:+:
      faulter ∧
    [.did (.recv .faultEp) (i + 1, m'), .did .clock stop, .did (.load .start) start] <:+: handler
  | .faultReply => ∃ m m' m'',
    [.did .clock start, .did (.store .start start) (),
      .did (.reply m) (some (.faultEp, i + 1))] <:+: handler ∧
    [.did (.sendCall .faultEp m') (i + 1), .did .awaitReply m'', .did .clock stop,
      .did (.load .start) start] <:+: faulter
  | .roundTrip => ∃ m m', [.did .clock start, .did (.sendCall .faultEp m) i, .did .awaitReply m',
    .did .clock stop] <:+: faulter

/-- The results of a benchmark in the memory: the samples, or the sums of early processing. -/
def Results (cfg : Config b) (bm : Benchmark) (before after : Var → Ccnt w) (r : Readings w) :
    Prop :=
  if bm.early then
    (⟨after (.early bm.series .sum), after (.early bm.series .sum2),
      after (.early bm.series .num)⟩ : EarlyResults w) =
      earlyRun b cfg.runs cfg.ignored r (before (.early bm.series .minOverhead))
  else ∀ i < cfg.runs, after (.sample bm.series i) = r.stop i - r.start i

section Main

variable {e : Setup b w} (hbm : e.bm ∈ runFaultBenchmark) {s : State (sig b w)}
  (hreach : Reach (code e.toConfig w) (init e.mem e.bm) s)

include hbm hreach

/-- What the recording party has measured delimits one event of both parties. -/
theorem delimits_of_measured {i : ℕ} (hi : i < e.runs) {start stop : Ccnt w}
    (h : Measured e ((protocol e).view s.log e.recorder) i start stop) :
    Delimits e.bm.series (s.hist .faulter) (s.hist .handler) i start stop := by
  have hstamps := (inv_of_reach hbm hreach).rel.stamps.loaded
  unfold Measured at h
  unfold Delimits
  cases hs : e.bm.series with
  | fault =>
    rw [hs, recorder_of_fault hs] at h
    obtain ⟨hload, m', hm'⟩ := h
    have hstamp := hstamps .handler _ hload
    simp only [Stamped, hs, records_hist.view] at hstamp hm'
    obtain ⟨m, hm⟩ := hstamp
    exact ⟨m, m', hm, hm'⟩
  | faultReply =>
    rw [hs, recorder_of_ne (by simp [hs])] at h
    obtain ⟨hload, m', m'', hm'⟩ := h
    have hstamp := hstamps .faulter _ hload
    simp only [Stamped, hs, records_hist.view] at hstamp hm'
    obtain ⟨m, hm⟩ := hstamp (by rw [total_eq_of_faultReply hs]; omega)
    exact ⟨m, m', m'', hm, hm'⟩
  | roundTrip =>
    rw [hs, recorder_of_ne (by simp [hs])] at h
    obtain ⟨m, m', hm⟩ := h
    rw [records_hist.view] at hm
    exact ⟨m, m', hm⟩

/-- When both parties are done the results are in the memory. -/
theorem results_of_bothDone (hdone : BothDone e s) : ∃ r : Readings w,
    (∀ i < e.runs, Delimits e.bm.series (s.hist .faulter) (s.hist .handler) i (r.start i)
      (r.stop i)) ∧ Results e.toConfig e.bm e.mem s.kernel.mem r := by
  have hinv := inv_of_reach hbm hreach
  have hrec : Recorded e ((protocol e).view s.log e.recorder) := by
    by_cases hs : e.bm.series = .fault
    · rw [recorder_of_fault hs]
      exact ((hinv.own .handler).finished hdone.2).2.2 (recorder_of_fault hs).symm
    · rw [recorder_of_ne hs]
      exact ((hinv.own .faulter).finished hdone.1).2.2 (recorder_of_ne hs).symm
  obtain ⟨r, hr, hstored⟩ := hrec
  refine ⟨r, fun i hi => delimits_of_measured hbm hreach hi (hr i hi), ?_⟩
  have hmem : ∀ x t, e.writer x = e.recorder →
      lastStore x ((protocol e).view s.log e.recorder).hist = some t → s.kernel.mem x = t := by
    intro x t hx hlast
    rw [hinv.rel.mem, hx, stored, hlast, Option.getD_some]
  unfold Stored at hstored
  unfold Results
  split at hstored
  · obtain ⟨hsum, hsum2, hnum⟩ := hstored
    rw [if_pos ‹_›, hmem _ _ rfl hsum, hmem _ _ rfl hsum2, hmem _ _ rfl hnum]
  · rw [if_neg ‹_›]
    exact fun i hi => hmem _ _ rfl (hstored i hi)

end Main

/-- **Matching of faulter and handler.** For each of the six pairs that `run_fault_benchmark`
starts, any number of runs and every interleaving of faulter, handler and driver: until both have
sent their done message some step is possible, and both can send it; the handler has received
exactly the faults that were raised, in order, and has replied once to each of them but perhaps the
last, with the address after the faulting instruction; and when both are done it has replied to all,
and the results are the differences of times that delimit the same fault, reply or round trip, or
their sums with early processing. -/
theorem fault_matching (cfg : Config b) (mem : Var → Ccnt w) {bm : Benchmark}
    (hbm : bm ∈ runFaultBenchmark) {s : State (sig b w)}
    (hreach : Reach (code cfg w) (init mem bm) s) :
    (¬(DoneSent (s.hist .faulter) ∧ DoneSent (s.hist .handler)) → CanStep (code cfg w) s) ∧
      (∃ s', Reach (code cfg w) s s' ∧ DoneSent (s'.hist .faulter) ∧ DoneSent (s'.hist .handler)) ∧
      (∃ n k, k ≤ n ∧ n ≤ k + 1 ∧
        faults (s.hist .faulter) = (List.range n).map (fun j => (j, .fault (cfg.ip j))) ∧
        faults (s.hist .handler) = (List.range n).map (fun j => (j, .fault (cfg.ip j))) ∧
        replies (s.hist .handler) =
          (List.range k).map (fun j => (j, .reply (cfg.ip j + cfg.udInstructionSize))) ∧
        (DoneSent (s.hist .faulter) ∧ DoneSent (s.hist .handler) → k = n)) ∧
      (DoneSent (s.hist .faulter) ∧ DoneSent (s.hist .handler) → ∃ r : Readings w,
        (∀ i < cfg.runs, Delimits bm.series (s.hist .faulter) (s.hist .handler) i (r.start i)
          (r.stop i)) ∧ Results cfg bm mem s.kernel.mem r) := by
  let e : Setup b w := { toConfig := cfg, mem := mem, bm := bm }
  have hdone : ∀ {s}, Reach (code cfg w) (init mem bm) s → (BothDone e s ↔ _) :=
    fun hs => bothDone_iff (e := e) hbm hs
  obtain ⟨s', hs', hgoal⟩ := exists_reach_bothDone (e := e) hbm hreach
  obtain ⟨n, k, hkn, hnk, -, hfaulter, hhandler, hreplies, hall⟩ :=
    faults_replies (e := e) hbm hreach
  refine ⟨fun h => canStep_of_reach (e := e) hbm hreach fun h' => h ((hdone hreach).mp h'),
    ⟨s', hs', (hdone (Relation.ReflTransGen.trans hreach hs')).mp hgoal⟩,
    ⟨n, k, hkn, hnk, hfaulter, hhandler, hreplies, fun h => (hall ((hdone hreach).mpr h)).1⟩,
    fun h => ?_⟩
  exact results_of_bothDone (e := e) hbm hreach ((hdone hreach).mpr h)

/-- The first benchmark with three runs, one of them ignored, has a run in which both parties are
done, and its samples are as stated. -/
theorem fault_matching_three : ∃ s', Reach (code ⟨3, 1, fun _ => 0x400000, 4⟩ 64)
    (init (fun _ => 0) runFaultBenchmark[0] : State (sig 64 64)) s' ∧ ∃ r : Readings 64, ∀ i < 3,
      Delimits .fault (s'.hist .faulter) (s'.hist .handler) i (r.start i) (r.stop i) ∧
      s'.kernel.mem (.sample .fault i) = r.stop i - r.start i := by
  have hbm : runFaultBenchmark[0] ∈ runFaultBenchmark := List.getElem_mem _
  obtain ⟨-, ⟨s', hs', hdone⟩, -⟩ := fault_matching (b := 64) (w := 64)
    ⟨3, 1, fun _ => 0x400000, 4⟩ (fun _ => 0) hbm .refl
  obtain ⟨-, -, -, hresults⟩ := fault_matching _ _ hbm hs'
  obtain ⟨r, hr, hres⟩ := hresults hdone
  exact ⟨s', hs', r, fun i hi => ⟨hr i hi, hres i hi⟩⟩

end Sel4bench.Fault
