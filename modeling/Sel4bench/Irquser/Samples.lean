import Sel4bench.Irquser.Rounds

/-!
# The samples of the interrupt benchmark

The threads follow the protocol of `Irquser.Protocol`, so that it holds in every run
(`Sel4bench.Irquser.inv_of_run`). What a round of the ticker has recorded are its samples and the
results that are computed from them.

## Main definitions

* `Sel4bench.Irquser.TickerAt` — the ticker between two rounds of its loop.

## Main results

* `Sel4bench.Irquser.code_safe` — the code of the parties follows the protocol.
* `Sel4bench.Irquser.inv_of_run`.
-/

namespace Sel4bench.Irquser

open Machine Trace

variable {w : ℕ} {cfg : Config} {mem : Var → Ccnt w} {v : View w} {c n : ℕ}

/-! ### Readings -/

section Readings

variable (r : Readings w) (start stop : Ccnt w)

theorem map_stop_set (n : ℕ) : (List.range (n + 1)).map (r.set n start stop).stop =
    (List.range n).map r.stop ++ [stop] := by
  rw [List.range_succ, List.map_append, List.map_singleton, r.set_stop_self]
  congr 1
  exact List.map_congr_left fun i hi => r.set_stop_of_ne start stop (List.mem_range.mp hi).ne

theorem map_start_set (n : ℕ) : (List.range (n + 1)).map (r.set n start stop).start =
    (List.range n).map r.start ++ [start] := by
  rw [List.range_succ, List.map_append, List.map_singleton, r.set_start_self]
  congr 1
  exact List.map_congr_left fun i hi => r.set_start_of_ne start stop (List.mem_range.mp hi).ne

variable (ρ : Round) {i : ℕ}

/-- The samples of the other runs are kept. -/
theorem readings_set_of_ne (hi : i ≠ c) :
    (ρ.readings cfg (r.set (ρ.first cfg + c) start stop)).stop i = (ρ.readings cfg r).stop i := by
  have hne : ρ.first cfg + i ≠ ρ.first cfg + c := by omega
  simp only [Round.readings, r.set_start_of_ne start stop hne, r.set_stop_of_ne start stop hne]

theorem readings_set_self : (ρ.readings cfg (r.set (ρ.first cfg + c) start stop)).stop c =
    wordElapsed cfg.wordBits start stop := by
  simp only [Round.readings, Readings.set_start_self, Readings.set_stop_self]

/-- A further run of a round with early processing. -/
theorem datacollectLoop_readings_set (o : Ccnt w) :
    let r' := r.set (ρ.first cfg + c) start stop
    datacollectLoop cfg.wordBits (c + 1) cfg.ignored (ρ.readings cfg r').start
        (ρ.readings cfg r').stop o =
      datacollectGetSums (BitVec.ofNat cfg.wordBits c) (BitVec.ofNat cfg.wordBits cfg.ignored)
        0 (wordElapsed cfg.wordBits start stop) o
        (datacollectLoop cfg.wordBits c cfg.ignored (ρ.readings cfg r).start
          (ρ.readings cfg r).stop o) := by
  intro r'
  rw [datacollectLoop_succ, readings_set_self]
  congr 1
  exact datacollectLoop_congr cfg.ignored o fun i hi =>
    ⟨rfl, readings_set_of_ne r start stop ρ hi.ne⟩

/-- An earlier round has taken all its samples. -/
theorem first_add_le {ρ ρ' : Round} (h : ρ'.index < ρ.index) :
    ρ'.first cfg + cfg.runs ≤ ρ.first cfg := by
  rw [Round.first, Round.first, ← Nat.succ_mul]
  exact Nat.mul_le_mul_right _ h

end Readings

/-! ### The ticker -/

section Ticker

variable {ρ : Round} {r : Readings w} {start stop : Ccnt w} {k : Kind}

/-- The ticker in a round, between two rounds of its loop. -/
structure TickerAt (ρ : Round) (v : View w) : Prop where
  at_idle : At .idle v.toProgress
  starts : v.starts = ρ.index + 1

/-- The results of the rounds before `ρ`. -/
def Earlier (cfg : Config) (ρ : Round) (r : Readings w) (h : Hist w) : Prop :=
  ∀ ρ' : Round, ρ'.index < ρ.index → Results cfg r h ρ'

theorem Earlier.append {h : Hist w} {ev : Event (sig w)} (he : Earlier cfg ρ r h)
    (hev : ∀ x ρ', roundOf x = some ρ' → ρ' ≠ ρ → storeOf (σ := sig w) x ev = none) :
    Earlier cfg ρ r (h ++ [ev]) := fun ρ' hlt =>
  (he ρ' hlt).append fun x hx => hev x ρ' hx fun heq => absurd (congrArg Round.index heq) hlt.ne

/-- A sample of the round `ρ` does not belong to an earlier one. -/
theorem Earlier.set {h : Hist w} (he : Earlier cfg ρ r h) :
    Earlier cfg ρ (r.set (ρ.first cfg + c) start stop) h := fun ρ' hlt =>
  (he ρ' hlt).congr fun i hi => by
    have hle : ρ'.first cfg + cfg.runs ≤ ρ.first cfg := first_add_le hlt
    have hne : i ≠ ρ.first cfg + c := by omega
    exact ⟨r.set_start_of_ne start stop hne, r.set_stop_of_ne start stop hne⟩

/-- The measurement of a sample, after which the ticker continues with `f`. -/
theorem ticker_round {α : Type} {f : Ccnt w → Ccnt w → Code (sig w) α} {Q : α → View w → Prop}
    {F : Hist w → Prop}
    (hF : ∀ h ev, (∀ x, storeOf (σ := sig w) x ev = none) → F h → F (h ++ [ev]))
    (hf : ∀ start stop, ((protocol cfg mem).spec .ticker).Triple
      (fun v => TickerAt ρ v ∧ Sampled (n + 1) (r.set n start stop) v.hist ∧ F v.hist)
      (f start stop) Q) :
    ((protocol cfg mem).spec .ticker).Triple
      (fun v => TickerAt ρ v ∧ Sampled n r v.hist ∧ F v.hist)
      (do
        Code.wait .timerSignal
        let stop ← Code.clock
        let start ← Code.load (σ := sig w) .currentTime
        f start stop) Q := by
  rintro k v ⟨hat, hs, hv⟩ hk
  obtain ⟨⟨hactive, hdone, hpoint⟩, hstarts⟩ := hat
  refine ⟨.wait ⟨hactive, hdone, hpoint⟩, fun a _ => ⟨.stamp ⟨hactive, hdone, rfl⟩, fun stop _ =>
    ⟨.read ⟨hactive, hdone, rfl⟩, fun start _ => hf start stop k _ ⟨?_, ?_, ?_⟩ hk⟩⟩⟩
  · exact ⟨⟨hactive, hdone, rfl⟩, hstarts⟩
  · refine ⟨?_, ?_, ?_⟩
    · rw [← hs.waits]
      simp only [protocol, step_hist, waits, List.countP_append]
      rfl
    · rw [map_stop_set, ← hs.clocks]
      simp only [protocol, step_hist, clocks, List.filterMap_append, List.append_assoc]
      rfl
    · rw [map_start_set, ← hs.loads]
      simp only [protocol, step_hist, loads, List.filterMap_append, List.append_assoc]
      rfl
  · exact hF _ _ (fun _ => rfl) (hF _ _ (fun _ => rfl) (hF _ _ (fun _ => rfl) hv))

theorem tickerStore_triple {x : Var} (hx : roundOf x = some ρ) (t : Ccnt w) (F F' : Hist w → Prop)
    (hF : ∀ h, F h → F' (h ++ [.did (.store x t) ()])) :
    ((protocol cfg mem).spec .ticker).Triple
      (fun v => TickerAt ρ v ∧ Sampled n r v.hist ∧ F v.hist)
      (Code.store (σ := sig w) x t) fun _ v => TickerAt ρ v ∧ Sampled n r v.hist ∧ F' v.hist := by
  rintro k v ⟨hat, hs, hv⟩ hk
  refine ⟨.store hat.at_idle hx hat.starts t, fun _ _ => hk _ _ ⟨⟨?_, hat.starts⟩, ?_, hF _ hv⟩⟩
  · exact ⟨hat.at_idle.active, hat.at_idle.done, hat.at_idle.point⟩
  · exact hs.append rfl rfl rfl

/-- The done message of the ticker, after which nothing is received from it. -/
theorem finish_triple : ((protocol cfg mem).spec .ticker).Triple
    (fun v => TickerAt ρ v ∧ Recorded cfg (ρ.index + 1) v.hist) finish
    fun _ v => v.active = false := by
  rintro k v ⟨hat, hrec⟩ -
  refine ⟨.send hat.at_idle ?_, fun _ _ => ⟨.returned rfl, fun _ h => h.elim⟩⟩
  rw [hat.starts]
  exact hrec

/-- The samples and the results after `c` rounds of `ticker_fn`. -/
def LateLoop (cfg : Config) (k : Kind) (c : ℕ) (v : View w) : Prop :=
  ∃ r, TickerAt (.late k) v ∧ Sampled ((Round.late k).first cfg + c) r v.hist ∧
    Earlier cfg (.late k) r v.hist ∧
    ∀ i < c, lastStore (σ := sig w) (.results k i) v.hist =
      some (((Round.late k).readings cfg r).stop i)

theorem tickerFn_round : ((protocol cfg mem).spec .ticker).Triple (LateLoop cfg k c)
    (do
      Code.wait .timerSignal
      let stop ← Code.clock
      let start ← Code.load (σ := sig w) .currentTime
      Code.store (σ := sig w) (.results k c) (wordElapsed cfg.wordBits start stop))
    fun _ => LateLoop cfg k (c + 1) := by
  refine Spec.Triple.of_exists fun r => ?_
  let F : Hist w → Prop := fun h => Earlier cfg (.late k) r h ∧
    ∀ i < c, lastStore (σ := sig w) (.results k i) h =
      some (((Round.late k).readings cfg r).stop i)
  refine ticker_round (F := F) (fun h ev hev hh => ⟨hh.1.append fun x _ _ _ => hev x,
    fun i hi => (lastStore_append (hev _) h).trans (hh.2 i hi)⟩) fun start stop => ?_
  refine (tickerStore_triple (x := .results k c) rfl (wordElapsed cfg.wordBits start stop) F
    (fun h => Earlier cfg (.late k) (r.set ((Round.late k).first cfg + c) start stop) h ∧
      ∀ i < c + 1, lastStore (σ := sig w) (.results k i) h = some (((Round.late k).readings cfg
        (r.set ((Round.late k).first cfg + c) start stop)).stop i)) fun h hh => ⟨?_, ?_⟩).conseq
    (fun _ h => h) fun _ v h => ⟨_, h⟩
  · refine hh.1.set.append fun x ρ' hx hne => storeOf_store_of_ne (σ := sig w) ?_ _ _
    rintro rfl
    exact hne (Option.some.inj hx).symm
  · intro i hi
    by_cases hic : i = c
    · subst hic
      rw [readings_set_self]
      exact lastStore_append_store_self (σ := sig w) (.results k i) _ _ _
    · rw [readings_set_of_ne r start stop _ hic]
      refine (lastStore_append_store_of_ne (σ := sig w) ?_ _ h _).trans (hh.2 i (by omega))
      exact fun heq => hic (Var.results.inj heq).2.symm

/-- The view of the ticker when a round starts. -/
def Entered (cfg : Config) (ρ : Round) (v : View w) : Prop :=
  TickerAt ρ v ∧ Recorded cfg ρ.index v.hist

theorem tickerFn_triple : ((protocol cfg mem).spec .ticker).Triple (Entered cfg (.late k))
    (tickerFn cfg k) fun _ v => v.active = false := by
  refine ((Spec.Triple.loop (fun i _ => LateLoop cfg k i) fun i hi _ => tickerFn_round).conseq
    (fun v hv => ?_) fun _ _ h => h).bind fun _ => ?_
  · obtain ⟨hat, r, hs, hres⟩ := hv
    exact ⟨r, hat, hs, hres, nofun⟩
  · refine (finish_triple (ρ := .late k)).conseq (fun v hv => ?_) fun _ _ h => h
    obtain ⟨r, hat, hs, hearlier, hres⟩ := hv
    refine ⟨hat, r, ?_, fun ρ hρ => ?_⟩
    · rw [Nat.succ_mul]
      exact hs
    · rcases (Nat.lt_succ_iff.mp hρ).lt_or_eq with hlt | heq
      · exact hearlier ρ hlt
      · rw [Round.index_injective heq]
        exact hres

/-- The samples and the sums after `c` rounds of `ticker_fn_ep`. -/
def EarlyLoop (cfg : Config) (k : Kind) (o : Ccnt w) (c : ℕ) (acc : Sums w) (v : View w) : Prop :=
  ∃ r, TickerAt (.early k) v ∧ Sampled ((Round.early k).first cfg + c) r v.hist ∧
    (Earlier cfg (.early k) r v.hist ∧ o ∈ overheads v.hist) ∧
    acc = datacollectLoop cfg.wordBits c cfg.ignored ((Round.early k).readings cfg r).start
      ((Round.early k).readings cfg r).stop o

theorem mem_overheads_append {h : Hist w} {o : Ccnt w} (ho : o ∈ overheads h)
    (ev : Event (sig w)) : o ∈ overheads (h ++ [ev]) := by
  rw [overheads, filterMap_concat]
  exact List.mem_append_left _ ho

theorem tickerFnEp_round (o : Ccnt w) (acc : Sums w) :
    ((protocol cfg mem).spec .ticker).Triple (EarlyLoop cfg k o c acc)
      (do
        Code.wait .timerSignal
        let stop ← Code.clock
        let start ← Code.load (σ := sig w) .currentTime
        return datacollectGetSums (BitVec.ofNat cfg.wordBits c)
          (BitVec.ofNat cfg.wordBits cfg.ignored) 0 (wordElapsed cfg.wordBits start stop) o acc)
      (EarlyLoop cfg k o (c + 1)) := by
  refine Spec.Triple.of_exists fun r => ?_
  let F : Hist w → Prop := fun h => (Earlier cfg (.early k) r h ∧ o ∈ overheads h) ∧
    acc = datacollectLoop cfg.wordBits c cfg.ignored ((Round.early k).readings cfg r).start
      ((Round.early k).readings cfg r).stop o
  refine ticker_round (F := F) (fun h ev hev hh => ⟨⟨hh.1.1.append fun x _ _ _ => hev x,
    mem_overheads_append hh.1.2 ev⟩, hh.2⟩) fun start stop => Spec.Triple.pure fun v hv => ?_
  obtain ⟨hat, hs, ⟨hearlier, ho⟩, hacc⟩ := hv
  refine ⟨_, hat, hs, ⟨hearlier.set, ho⟩, ?_⟩
  rw [datacollectLoop_readings_set, hacc]

theorem tickerFnEp_triple (o : Ccnt w) : ((protocol cfg mem).spec .ticker).Triple
    (fun v => Entered cfg (.early k) v ∧ o ∈ overheads v.hist) (tickerFnEp cfg k o)
    fun _ v => v.active = false := by
  refine ((Spec.Triple.loop (EarlyLoop cfg k o) fun i hi acc =>
    tickerFnEp_round o acc).conseq (fun v hv => ?_) fun _ _ h => h).bind fun acc => ?_
  · obtain ⟨⟨hat, r, hs, hres⟩, ho⟩ := hv
    exact ⟨r, hat, hs, ⟨hres, ho⟩, rfl⟩
  refine Spec.Triple.of_exists fun r => ?_
  let res := earlyRun cfg.wordBits cfg.runs cfg.ignored ((Round.early k).readings cfg r) o
  -- What has been stored after each of the three results.
  let F₁ : Hist w → Prop := fun h => (Earlier cfg (.early k) r h ∧ o ∈ overheads h) ∧
    acc = datacollectLoop cfg.wordBits cfg.runs cfg.ignored ((Round.early k).readings cfg r).start
      ((Round.early k).readings cfg r).stop o
  let F₂ : Hist w → Prop := fun h => F₁ h ∧ lastStore (σ := sig w) (.epSum k) h = some res.sum
  let F₃ : Hist w → Prop := fun h => F₂ h ∧ lastStore (σ := sig w) (.epSum2 k) h = some res.sum2
  let F₄ : Hist w → Prop := fun h => F₃ h ∧ lastStore (σ := sig w) (.epNum k) h = some res.num
  have hF₁ : ∀ {x : Var} {t : Ccnt w} {h : Hist w}, roundOf x = some (.early k) → F₁ h →
      F₁ (h ++ [.did (.store x t) ()]) := by
    rintro x t h hx ⟨⟨hearlier, ho⟩, hacc⟩
    refine ⟨⟨hearlier.append fun y ρ' hy hne => storeOf_store_of_ne (σ := sig w) ?_ _ _,
      mem_overheads_append ho _⟩, hacc⟩
    rintro rfl
    exact hne (Option.some.inj (hy.symm.trans hx))
  refine (tickerStore_triple (x := .epSum k) rfl acc.sum F₁ F₂ fun h hh => ⟨hF₁ rfl hh, ?_⟩).bind
    fun _ => (tickerStore_triple (x := .epSum2 k) rfl acc.sum2 F₂ F₃
      fun h hh => ⟨⟨hF₁ rfl hh.1, ?_⟩, ?_⟩).bind fun _ => (tickerStore_triple (x := .epNum k) rfl
      (BitVec.ofInt w ((cfg.runs : ℤ) - cfg.ignored)) F₃ F₄
      fun h hh => ⟨⟨⟨hF₁ rfl hh.1.1, ?_⟩, ?_⟩, ?_⟩).bind fun _ =>
      (finish_triple (ρ := .early k)).conseq (fun v hv => ?_) fun _ _ h => h
  · rw [hh.2]
    exact lastStore_append_store_self (σ := sig w) (.epSum k) _ _ _
  · exact (lastStore_append (σ := sig w) (x := .epSum k) rfl _).trans hh.2
  · rw [hh.1.2]
    exact lastStore_append_store_self (σ := sig w) (.epSum2 k) _ _ _
  · exact (lastStore_append (σ := sig w) (x := .epSum k) rfl _).trans hh.1.2
  · exact (lastStore_append (σ := sig w) (x := .epSum2 k) rfl _).trans hh.2
  · exact lastStore_append_store_self (σ := sig w) (.epNum k) _ _ _
  · obtain ⟨hat, hs, ⟨⟨⟨⟨hearlier, ho⟩, -⟩, hsum⟩, hsum2⟩, hnum⟩ := hv
    refine ⟨hat, r, ?_, fun ρ hρ => ?_⟩
    · rw [Nat.succ_mul]
      exact hs
    · rcases (Nat.lt_succ_iff.mp hρ).lt_or_eq with hlt | heq
      · exact hearlier ρ hlt
      · rw [Round.index_injective heq]
        exact ⟨o, ho, hsum, hsum2, hnum⟩

end Ticker

/-! ### The spinner and the timer -/

theorem spinnerFn_triple (k : Kind) : ((protocol cfg mem).spec k.spinner).Triple (fun _ => True)
    spinnerFn fun _ _ => True := by
  rintro g v - -
  refine ⟨.spin, fun t _ => ⟨.publish ?_, fun _ _ => .spinner⟩⟩
  change (clocks (v.hist ++ [.did .clock t])).getLast? = some t
  rw [clocks, filterMap_concat]
  exact List.getLast?_concat

theorem timer_triple : ((protocol cfg mem).spec .timer).Triple (fun _ => True) timer
    fun _ _ => False := by
  rintro g v - -
  exact ⟨.tick, fun _ _ => .timer⟩

/-! ### Main -/

section Main

variable {r : Readings w} {ρ : Round}

/-- `main` before its first round. -/
def Prologue (F : Hist w → Prop) (v : View w) : Prop := v.round = 0 ∧ v.stage = 0 ∧ F v.hist

/-- The first `c` overheads have been measured and stored. -/
def OverheadLoop (c : ℕ) (r : Readings w) (h : Hist w) : Prop :=
  clocks h = (List.range c).flatMap (fun i => [r.start i, r.stop i]) ∧
    ∀ i < c, lastStore (σ := sig w) (.overheads i) h = some (r.stop i - r.start i)

theorem flatMap_set (start stop : Ccnt w) : (List.range (c + 1)).flatMap (fun i =>
    [(r.set c start stop).start i, (r.set c start stop).stop i]) =
      (List.range c).flatMap (fun i => [r.start i, r.stop i]) ++ [start, stop] := by
  rw [List.range_succ, List.flatMap_append, List.flatMap_singleton, r.set_start_self,
    r.set_stop_self]
  congr 1
  refine List.flatMap_congr fun i hi => ?_
  have hne := (List.mem_range.mp hi).ne
  rw [r.set_start_of_ne start stop hne, r.set_stop_of_ne start stop hne]

theorem measureOverhead_round :
    ((protocol cfg mem).spec .main).Triple (Prologue fun h => ∃ r, OverheadLoop c r h)
      (do
        let start ← Code.clock
        let stop ← Code.clock
        Code.store (σ := sig w) (.overheads c) (stop - start : Ccnt w))
      fun _ => Prologue fun h => ∃ r, OverheadLoop (c + 1) r h := by
  rintro k v ⟨hr, hd, r, hl, hs⟩ hk
  refine ⟨.mainClock hr hd, fun start _ => ⟨.mainClock hr hd, fun stop _ =>
    ⟨.mainStore (x := .overheads c) (by exact hr) (by exact hd) rfl _, fun _ _ =>
      hk _ _ ⟨hr, hd, r.set c start stop, ?_, fun i hi => ?_⟩⟩⟩⟩
  · rw [flatMap_set, ← hl]
    simp only [protocol, step_hist, clocks, List.filterMap_append, List.append_assoc]
    rfl
  · by_cases hic : i = c
    · subst hic
      rw [r.set_start_self, r.set_stop_self]
      exact lastStore_append_store_self (σ := sig w) (.overheads i) _ _ _
    · rw [r.set_start_of_ne _ _ hic, r.set_stop_of_ne _ _ hic]
      refine (lastStore_append_store_of_ne (σ := sig w)
        (fun h => hic (Var.overheads.inj h).symm) _ _ _).trans ?_
      exact (lastStore_append (σ := sig w) rfl _).trans ((lastStore_append (σ := sig w) rfl _).trans
        (hs i (by omega)))

theorem measureOverhead_triple : ((protocol cfg mem).spec .main).Triple (fun v => v = {})
    (measureOverhead cfg) fun _ => Prologue fun h => ∃ r, OverheadLoop cfg.runs r h := by
  refine (Spec.Triple.loop (fun i _ => Prologue fun h => ∃ r, OverheadLoop i r h) fun i _ _ =>
    measureOverhead_round).conseq (fun v hv => ?_) fun _ _ h => h
  subst hv
  exact ⟨rfl, rfl, ⟨fun _ => 0, fun _ => 0⟩, rfl, nofun⟩

/-- What `main` reads in the row of the overheads is what it has stored there. -/
theorem minOverhead_triple : ((protocol cfg mem).spec .main).Triple
    (Prologue fun h => OverheadLoop cfg.runs r h) (minOverhead cfg)
    fun o => Prologue fun h => OverheadLoop cfg.runs r h ∧
      o = getMinOverhead (fun i => r.stop i - r.start i) cfg.runs := by
  refine ((Spec.Triple.loop (fun i (overheads : ℕ → Ccnt w) => Prologue fun h =>
    OverheadLoop cfg.runs r h ∧ ∀ j < i, overheads j = r.stop j - r.start j)
    fun i hi overheads => ?_).conseq (fun v hv => ?_) fun _ _ h => h).bind fun overheads => ?_
  · rintro k v ⟨hr, hd, ⟨hl, hs⟩, ho⟩ hk
    refine ⟨.mainLoad hd rfl, fun x hx => hk _ _ ⟨hr, hd, ⟨?_, fun j hj => ?_⟩, fun j hj => ?_⟩⟩
    · exact (filterMap_concat _ _ _).trans ((List.append_nil _).trans hl)
    · exact (lastStore_append (σ := sig w) rfl _).trans (hs j hj)
    · by_cases hji : j = i
      · subst hji
        rw [Function.update_self]
        exact hx rfl _ (hs j hi)
      · rw [Function.update_of_ne hji]
        exact ho j (by omega)
  · obtain ⟨hr, hd, hv⟩ := hv
    exact ⟨hr, hd, hv, fun _ => nofun⟩
  · refine Spec.Triple.pure fun v hv => ?_
    obtain ⟨hr, hd, hv, ho⟩ := hv
    exact ⟨hr, hd, hv, getMinOverhead_congr ho⟩

/-- `main` is at this stage of this round. -/
structure MainAt (cfg : Config) (round stage : ℕ) (v : View w) : Prop where
  round : v.round = round
  stage : v.stage = stage
  measured : Measured cfg v.hist

/-- A round of `main`, the ticker of which gets the overhead that has been stored. -/
theorem runRound_triple (o : Ccnt w) : ((protocol cfg mem).spec .main).Triple
    (fun v => MainAt cfg ρ.index 0 v ∧ ∃ m,
      lastStore (σ := sig w) .overheadMin v.hist = some m ∧ o = wordArg cfg.wordBits m)
    (runRound (ρ.ticker o) ρ.kind) fun _ => MainAt cfg ρ.index 3 := by
  rintro k v ⟨⟨hr, hd, hm⟩, m, hmin, ho⟩ hk
  refine ⟨.startTicker hr hd hm hmin ho, fun _ _ => ⟨.startSpinner hr (congrArg (· + 1) hd),
    fun _ _ => ⟨.recv (congrArg (· + 2) hd), fun x hx => ?_⟩⟩⟩
  obtain ⟨n, x⟩ := x
  cases (hx : x = .empty)
  refine hk _ _ ⟨hr, congrArg (· + 3) hd, ?_⟩
  exact ((hm.append rfl fun _ => rfl).append rfl fun _ => rfl).append rfl fun _ => rfl

theorem stopRound_triple (hlt : ρ.index < 3) : ((protocol cfg mem).spec .main).Triple
    (MainAt cfg ρ.index 3) (stopRound ρ.kind) fun _ => MainAt cfg (ρ.index + 1) 0 := by
  rintro k v ⟨hr, hd, hm⟩ hk
  have hadv : ∀ a, (step .main v (.did (.suspend ρ.kind.spinner) a)).toProgress =
      { v.toProgress with stage := 4 } := fun a => by
    simp only [step_progress, advance, hd]
    rfl
  refine ⟨.stopSpinner hr (hr.trans_lt hlt) hd, fun a _ => ⟨.stopTicker ?_ ?_, fun a' _ =>
    hk _ _ ?_⟩⟩
  · exact (congrArg Progress.round (hadv a)).trans_lt (hr.trans_lt hlt)
  · exact congrArg Progress.stage (hadv a)
  · have hadv' : (step .main (step .main v (.did (.suspend ρ.kind.spinner) a))
        (.did (.suspend .ticker) a')).toProgress =
        { v.toProgress with round := v.round + 1, stage := 0 } := by
      rw [step_progress, hadv a]
      rfl
    refine ⟨(congrArg Progress.round hadv').trans (congrArg (· + 1) hr),
      congrArg Progress.stage hadv', ?_⟩
    exact (hm.append rfl fun _ => rfl).append rfl fun _ => rfl

theorem lateRound_triple (k : Kind) : ((protocol cfg mem).spec .main).Triple
    (MainAt cfg (Round.late k).index 0) (runRound (.tickerFn k) k)
    fun _ => MainAt cfg (Round.late k).index 3 := by
  rintro g v hv
  obtain ⟨r, -, -, hmin⟩ := hv.measured
  exact runRound_triple (ρ := .late k) _ g v ⟨hv, _, hmin, rfl⟩

theorem runRoundEp_triple (k : Kind) : ((protocol cfg mem).spec .main).Triple
    (MainAt cfg (Round.early k).index 0) (runRoundEp cfg k)
    fun _ => MainAt cfg (Round.early k).index 3 := by
  rintro g v hv hk
  obtain ⟨r, -, -, hmin⟩ := hv.measured
  refine ⟨.mainLoad hv.stage rfl, fun m hm => ?_⟩
  refine runRound_triple (ρ := .early k) _ g _ ⟨⟨hv.round, hv.stage, ?_⟩, m, ?_, rfl⟩ hk
  · exact hv.measured.append rfl fun _ => rfl
  · rw [hm rfl _ hmin]
    exact (lastStore_append (σ := sig w) rfl _).trans hmin

theorem benchmark_triple : ((protocol cfg mem).spec .main).Triple (MainAt cfg 0 0)
    (benchmark cfg) fun _ v => v.round = 3 ∧ v.stage = 3 := by
  refine (lateRound_triple .thread).bind fun _ =>
    (stopRound_triple (ρ := .late .thread) (by decide)).bind fun _ =>
    (runRoundEp_triple .thread).bind fun _ =>
    (stopRound_triple (ρ := .early .thread) (by decide)).bind fun _ =>
    (lateRound_triple .process).bind fun _ =>
    (stopRound_triple (ρ := .late .process) (by decide)).bind fun _ =>
    (runRoundEp_triple .process).conseq (fun _ h => h) fun _ v h => ⟨h.round, h.stage⟩

theorem main_triple : ((protocol cfg mem).spec .main).Triple (fun v => v = {}) (main cfg)
    fun _ v => v.round = 3 ∧ v.stage = 3 := by
  refine measureOverhead_triple.bind fun _ => ?_
  refine Spec.Triple.bind (Q := fun o => Prologue fun h => ∃ r, OverheadLoop cfg.runs r h ∧
    o = getMinOverhead (fun i => r.stop i - r.start i) cfg.runs) ?_ fun o => ?_
  · rintro k v ⟨hr, hd, r, hv⟩ hk
    exact minOverhead_triple k v ⟨hr, hd, hv⟩ fun o v' hv' =>
      hk o v' ⟨hv'.1, hv'.2.1, r, hv'.2.2⟩
  · rintro k v ⟨hr, hd, r, ⟨hl, hs⟩, ho⟩ hk
    refine ⟨.mainStore hr hd rfl o, fun _ _ => benchmark_triple k _ ⟨hr, hd, r, ?_, fun i hi => ?_,
      ?_⟩ hk⟩
    · exact (filterMap_concat _ _ _).trans ((List.append_nil _).trans hl)
    · exact (lastStore_append (σ := sig w) rfl _).trans (hs i hi)
    · rw [← ho]
      exact lastStore_append_store_self (σ := sig w) .overheadMin _ _ _

end Main

/-! ### Runs -/

/-- The code of the parties follows the protocol. -/
theorem code_safe (cfg : Config) (mem : Var → Ccnt w) (p : Party) (ℓ : Entry w) (v : View w)
    (hv : AtEntry cfg p ℓ v) : ((protocol cfg mem).spec p).Safe (code cfg ℓ) v := by
  cases hv with
  | @spinner k =>
    refine ((spinnerFn_triple k).conseq (fun _ h => h) fun _ v _ => ?_).safe_run trivial
    cases k <;> trivial
  | timer =>
    exact timer_triple.safe_run trivial
  | @ticker ρ o _ hat hs hrec ho =>
    cases ρ with
    | late k => exact tickerFn_triple.safe_run ⟨⟨hat, hs⟩, hrec⟩
    | early k => exact (tickerFnEp_triple o).safe_run ⟨⟨⟨hat, hs⟩, hrec⟩, ho k rfl⟩

theorem inv_init (cfg : Config) (mem : Var → Ccnt w) : (protocol cfg mem).Inv (init cfg mem) where
  safe p := by
    cases p with
    | main => exact main_triple.safe_run rfl
    | ticker => exact (rfl : (false : Bool) = false)
    | spinner | spinnerProcess => trivial
    | timer => exact .timer
  own p := by
    cases p with
    | main =>
      refine ⟨fun hopen => ?_, Nat.zero_le _, Nat.zero_le _, fun _ => Nat.zero_le _⟩
      rcases hopen with h | h <;> exact absurd h (Nat.lt_irrefl 0)
    | ticker => exact ⟨fun _ => ⟨rfl, recorded_nil cfg⟩, nofun⟩
    | spinner | spinnerProcess | timer => trivial
  rel :=
    { sync := ⟨rfl, fun _ => ⟨rfl, .inr rfl⟩, by rintro (h | h) <;> exact absurd h nofun, nofun⟩
      data := ⟨fun _ _ => rfl, le_rfl, fun _ => nofun⟩ }

theorem inv_of_run {ok : State (sig w) → List Party → Prop} {s : State (sig w)}
    (hrun : Run (code cfg) ok (init cfg mem) s) : (protocol cfg mem).Inv s :=
  Protocol.inv_of_run (sound (code_safe cfg mem) ok) (inv_init cfg mem) hrun

end Sel4bench.Irquser
