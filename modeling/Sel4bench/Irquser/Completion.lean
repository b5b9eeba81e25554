import Sel4bench.Irquser.Latency
import Sel4bench.Lib.Termination

/-!
# The end of the interrupt benchmark

The spinner and the timer never end, and the ticker cannot go on without interrupts. Still `main`
can always end: while it waits for the ticker, the timer can raise the interrupt that the ticker
waits for, and the spinner cannot keep the ticker from running.

## Main results

* `Sel4bench.Irquser.exists_run_recv` — the ticker can send its done message.
* `Sel4bench.Irquser.exists_run_halt` — every run can be continued until `main` has ended.
* `Sel4bench.Irquser.interrupt_latencies` — the results of the four rounds.
-/

namespace Sel4bench.Irquser

open Machine Trace
open Support (Msg)

variable {w : ℕ} {cfg : Config} {mem : Var → Ccnt w}

/-! ### The steps of the ticker -/

section Bounds

variable {B : Budget (sig w)}

theorem bounded_finish : Bounded (σ := sig w) B 3 finish :=
  (Bounded.send _ _).bind fun _ => Bounded.bind (n := 0) (.call _ _) fun _ => .pure _

/-- The steps of the ticker in a round. -/
def budget (cfg : Config) : ℕ := cfg.runs * 4 + 6

/-- A round of the ticker has a bounded number of steps. -/
theorem within_ticker (cfg : Config) (ρ : Round) (o : Ccnt w) :
    Within B (budget cfg) (code cfg (ρ.ticker o)) := by
  unfold budget
  cases ρ with
  | late k =>
    have hfn : Bounded (σ := sig w) B _ (tickerFn cfg k) := (Bounded.loop fun _ _ =>
      (Bounded.wait _).bind fun _ => Bounded.clock.bind fun _ =>
      (Bounded.load (σ := sig w) .currentTime).bind fun _ => Bounded.store _ _).bind
      fun _ => bounded_finish
    exact hfn.within_run.mono (by omega)
  | early k =>
    have hfn : Bounded (σ := sig w) B _ (tickerFnEp cfg k o) := (Bounded.loop fun _ _ =>
      (Bounded.wait _).bind fun _ => Bounded.clock.bind fun _ =>
      (Bounded.load (σ := sig w) .currentTime).bind fun _ => .pure _).bind fun _ =>
      (Bounded.store _ _).bind fun _ => (Bounded.store _ _).bind fun _ =>
      (Bounded.store _ _).bind fun _ => bounded_finish
    exact hfn.within_run.mono (by omega)

end Bounds

/-- What the code at a label costs. -/
def paid (cfg : Config) : Budget (sig w) where
  label _ := budget cfg + 1

section Runs

variable {s : State (sig w)}

theorem exists_round_of_jump (hinv : (protocol cfg mem).Inv s) {ℓ : Entry w}
    (hticker : s.thread .ticker = .jump ℓ) : ∃ (ρ : Round) (o : Ccnt w), ℓ = ρ.ticker o := by
  have hsafe := hinv.safe .ticker
  rw [hticker] at hsafe
  change AtEntry cfg .ticker ℓ _ at hsafe
  generalize hp : Party.ticker = p at hsafe
  cases hsafe with
  | spinner => exact absurd hp.symm (Kind.spinner_ne_ticker _)
  | timer => exact absurd hp nofun
  | @ticker ρ o => exact ⟨ρ, o, rfl⟩

/-- In every run the rest of the ticker is bounded. -/
theorem exists_within_ticker (hrun : Run (code cfg) (Scheduled cfg) (init cfg mem) s) :
    ∃ n, Within (paid cfg) n (s.thread .ticker) := by
  induction hrun with
  | refl => exact ⟨0, .halt 0⟩
  | tail hrun hstep ih =>
    obtain ⟨n, hn⟩ := ih
    obtain ⟨ps, -, hstep⟩ := hstep
    refine hstep.exists_within_thread hn fun ℓ hℓ => ?_
    obtain ⟨ρ, o, rfl⟩ := exists_round_of_jump (inv_of_run hrun) hℓ
    exact ⟨_, within_ticker cfg ρ o⟩

/-! ### What a request tells -/

section Guar

variable {p : Party} {v : View w}

theorem Guar.stage_of_recv {c : Endpoint} (h : Guar cfg p v (.recv c)) : v.stage = 2 := by
  cases h with
  | recv hd => exact hd

theorem Guar.eq_ticker_of_send {c : Endpoint} {m : Msg} (h : Guar cfg p v (.send c m)) :
    p = .ticker := by
  cases h with
  | send => rfl

theorem Guar.done_of_sendCall {c : Endpoint} {m : Msg} (h : Guar cfg p v (.sendCall c m)) :
    p = .ticker ∧ v.done = true := by
  cases h with
  | returned hd => exact ⟨rfl, hd⟩

/-- The timer does nothing but raise interrupts. -/
theorem Guar.eq_signal {r : Req (sig w)} (h : Guar cfg .timer v r) :
    r = .signal .timerSignal := by
  generalize hp : Party.timer = p at h
  cases h with
  | tick => rfl
  | spin | publish => exact absurd hp.symm (Kind.spinner_ne_timer _)
  | _ => exact absurd hp nofun

theorem AtEntry.eq_timer {ℓ : Entry w} (h : AtEntry cfg .timer ℓ v) : ℓ = .timer := by
  generalize hp : Party.timer = p at h
  cases h with
  | timer => rfl
  | spinner => exact absurd hp.symm (Kind.spinner_ne_timer _)
  | ticker => exact absurd hp nofun

/-- `main` has no loop but counting loops. -/
theorem AtEntry.not_main {ℓ : Entry w} : ¬AtEntry cfg .main ℓ v := by
  intro h
  generalize hp : Party.main = p at h
  cases h with
  | spinner => exact absurd hp.symm (Kind.spinner_ne_main _)
  | timer | ticker => exact absurd hp nofun

end Guar

/-! ### While `main` waits -/

/-- A step in which `main` takes part is always allowed. -/
theorem scheduled_of_main {ps : List Party} (h : .main ∈ ps) : Scheduled cfg s ps := by
  refine .inr fun q hq => absurd (hq _ h) ?_
  cases q <;> simp only [prio] <;> omega

/-- The ticker may take a step while `main` is blocked. -/
theorem scheduled_ticker (h : Blocked (code cfg) s .main) : Scheduled cfg s [.ticker] := by
  refine .inr fun q hq => ?_
  have hlt := hq _ (List.mem_singleton_self _)
  cases q with
  | main => exact h
  | ticker | spinner | spinnerProcess | timer => simp only [prio] at hlt; omega

/-- `main` waits for a message, and the ticker has not sent it yet. -/
structure Waiting (cfg : Config) (mem : Var → Ccnt w) (k : ℕ × Msg → Prog (sig w))
    (s : State (sig w)) : Prop where
  run : Run (code cfg) (Scheduled cfg) (init cfg mem) s
  main : s.thread .main = .op (.recv .ep) k

section Waiting

variable {k : ℕ × Msg → Prog (sig w)}

theorem Waiting.inv (h : Waiting cfg mem k s) : (protocol cfg mem).Inv s := inv_of_run h.run

/-- While `main` waits, the ticker is at work. -/
theorem Waiting.running (h : Waiting cfg mem k s) :
    ((protocol cfg mem).view s.log .ticker).active = true ∧
      ((protocol cfg mem).view s.log .ticker).done = false :=
  h.inv.rel.sync.running (.inr (Guar.stage_of_recv (h.inv.guar h.main)))

/-- Nobody but the ticker sends to `main`. -/
theorem Waiting.blocked (h : Waiting cfg mem k s)
    (hsend : ∀ m k', s.thread .ticker ≠ .op (.send .ep m) k') : Blocked (code cfg) s .main := by
  refine blocked_of_recv h.main (fun q m k' hq => ?_) fun q m k' hq => ?_
  · obtain rfl := Guar.eq_ticker_of_send (h.inv.guar hq)
    exact hsend m k' hq
  · obtain ⟨rfl, hd⟩ := Guar.done_of_sendCall (h.inv.guar hq)
    exact absurd (h.running.2.symm.trans hd) nofun

theorem Waiting.step (h : Waiting cfg mem k s) {ps : List Party} {s' : State (sig w)}
    (hok : Scheduled cfg s ps) (hstep : Step (code cfg) s ps s')
    (hmain : s'.thread .main = s.thread .main) : Waiting cfg mem k s' where
  run := h.run.tail ⟨ps, hok, hstep⟩
  main := hmain.trans h.main

theorem Waiting.act (h : Waiting cfg mem k s) {r : Req (sig w)} {k' : r.Resp → Prog (sig w)}
    {a : r.Resp} {κ : Kernel (sig w)} (hticker : s.thread .ticker = .op r k')
    (heff : Effect s .ticker r a κ) : ∃ s', Run (code cfg) (Scheduled cfg) s s' ∧
      Waiting cfg mem k s' ∧ s'.thread .ticker = k' a := by
  have hok : Scheduled cfg s [.ticker] := by
    refine scheduled_ticker (h.blocked fun m k'' hsend => ?_)
    cases hticker.symm.trans hsend
    cases heff
  have hstep : Step (code cfg) s [.ticker] _ := .act hticker heff
  exact ⟨_, .single ⟨_, hok, hstep⟩, h.step hok hstep rfl, rfl⟩

theorem Waiting.jump (h : Waiting cfg mem k s) {ℓ : Entry w}
    (hticker : s.thread .ticker = .jump ℓ) : ∃ s', Run (code cfg) (Scheduled cfg) s s' ∧
      Waiting cfg mem k s' ∧ s'.thread .ticker = code cfg ℓ := by
  have hok : Scheduled cfg s [.ticker] :=
    scheduled_ticker (h.blocked fun m k' hsend => absurd (hticker.symm.trans hsend) nofun)
  have hstep : Step (code cfg) s [.ticker] _ := .jump hticker
  exact ⟨_, .single ⟨_, hok, hstep⟩, h.step hok hstep rfl, rfl⟩

/-- The timer raises the interrupt that the ticker waits for. -/
theorem Waiting.interrupt (h : Waiting cfg mem k s) : ∃ s', Run (code cfg) (Scheduled cfg) s s' ∧
    Waiting cfg mem k s' ∧ s'.thread .ticker = s.thread .ticker ∧
      s'.kernel.pending .timerSignal = true := by
  have hsignal : ∀ {s : State (sig w)} {k' : Bool → Prog (sig w)}, Waiting cfg mem k s →
      s.thread .timer = .op (.signal .timerSignal) k' →
      ∃ s', Run (code cfg) (Scheduled cfg) s s' ∧ Waiting cfg mem k s' ∧
        s'.thread .ticker = s.thread .ticker ∧ s'.kernel.pending .timerSignal = true := by
    intro s k' h htimer
    have hstep : Step (code cfg) s [.timer] _ :=
      .act (a := s.kernel.pending .timerSignal) htimer (.signal _)
    exact ⟨_, .single ⟨_, .inl rfl, hstep⟩, h.step (.inl rfl) hstep rfl, rfl, rfl⟩
  cases htimer : s.thread .timer with
  | halt =>
    have hsafe := h.inv.safe .timer
    rw [htimer] at hsafe
    exact hsafe.elim
  | op r k' =>
    obtain rfl := Guar.eq_signal (h.inv.guar htimer)
    exact hsignal h htimer
  | jump ℓ =>
    have hsafe := h.inv.safe .timer
    rw [htimer] at hsafe
    obtain rfl := AtEntry.eq_timer hsafe
    have hstep : Step (code cfg) s [.timer] _ := .jump htimer
    obtain ⟨s', hs', h', hticker, hset⟩ := hsignal (h.step (.inl rfl) hstep rfl) rfl
    exact ⟨s', .head ⟨_, .inl rfl, hstep⟩ hs', h', hticker, hset⟩

/-- While `main` waits, the ticker can send its done message. -/
theorem exists_run_recv (h : Waiting cfg mem k s) : ∃ s', Run (code cfg) (Scheduled cfg) s s' ∧
    ∃ a, s'.thread .main = k a := by
  obtain ⟨n, hn⟩ := exists_within_ticker h.run
  -- Induction on the steps that are left to the ticker.
  induction n using Nat.strong_induction_on generalizing s with
  | _ n ih =>
    have hnext : ∀ {s' : State (sig w)} {m : ℕ}, Run (code cfg) (Scheduled cfg) s s' →
        Waiting cfg mem k s' → m < n → Within (paid cfg) m (s'.thread .ticker) →
        ∃ s', Run (code cfg) (Scheduled cfg) s s' ∧ ∃ a, s'.thread .main = k a := by
      intro s' m hs' h' hm hwithin
      obtain ⟨s'', hs'', hmain⟩ := ih m hm h' hwithin
      exact ⟨s'', hs'.trans hs'', hmain⟩
    cases hticker : s.thread .ticker with
    | halt =>
      have hsafe := h.inv.safe .ticker
      rw [hticker] at hsafe
      exact absurd (h.running.1.symm.trans hsafe) nofun
    | jump ℓ =>
      obtain ⟨ρ, o, rfl⟩ := exists_round_of_jump h.inv hticker
      obtain ⟨s', hs', h', hcode⟩ := h.jump hticker
      rw [hticker] at hn
      cases hn with
      | jump hle =>
        exact hnext hs' h' hle (hcode ▸ within_ticker cfg ρ o)
    | op r k' =>
      rw [hticker] at hn
      have hact : ∀ {a : r.Resp} {κ : Kernel (sig w)}, Effect s .ticker r a κ →
          ∃ s', Run (code cfg) (Scheduled cfg) s s' ∧ ∃ a, s'.thread .main = k a := by
        intro a κ heff
        obtain ⟨s', hs', h', hk⟩ := h.act hticker heff
        have hr : ∀ c, r ≠ .asleep c := by
          rintro c rfl
          cases heff
        obtain ⟨m, hm, hwithin⟩ := hn.of_op hr a
        exact hnext hs' h' hm (hk ▸ hwithin)
      have hdone := h.running.2
      have hguar : Guar cfg .ticker ((protocol cfg mem).view s.log .ticker) r :=
        h.inv.guar hticker
      generalize (protocol cfg mem).view s.log .ticker = v at hguar hdone
      generalize hp : Party.ticker = p at hguar
      cases hguar with
      | wait =>
        obtain ⟨s₁, hs₁, h₁, hticker₁, hset⟩ := h.interrupt
        obtain ⟨s₂, hs₂, h₂, hk⟩ := h₁.act (hticker₁.trans hticker) (.wait _ hset)
        obtain ⟨m, hm, hwithin⟩ := hn.of_op nofun ()
        exact hnext (hs₁.trans hs₂) h₂ hm (hk ▸ hwithin)
      | stamp => exact hact (.clock (0 : Ccnt w))
      | read => exact hact (.load _)
      | store => exact hact (.store _ _)
      | send =>
        have hstep : Step (code cfg) s [.ticker, .main] _ :=
          .exchange nofun hticker h.main (.send _ _)
        exact ⟨_, .single ⟨_, scheduled_of_main (by simp), hstep⟩, _, rfl⟩
      | returned hd => exact absurd (hdone.symm.trans hd) nofun
      | spin | publish => exact absurd hp.symm (Kind.spinner_ne_ticker _)
      | _ => exact absurd hp nofun

end Waiting

/-! ### Until `main` has ended -/

/-- Every run can be continued until `main` has ended. -/
theorem exists_run_halt (hrun : Run (code cfg) (Scheduled cfg) (init cfg mem) s) :
    ∃ s', Run (code cfg) (Scheduled cfg) s s' ∧ s'.thread .main = .halt := by
  generalize hmain : s.thread .main = c
  -- Induction on what `main` still has to do.
  induction c generalizing s with
  | halt => exact ⟨s, .refl, hmain⟩
  | jump ℓ =>
    have hsafe := (inv_of_run hrun).safe .main
    rw [hmain] at hsafe
    exact absurd hsafe AtEntry.not_main
  | op r k ih =>
    have hnext : ∀ {s' : State (sig w)} {a : r.Resp}, Run (code cfg) (Scheduled cfg) s s' →
        s'.thread .main = k a →
        ∃ s', Run (code cfg) (Scheduled cfg) s s' ∧ s'.thread .main = .halt := by
      intro s' a hs' hk
      obtain ⟨s'', hs'', hhalt⟩ := ih a (hrun.trans hs') hk
      exact ⟨s'', hs'.trans hs'', hhalt⟩
    have hact : ∀ {a : r.Resp} {κ : Kernel (sig w)}, Effect s .main r a κ →
        ∃ s', Run (code cfg) (Scheduled cfg) s s' ∧ s'.thread .main = .halt := by
      intro a κ heff
      have hstep : Step (code cfg) s [.main] _ := .act hmain heff
      exact hnext (.single ⟨_, scheduled_of_main (by simp), hstep⟩) rfl
    have hguar : Guar cfg .main ((protocol cfg mem).view s.log .main) r :=
      (inv_of_run hrun).guar hmain
    generalize (protocol cfg mem).view s.log .main = v at hguar
    generalize hp : Party.main = p at hguar
    cases hguar with
    | mainClock => exact hact (.clock (0 : Ccnt w))
    | mainLoad => exact hact (.load _)
    | mainStore => exact hact (.store _ _)
    | startTicker =>
      have hstep : Step (code cfg) s [.main] _ := .start (q := Party.ticker) nofun hmain
      exact hnext (.single ⟨_, scheduled_of_main (by simp), hstep⟩) rfl
    | @startSpinner v ρ =>
      have hstep : Step (code cfg) s [.main] _ := .start ρ.kind.spinner_ne_main.symm hmain
      refine hnext (a := ()) (.single ⟨_, scheduled_of_main (by simp), hstep⟩) ?_
      exact (Function.update_of_ne ρ.kind.spinner_ne_main.symm ..).trans (Function.update_self ..)
    | recv =>
      have hwait : Waiting cfg mem k s := ⟨hrun, hmain⟩
      obtain ⟨s', hs', a, hk⟩ := exists_run_recv hwait
      exact hnext hs' hk
    | @stopSpinner v ρ =>
      have hstep : Step (code cfg) s [.main] _ := .suspend ρ.kind.spinner_ne_main.symm hmain
      refine hnext (a := ()) (.single ⟨_, scheduled_of_main (by simp), hstep⟩) ?_
      exact (Function.update_of_ne ρ.kind.spinner_ne_main.symm ..).trans (Function.update_self ..)
    | stopTicker =>
      have hstep : Step (code cfg) s [.main] _ := .suspend (q := Party.ticker) nofun hmain
      exact hnext (.single ⟨_, scheduled_of_main (by simp), hstep⟩) rfl
    | spin | publish => exact absurd hp.symm (Kind.spinner_ne_main _)
    | _ => exact absurd hp nofun

/-! ### When `main` has ended -/

variable (hrun : Run (code cfg) (Scheduled cfg) (init cfg mem) s)

include hrun

/-- A result in memory is the one that was last stored. -/
theorem mem_of_lastStore {x : Var} {t : Ccnt w} (hx : x ≠ .currentTime)
    (h : lastStore (σ := sig w) x (s.hist (writer x)) = some t) : s.kernel.mem x = t := by
  have hmem := (inv_of_run hrun).rel.data.mem x hx
  rwa [records_hist.view, stored, h, Option.getD_some] at hmem

/-- The overhead that was subtracted is the one that `main` has stored. -/
theorem overhead_of_mem {o : Ccnt w} (ho : o ∈ overheads (s.hist .ticker)) :
    wordArg cfg.wordBits (s.kernel.mem .overheadMin) = o := by
  have hover := (inv_of_run hrun).rel.data.overhead
  rw [records_hist.view, records_hist.view] at hover
  obtain ⟨-, m, hm, rfl⟩ := hover o ho
  rw [mem_of_lastStore hrun (x := .overheadMin) nofun hm]

variable (hfin : s.thread .main = .halt)

include hfin

/-- When `main` has ended it has waited for the ticker of the last round. -/
theorem last_of_halt : ((protocol cfg mem).view s.log .main).round = 3 ∧
    ((protocol cfg mem).view s.log .main).stage = 3 := by
  have hsafe := (inv_of_run hrun).safe .main
  rwa [hfin] at hsafe

theorem measured_of_halt : Measured cfg (s.hist .main) := by
  have hown : OwnMain cfg ((protocol cfg mem).view s.log .main) := (inv_of_run hrun).own .main
  have hr := (last_of_halt hrun hfin).1
  have hm := hown.measured (.inl (by omega))
  rwa [records_hist.view] at hm

/-- When `main` has ended, the ticker has recorded four rounds. -/
theorem recorded_of_halt : Recorded cfg 4 (s.hist .ticker) ∧
    ((protocol cfg mem).view s.log .ticker).point = .idle := by
  have hown : OwnTicker cfg ((protocol cfg mem).view s.log .ticker) :=
    (inv_of_run hrun).own .ticker
  have hsync := (inv_of_run hrun).rel.sync
  obtain ⟨hr, hd⟩ := last_of_halt hrun hfin
  obtain ⟨hpoint, hrec⟩ := hown.recorded (.inl (hsync.after hd.ge))
  have hstarts := hsync.starts
  rw [hr, hd] at hstarts
  rw [hstarts, records_hist.view] at hrec
  exact ⟨hrec, hpoint⟩

/-- The samples that the ticker has taken are those that the observer has seen, and each has taken
an interrupt of its own. -/
theorem samples_of_halt (hprios : 2 ≤ cfg.maxPrio) {r : Readings w} {n : ℕ}
    (hs : Sampled n r (s.hist .ticker)) :
    (watch (mem .currentTime) s.log).samples =
        (List.range n).map (fun i => (r.start i, r.stop i)) ∧
      n ≤ signals (s.hist .timer) := by
  have hwatch : Watched _ _ _ := watched_of_run hprios hrun
  have hloads := hwatch.loads
  have hclocks := hwatch.clocks
  rw [(recorded_of_halt hrun hfin).2, if_neg (by nofun), List.append_nil, records_hist.view,
    hs.loads] at hloads
  rw [records_hist.view, hs.clocks] at hclocks
  refine ⟨?_, ?_⟩
  · rw [← List.zip_unzip (watch (mem .currentTime) s.log).samples, List.unzip_eq_map]
    simp only
    rw [hloads, hclocks, List.zip_map']
  · have hflag := (inv_of_run hrun).rel.data.flag
    rw [records_hist.view, records_hist.view, hs.waits] at hflag
    exact (Nat.le_add_right _ _).trans hflag

end Runs

/-- **The results of the interrupt benchmark.** For any number of runs, under fixed priorities and
whatever the timer does: every run can be continued until `main` has ended. When it has ended, the
minimal overhead is that of the overheads that `main` has measured; the ticker has taken as many
samples as there are runs in all rounds, each by an interrupt of its own, and a sample consists of
the last time that a spinner had published when the interrupt woke the ticker and the time that the
ticker has read after that; the results of every round, or its sums with this overhead, are those
of its own samples. -/
theorem interrupt_latencies (cfg : Config) (hprios : 2 ≤ cfg.maxPrio) (mem : Var → Ccnt w)
    {s : State (sig w)} (hrun : Run (code cfg) (Scheduled cfg) (init cfg mem) s) :
    (∃ s', Run (code cfg) (Scheduled cfg) s s' ∧ s'.thread .main = .halt) ∧
      (s.thread .main = .halt → ∃ r₀ r : Readings w,
        clocks (s.hist .main) =
          (List.range cfg.runs).flatMap (fun i => [r₀.start i, r₀.stop i]) ∧
        s.kernel.mem .overheadMin =
          getMinOverhead (fun i => r₀.stop i - r₀.start i) cfg.runs ∧
        (watch (mem .currentTime) s.log).samples =
          (List.range (4 * cfg.runs)).map (fun i => (r.start i, r.stop i)) ∧
        4 * cfg.runs ≤ signals (s.hist .timer) ∧
        ∀ k, (∀ i < cfg.runs,
            s.kernel.mem (.results k i) = ((Round.late k).readings cfg r).stop i) ∧
          let res := earlyRun cfg.wordBits cfg.runs cfg.ignored ((Round.early k).readings cfg r)
            (wordArg cfg.wordBits (s.kernel.mem .overheadMin))
          s.kernel.mem (.epSum k) = res.sum ∧ s.kernel.mem (.epSum2 k) = res.sum2 ∧
            s.kernel.mem (.epNum k) = res.num) := by
  refine ⟨exists_run_halt hrun, fun hfin => ?_⟩
  obtain ⟨r₀, hclocks, -, hmin⟩ := measured_of_halt hrun hfin
  obtain ⟨⟨r, hs, hres⟩, -⟩ := recorded_of_halt hrun hfin
  obtain ⟨hsamples, hsignals⟩ := samples_of_halt hrun hfin hprios hs
  refine ⟨r₀, r, hclocks, mem_of_lastStore hrun nofun hmin, hsamples, hsignals, fun k => ?_⟩
  obtain ⟨o, ho, hsum, hsum2, hnum⟩ := hres (.early k) (Round.index_lt _)
  rw [overhead_of_mem hrun ho]
  refine ⟨fun i hi => ?_, ?_, ?_, ?_⟩
  · exact mem_of_lastStore hrun (x := .results k i) nofun (hres (.late k) (Round.index_lt _) i hi)
  · exact mem_of_lastStore hrun (x := .epSum k) nofun hsum
  · exact mem_of_lastStore hrun (x := .epSum2 k) nofun hsum2
  · exact mem_of_lastStore hrun (x := .epNum k) nofun hnum

/-- One run has an execution with four samples, and its first result is that of the first. -/
theorem interrupt_latencies_one : ∃ s : State (sig 64),
    Run (code ⟨64, 1, 0, 255⟩) (Scheduled ⟨64, 1, 0, 255⟩) (init ⟨64, 1, 0, 255⟩ fun _ => 0) s ∧
    ∃ x y z u : Ccnt 64 × Ccnt 64, (watch 0 s.log).samples = [x, y, z, u] ∧
      s.kernel.mem (.results .thread 0) = wordElapsed 64 x.1 x.2 := by
  obtain ⟨⟨s, hs, hfin⟩, -⟩ := interrupt_latencies ⟨64, 1, 0, 255⟩ (by decide)
    (fun _ => (0 : Ccnt 64)) .refl
  obtain ⟨-, hhalt⟩ := interrupt_latencies ⟨64, 1, 0, 255⟩ (by decide) _ hs
  obtain ⟨r₀, r, -, -, hsamples, -, hresults⟩ := hhalt hfin
  exact ⟨s, hs, _, _, _, _, hsamples, (hresults .thread).1 0 Nat.one_pos⟩

end Sel4bench.Irquser
