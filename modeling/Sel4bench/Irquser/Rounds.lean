import Sel4bench.Irquser.Protocol

/-!
# The rounds of the interrupt benchmark

Parties that follow the protocol keep it in every interleaving.

## Main results

* `Sel4bench.Irquser.sound` — the protocol is kept by every step of parties that follow it.
-/

namespace Sel4bench.Irquser

open Machine Trace
open Support (Msg)

variable {w : ℕ} {cfg : Config} {mem : Var → Ccnt w} {κ κ' : Kernel (sig w)}
  {g : Party → View w} {p q : Party} {ev ev' : Event (sig w)}

/-! ### The views after an event -/

/-- The views after an event. -/
abbrev next (cfg : Config) (mem : Var → Ccnt w) (g : Party → View w) (p : Party)
    (ev : Event (sig w)) : Party → View w :=
  (protocol cfg mem).next g p ev

theorem next_self : next cfg mem g p ev p = step p (g p) ev := Protocol.next_self _ g p ev

theorem next_of_ne (hq : q ≠ p) : next cfg mem g p ev q = g q := Protocol.next_of_ne _ g hq ev

/-- An event of the ticker is not seen by `main`. -/
theorem next_ticker_main : next cfg mem g .ticker ev .main = g .main := next_of_ne (by decide)

/-- An event of `main` is not seen by the ticker. -/
theorem next_main_ticker : next cfg mem g .main ev .ticker = g .ticker := next_of_ne (by decide)

theorem records_hist : (protocol cfg mem).Records View.hist where
  init _ := rfl
  step _ _ _ := rfl

/-- What is counted in a history after an event. -/
theorem countP_next (f : Event (sig w) → Bool) : (next cfg mem g p ev q).hist.countP f =
    (g q).hist.countP f + (if q = p then (f ev).toNat else 0) := by
  by_cases hq : q = p
  · subst hq
    rw [next_self, step_hist, countP_concat, if_pos rfl]
  · rw [next_of_ne hq, if_neg hq, Nat.add_zero]

theorem waits_next : waits (next cfg mem g p ev q).hist =
    waits (g q).hist + (if q = p then (isWait ev).toNat else 0) := countP_next isWait

theorem signals_next : signals (next cfg mem g p ev q).hist =
    signals (g q).hist + (if q = p then (isSignal ev).toNat else 0) := countP_next isSignal

/-- `main` does not return to its prologue. -/
theorem Opened.advance {v : Progress} (h : Opened v) (ev : Event (sig w)) :
    Opened (advance .main v ev) := by
  cases ev with
  | started ℓ => exact h
  | stopped => exact h
  | did r a =>
    cases r with
    | start | recv => exact .inr (Nat.succ_pos _)
    | suspend =>
      simp only [Irquser.advance]
      split_ifs
      · exact .inl (Nat.succ_pos _)
      · exact .inr (Nat.succ_pos _)
    | _ => exact h

theorem Opened.next (h : Opened (g .main).toProgress) :
    Opened (next cfg mem g p ev .main).toProgress := by
  by_cases hp : p = .main
  · subst hp
    rw [next_self]
    exact h.advance ev
  · rwa [next_of_ne (Ne.symm hp)]

/-! ### Memory, flag and arguments -/

/-- The overheads that the ticker is given are kept by an event that stores none. -/
theorem Data.overhead_next (h : Data cfg mem κ g)
    (hstore : p = .main → Opened (g .main).toProgress →
      storeOf (σ := sig w) .overheadMin ev = none)
    (hover : p = .ticker → ∀ o, overheadOf ev = some o → Opened (g .main).toProgress ∧
      ∃ m, lastStore (σ := sig w) .overheadMin (g .main).hist = some m ∧
        o = wordArg cfg.wordBits m) :
    ∀ o ∈ overheads (next cfg mem g p ev .ticker).hist,
      Opened (next cfg mem g p ev .main).toProgress ∧
      ∃ m, lastStore (σ := sig w) .overheadMin (next cfg mem g p ev .main).hist = some m ∧
        o = wordArg cfg.wordBits m := by
  intro o ho
  have hold : Opened (g .main).toProgress ∧
      ∃ m, lastStore (σ := sig w) .overheadMin (g .main).hist = some m ∧
        o = wordArg cfg.wordBits m := by
    by_cases hp : p = .ticker
    · subst hp
      rw [next_self, step_hist, overheads, filterMap_concat, List.mem_append,
        Option.mem_toList] at ho
      rcases ho with ho | ho
      · exact h.overhead o ho
      · exact hover rfl o ho
    · rw [next_of_ne (Ne.symm hp)] at ho
      exact h.overhead o ho
  obtain ⟨hopen, m, hm, ho⟩ := hold
  refine ⟨hopen.next, m, ?_, ho⟩
  by_cases hp : p = .main
  · subst hp
    rw [next_self, step_hist, lastStore_append (hstore rfl hopen), hm]
  · rw [next_of_ne (Ne.symm hp), hm]

/-- An event that stores nothing and does not touch the flag. -/
structure Quiet (ev : Event (sig w)) : Prop where
  store : ∀ x, storeOf (σ := sig w) x ev = none
  wait : isWait ev = false
  signal : isSignal ev = false

theorem Data.quiet (h : Data cfg mem κ g) (hev : Quiet ev) (hmem : κ'.mem = κ.mem)
    (hpend : κ'.pending = κ.pending)
    (hover : p = .ticker → ∀ o, overheadOf ev = some o → Opened (g .main).toProgress ∧
      ∃ m, lastStore (σ := sig w) .overheadMin (g .main).hist = some m ∧
        o = wordArg cfg.wordBits m) : Data cfg mem κ' (next cfg mem g p ev) where
  mem := by
    rw [hmem]
    exact fun x hx => records_hist.mem_next (h.mem x hx) (hev.store x)
  flag := by
    rw [waits_next, signals_next, hev.wait, hev.signal, hpend]
    simpa using h.flag
  overhead := h.overhead_next (fun _ _ => hev.store _) hover

/-- An event that starts nobody with an overhead. -/
theorem Data.silent (h : Data cfg mem κ g) (hev : Quiet ev) (hmem : κ'.mem = κ.mem)
    (hpend : κ'.pending = κ.pending) (hover : overheadOf ev = none) :
    Data cfg mem κ' (next cfg mem g p ev) :=
  h.quiet hev hmem hpend fun _ o ho => absurd (hover.symm.trans ho) (Option.some_ne_none o).symm

/-- `main` and then another party take part in an event. -/
theorem Data.main_two (h : Data cfg mem κ g) (hev : Quiet ev) (hev' : Quiet ev')
    (hmem : κ'.mem = κ.mem) (hpend : κ'.pending = κ.pending)
    (hover : q = .ticker → ∀ o, overheadOf ev' = some o →
      Opened (Irquser.advance .main (g .main).toProgress ev) ∧
      ∃ m, lastStore (σ := sig w) .overheadMin (g .main).hist = some m ∧
        o = wordArg cfg.wordBits m) :
    Data cfg mem κ' (next cfg mem (next cfg mem g .main ev) q ev') := by
  have hmain : Data cfg mem κ' (next cfg mem g .main ev) :=
    h.quiet hev hmem hpend fun hp => absurd hp (by decide)
  refine hmain.quiet hev' rfl rfl fun hq o ho => ?_
  obtain ⟨hopen, m, hm, ho⟩ := hover hq o ho
  rw [next_self]
  exact ⟨hopen, m, (lastStore_append (hev.store _) _).trans hm, ho⟩

/-- A party stores a value in a variable of its own, or the time. -/
theorem Data.store (h : Data cfg mem κ g) {x : Var} (hx : x = .currentTime ∨ writer x = p)
    (hopen : p = .main → Opened (g .main).toProgress → x ≠ .overheadMin) (t : Ccnt w) :
    Data cfg mem { κ with mem := Function.update κ.mem x t }
      (next cfg mem g p (.did (.store x t) ())) where
  mem y hy := by
    by_cases hxy : x = .currentTime
    · subst hxy
      refine (Function.update_of_ne hy t κ.mem).trans ?_
      exact records_hist.mem_next (h.mem y hy) (storeOf_store_of_ne (σ := sig w) hy.symm t ())
    · exact records_hist.mem_next_store t (h.mem y hy) fun heq => heq ▸ hx.resolve_left hxy
  flag := by
    rw [waits_next, signals_next]
    simpa [isWait, isSignal] using h.flag
  overhead := h.overhead_next
    (fun hp hopened => storeOf_store_of_ne (σ := sig w) (hopen hp hopened) t ()) fun _ _ => nofun

theorem Data.wait (h : Data cfg mem κ g) (hset : κ.pending .timerSignal = true) :
    Data cfg mem { κ with pending := Function.update κ.pending .timerSignal false }
      (next cfg mem g .ticker (.did (.wait .timerSignal) ())) where
  mem x hx := records_hist.mem_next (h.mem x hx) rfl
  flag := by
    have hflag := h.flag
    rw [hset, Bool.toNat_true] at hflag
    rw [waits_next, signals_next]
    simpa [isWait] using hflag
  overhead := h.overhead_next nofun fun _ _ => nofun

theorem Data.signal (h : Data cfg mem κ g) (a : Bool) :
    Data cfg mem { κ with pending := Function.update κ.pending .timerSignal true }
      (next cfg mem g .timer (.did (.signal .timerSignal) a)) where
  mem x hx := records_hist.mem_next (h.mem x hx) rfl
  flag := by
    have hflag : waits (g .ticker).hist ≤ signals (g .timer).hist :=
      (Nat.le_add_right _ _).trans h.flag
    rw [waits_next, signals_next]
    simpa [isSignal] using hflag
  overhead := h.overhead_next nofun nofun

/-! ### Soundness -/

theorem quiet_clock (t : Ccnt w) : Quiet (.did .clock t : Event (sig w)) := ⟨fun _ => rfl, rfl, rfl⟩

theorem quiet_load (x : Var) (t : Ccnt w) : Quiet (.did (.load x) t : Event (sig w)) :=
  ⟨fun _ => rfl, rfl, rfl⟩

theorem quiet_send (c : Endpoint) (m : Msg) (n : ℕ) : Quiet (.did (.send c m) n : Event (sig w)) :=
  ⟨fun _ => rfl, rfl, rfl⟩

theorem quiet_recv (c : Endpoint) (a : ℕ × Msg) : Quiet (.did (.recv c) a : Event (sig w)) :=
  ⟨fun _ => rfl, rfl, rfl⟩

theorem quiet_start (u : Party) (ℓ : Entry w) : Quiet (.did (.start u ℓ) () : Event (sig w)) :=
  ⟨fun _ => rfl, rfl, rfl⟩

theorem quiet_suspend (u : Party) : Quiet (.did (.suspend u) () : Event (sig w)) :=
  ⟨fun _ => rfl, rfl, rfl⟩

theorem quiet_started (ℓ : Entry w) : Quiet (.started ℓ : Event (sig w)) := ⟨fun _ => rfl, rfl, rfl⟩

theorem quiet_stopped : Quiet (.stopped : Event (sig w)) := ⟨fun _ => rfl, rfl, rfl⟩

section Sound

variable {s : State (sig w)}

/-- An event that neither `main` nor the ticker takes part in. -/
theorem Sync.other (h : Sync (g .main).toProgress (g .ticker).toProgress) (hm : p ≠ .main)
    (ht : p ≠ .ticker) : Sync (next cfg mem g p ev .main).toProgress
      (next cfg mem g p ev .ticker).toProgress := by
  rwa [next_of_ne hm.symm, next_of_ne ht.symm]

theorem Sync.ticker {t : Progress} (h : Sync (g .main).toProgress t)
    (ht : t = advance .ticker (g .ticker).toProgress ev) :
    Sync (next cfg mem g .ticker ev .main).toProgress
      (next cfg mem g .ticker ev .ticker).toProgress := by
  rw [next_ticker_main, next_self]
  rwa [step_progress, ← ht]

theorem Sync.main {m : Progress} (h : Sync m (g .ticker).toProgress)
    (hm : m = advance .main (g .main).toProgress ev) :
    Sync (next cfg mem g .main ev .main).toProgress
      (next cfg mem g .main ev .ticker).toProgress := by
  rw [next_main_ticker, next_self]
  rwa [step_progress, ← hm]

theorem rel_effect {r : Req (sig w)} {a : r.Resp} (hinv : (protocol cfg mem).Inv s)
    (hguar : Guar cfg p ((protocol cfg mem).view s.log p) r) (heff : Effect s p r a κ) :
    rely p ((protocol cfg mem).view s.log p) r a ∧
      Rel cfg mem κ (next cfg mem ((protocol cfg mem).view s.log) p (.did r a)) := by
  have hsync := hinv.rel.sync
  have hdata := hinv.rel.data
  generalize hv : (protocol cfg mem).view s.log p = v at hguar
  cases hguar with
  | @spin k =>
    cases heff with
    | clock t =>
      exact ⟨trivial, hsync.other k.spinner_ne_main k.spinner_ne_ticker,
        hdata.silent (quiet_clock _) rfl rfl rfl⟩
  | @publish k v t ht =>
    cases heff
    exact ⟨trivial, hsync.other k.spinner_ne_main k.spinner_ne_ticker,
      hdata.store (.inl rfl) (fun _ _ => by decide) t⟩
  | tick =>
    cases heff
    exact ⟨trivial, hsync.other (by decide) (by decide), hdata.signal _⟩
  | wait h =>
    cases heff with
    | wait _ hset =>
      refine ⟨trivial, Sync.ticker ?_ rfl, hdata.wait hset⟩
      exact ⟨hsync.starts, hsync.before, hsync.running, hsync.after⟩
  | stamp h =>
    cases heff with
    | clock t =>
      refine ⟨trivial, Sync.ticker ?_ rfl, hdata.silent (quiet_clock _) rfl rfl rfl⟩
      exact ⟨hsync.starts, hsync.before, hsync.running, hsync.after⟩
  | read h =>
    cases heff
    refine ⟨fun hp => absurd hp (by decide), Sync.ticker ?_ rfl,
      hdata.silent (quiet_load _ _) rfl rfl rfl⟩
    exact ⟨hsync.starts, hsync.before, hsync.running, hsync.after⟩
  | @store v x ρ h hx hs t =>
    cases heff
    have hx : writer x = .ticker := by
      cases x <;> first | rfl | exact absurd hx (Option.some_ne_none ρ).symm
    exact ⟨trivial, hsync.ticker rfl, hdata.store (.inr hx)
      (fun hp => absurd hp (by decide)) t⟩
  | send | returned => cases heff
  | mainClock hr hd =>
    cases heff with
    | clock t =>
      exact ⟨trivial, hsync.main rfl, hdata.silent (quiet_clock _) rfl rfl rfl⟩
  | @mainLoad v hd x hx =>
    cases heff
    refine ⟨fun _ b hb => ?_, hsync.main rfl, hdata.silent (quiet_load _ _) rfl rfl rfl⟩
    have hne : x ≠ .currentTime := by
      rintro rfl
      exact absurd hx (by decide)
    have hmem := hdata.mem x hne
    rwa [hx, hv, stored, hb, Option.getD_some] at hmem
  | @mainStore v x hr hd hx t =>
    subst hv
    cases heff
    refine ⟨trivial, hsync.main rfl, hdata.store (.inr hx) (fun _ hopen => ?_) t⟩
    rcases hopen with hopen | hopen
    · exact absurd hr hopen.ne'
    · exact absurd hd hopen.ne'
  | startTicker | startSpinner | recv | stopSpinner | stopTicker => cases heff

/-- The ticker sends its done message. -/
theorem rel_exchange {r r' : Req (sig w)} {a : r.Resp} {a' : r'.Resp}
    (hinv : (protocol cfg mem).Inv s) (hguar : Guar cfg p ((protocol cfg mem).view s.log p) r)
    (hguar' : Guar cfg q ((protocol cfg mem).view s.log q) r')
    (hex : Exchange s.kernel p q r a r' a' κ) :
    rely p ((protocol cfg mem).view s.log p) r a ∧
      rely q ((protocol cfg mem).view s.log q) r' a' ∧
      Rel cfg mem κ (next cfg mem (next cfg mem ((protocol cfg mem).view s.log) p (.did r a)) q
        (.did r' a')) := by
  have hsync := hinv.rel.sync
  have hdata := hinv.rel.data
  generalize hv : (protocol cfg mem).view s.log p = v at hguar
  generalize hv' : (protocol cfg mem).view s.log q = v' at hguar'
  cases hex with
  | reply | wake => cases hguar
  | call c m =>
    cases hguar'
    rename_i hd
    cases hguar
    rename_i hdone
    -- While `main` receives, the ticker has not sent its done message.
    rw [← hv] at hdone
    rw [← hv'] at hd
    exact absurd (hdone.symm.trans (hsync.running (.inr hd)).2) (by decide)
  | send c m =>
    cases hguar'
    rename_i hd
    cases hguar
    rename_i hat hrec
    rw [← hv'] at hd
    refine ⟨trivial, rfl, ?_, ?_⟩
    · rw [next_self, next_ticker_main, next_main_ticker, next_self]
      have hstarts := hsync.starts
      simp only [step_progress, advance, hd] at hstarts ⊢
      exact ⟨hstarts, by simp, by simp, fun _ => rfl⟩
    · exact (hdata.silent (quiet_send _ _ _) rfl rfl rfl).silent (quiet_recv _ _) rfl rfl rfl

theorem Sync.main_ticker (h : Sync (advance .main (g .main).toProgress ev)
    (advance .ticker (g .ticker).toProgress ev')) :
    Sync (next cfg mem (next cfg mem g .main ev) .ticker ev' .main).toProgress
      (next cfg mem (next cfg mem g .main ev) .ticker ev' .ticker).toProgress := by
  rw [next_self, next_ticker_main, next_self, next_main_ticker]
  exact h

/-- The ticker is started when it has recorded all earlier rounds. -/
theorem rel_startTicker {ρ : Round} {o m : Ccnt w} (hinv : (protocol cfg mem).Inv s)
    (hr : ((protocol cfg mem).view s.log .main).round = ρ.index)
    (hd : ((protocol cfg mem).view s.log .main).stage = 0)
    (hmin : lastStore (σ := sig w) .overheadMin ((protocol cfg mem).view s.log .main).hist = some m)
    (ho : o = wordArg cfg.wordBits m) :
    AtEntry cfg .ticker (ρ.ticker o)
        (step .ticker ((protocol cfg mem).view s.log .ticker) (.started (ρ.ticker o))) ∧
      Rel cfg mem (s.kernel.cancel .ticker) (next cfg mem (next cfg mem
        ((protocol cfg mem).view s.log) .main (.did (.start .ticker (ρ.ticker o)) ())) .ticker
          (.started (ρ.ticker o))) := by
  have hsync := hinv.rel.sync
  have hown : OwnTicker cfg ((protocol cfg mem).view s.log .ticker) := hinv.own .ticker
  have hstarts : ((protocol cfg mem).view s.log .ticker).starts = ρ.index := by
    rw [hsync.starts, hr, if_pos hd, Nat.add_zero]
  obtain ⟨-, hrec⟩ := hown.recorded (hsync.before hd).2
  refine ⟨.ticker ⟨rfl, rfl, rfl⟩ ?_ ?_ ?_, ?_, ?_⟩
  · exact congrArg (· + 1) hstarts
  · rw [hstarts] at hrec
    exact hrec.append rfl rfl rfl fun _ => rfl
  · rintro k rfl
    rw [step_hist, overheads, filterMap_concat]
    exact List.mem_append_right _ (List.mem_singleton_self o)
  · refine Sync.main_ticker ?_
    simp only [advance, hd]
    exact ⟨by rw [hstarts, hr]; rfl, by simp, fun _ => ⟨rfl, rfl⟩, by simp⟩
  · refine hinv.rel.data.main_two (quiet_start _ _) (quiet_started _) rfl rfl fun _ o' ho' => ?_
    have ho' : o' = o := by
      cases ρ with
      | late => exact absurd ho' (Option.some_ne_none o').symm
      | early => exact (Option.some.inj ho').symm
    exact ⟨.inr (Nat.succ_pos _), m, hmin, ho'.trans ho⟩

theorem rel_spinner {k : Kind} (hinv : (protocol cfg mem).Inv s) (hev : Quiet ev) (hev' : Quiet ev')
    (hmem : κ.mem = s.kernel.mem) (hpend : κ.pending = s.kernel.pending)
    (hsync : Sync (advance .main ((protocol cfg mem).view s.log .main).toProgress ev)
      ((protocol cfg mem).view s.log .ticker).toProgress) :
    Rel cfg mem κ (next cfg mem (next cfg mem ((protocol cfg mem).view s.log) .main ev)
      k.spinner ev') := by
  refine ⟨?_, ?_⟩
  · rw [next_of_ne k.spinner_ne_ticker.symm, next_of_ne k.spinner_ne_main.symm, next_self,
      next_main_ticker]
    exact hsync
  · exact hinv.rel.data.main_two hev hev' hmem hpend fun hp => absurd hp k.spinner_ne_ticker

theorem rel_start {ℓ : Entry w} (hinv : (protocol cfg mem).Inv s)
    (hguar : Guar cfg p ((protocol cfg mem).view s.log p) (.start q ℓ)) :
    rely p ((protocol cfg mem).view s.log p) (.start q ℓ) () ∧
      AtEntry cfg q ℓ (step q ((protocol cfg mem).view s.log q) (.started ℓ)) ∧
      Rel cfg mem (s.kernel.cancel q) (next cfg mem (next cfg mem ((protocol cfg mem).view s.log) p
        (.did (.start q ℓ) ())) q (.started ℓ)) := by
  have hsync := hinv.rel.sync
  refine ⟨trivial, ?_⟩
  generalize hv : (protocol cfg mem).view s.log p = v at hguar
  cases hguar with
  | startTicker hr hd hm hmin ho =>
    subst hv
    exact rel_startTicker hinv hr hd hmin ho
  | startSpinner hr hd =>
    subst hv
    refine ⟨.spinner, rel_spinner hinv (quiet_start _ _) (quiet_started _) rfl rfl ?_⟩
    have hstarts := hsync.starts
    simp only [advance, hd] at hstarts ⊢
    exact ⟨hstarts, by simp, fun _ => hsync.running (.inl hd), by simp⟩

theorem rel_suspend (hinv : (protocol cfg mem).Inv s)
    (hguar : Guar cfg p ((protocol cfg mem).view s.log p) (.suspend q)) :
    rely p ((protocol cfg mem).view s.log p) (.suspend q) () ∧
      rest q (step q ((protocol cfg mem).view s.log q) .stopped) ∧
      Rel cfg mem (s.kernel.cancel q) (next cfg mem (next cfg mem ((protocol cfg mem).view s.log) p
        (.did (.suspend q) ())) q .stopped) := by
  have hsync := hinv.rel.sync
  refine ⟨trivial, ?_⟩
  generalize hv : (protocol cfg mem).view s.log p = v at hguar
  cases hguar with
  | @stopSpinner v ρ hr hlt hd =>
    subst hv
    refine ⟨?_, rel_spinner hinv (quiet_suspend _) quiet_stopped rfl rfl ?_⟩
    · cases ρ.kind <;> trivial
    · have hstarts := hsync.starts
      have hdone := hsync.after hd.ge
      simp only [advance, hd] at hstarts ⊢
      exact ⟨hstarts, by simp, by simp, fun _ => hdone⟩
  | stopTicker hlt hd =>
    subst hv
    have hdone := hsync.after (by omega)
    refine ⟨rfl, ?_, ?_⟩
    · refine Sync.main_ticker ?_
      have hstarts := hsync.starts
      simp only [advance, hd] at hstarts ⊢
      exact ⟨hstarts, fun _ => ⟨rfl, .inl hdone⟩, by simp, by simp⟩
    · exact hinv.rel.data.main_two (quiet_suspend _) quiet_stopped rfl rfl
        fun _ o ho => absurd ho (Option.some_ne_none o).symm

variable {F : Entry w → Prog (sig w)}

/-- Parties that follow the protocol keep it in every interleaving. -/
theorem sound (hlabel : ∀ p ℓ v, AtEntry cfg p ℓ v →
    ((protocol cfg mem).spec p).Safe (F ℓ) v) (ok : State (sig w) → List Party → Prop) :
    (protocol cfg mem).Sound F ok where
  label := hlabel
  own := Own.did
  own_started h := h.started _
  own_stopped := Own.stopped
  effect hinv _ := rel_effect hinv
  exchange hinv _ _ := rel_exchange hinv
  start hinv _ _ := rel_start hinv
  suspend hinv _ _ := rel_suspend hinv

end Sound

end Sel4bench.Irquser
