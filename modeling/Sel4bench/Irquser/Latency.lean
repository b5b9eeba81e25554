import Sel4bench.Irquser.Samples

/-!
# Interrupt latencies

What a sample of the ticker means depends on the priorities: from the moment when an interrupt wakes
the ticker until it has read `*current_time`, the spinner takes no step, since the ticker outranks
it. So `*current_time` has the last reading that a spinner has published before the interrupt, and a
sample is the time from this reading to that of the ticker.

The samples are described by an observer who sees all events in order (`Sel4bench.Irquser.watch`)
and knows nothing of the variables.

## Main definitions

* `Sel4bench.Irquser.Watch`, `Sel4bench.Irquser.watch` — what the observer sees.

## Main results

* `Sel4bench.Irquser.watched_of_run` — what the ticker reads is what the observer has seen.
-/

namespace Sel4bench.Irquser

open Machine Trace

variable {w : ℕ} {cfg : Config} {mem : Var → Ccnt w}

/-! ### The observer -/

/-- What an observer knows: the last reading of every party, the reading that was last published,
the one that was last published when the ticker was woken, and for every reading of the ticker after
that, both. -/
structure Watch (w : ℕ) where
  last : Party → Ccnt w
  published : Ccnt w
  interrupted : Ccnt w
  samples : List (Ccnt w × Ccnt w) := []

/-- The observer sees an event. Of a publication it only sees by whom it is. -/
def Watch.event (o : Watch w) : Party × Event (sig w) → Watch w
  | (.ticker, .did .clock t) => { o with samples := o.samples ++ [(o.interrupted, t)] }
  | (p, .did .clock t) => { o with last := Function.update o.last p t }
  | (p, .did (.store .currentTime _) _) => { o with published := o.last p }
  | (.ticker, .did (.wait _) _) => { o with interrupted := o.published }
  | _ => o

/-- What the observer has seen, when `t` was published at first. -/
def watch (t : Ccnt w) (log : Log (sig w)) : Watch w :=
  log.foldl Watch.event { last := fun _ => t, published := t, interrupted := t }

theorem watch_append (t : Ccnt w) (log : Log (sig w)) (x : Party × Event (sig w)) :
    watch t (log ++ [x]) = (watch t log).event x := by
  rw [watch, List.foldl_append]
  rfl

/-- How the knowledge of the observer, the time `time` in the memory and the views agree. -/
structure Watched (o : Watch w) (time : Ccnt w) (g : Party → View w) : Prop where
  published : o.published = time
  last : ∀ p ≠ .ticker, ∀ t, (clocks (g p).hist).getLast? = some t → o.last p = t
  interrupted : (g .ticker).point ≠ .idle → o.interrupted = o.published
  loads : o.samples.map Prod.fst = loads (g .ticker).hist ++
    (if (g .ticker).point = .stamped then [o.interrupted] else [])
  clocks : o.samples.map Prod.snd = clocks (g .ticker).hist

section Events

variable {o : Watch w} {time : Ccnt w} {g : Party → View w} {p : Party} {ev : Event (sig w)}

theorem clocks_next_of_none (hclock : clockOf ev = none) (q : Party) :
    clocks (next cfg mem g p ev q).hist = clocks (g q).hist := by
  by_cases hq : q = p
  · subst hq
    rw [next_self, step_hist, clocks_append_of_none _ hclock]
  · rw [next_of_ne hq]

theorem loads_next_of_none (hload : timeOf ev = none) (q : Party) :
    loads (next cfg mem g p ev q).hist = loads (g q).hist := by
  by_cases hq : q = p
  · subst hq
    rw [next_self, step_hist, loads, filterMap_concat, hload, Option.toList_none, List.append_nil]
    rfl
  · rw [next_of_ne hq]

/-- An event that the observer does not notice. -/
theorem Watched.silent (h : Watched o time g) (hclock : clockOf ev = none)
    (hload : timeOf ev = none)
    (hpoint : (next cfg mem g p ev .ticker).point = (g .ticker).point) :
    Watched o time (next cfg mem g p ev) where
  published := h.published
  last q hq t ht := by
    rw [clocks_next_of_none hclock] at ht
    exact h.last q hq t ht
  interrupted hne := by
    rw [hpoint] at hne
    exact h.interrupted hne
  loads := by
    rw [hpoint, loads_next_of_none hload]
    exact h.loads
  clocks := by
    rw [clocks_next_of_none hclock]
    exact h.clocks

/-- An event that does not belong to a sample. -/
theorem Watched.quiet (h : Watched o time g) (hevent : o.event (p, ev) = o)
    (hclock : clockOf ev = none) (hload : timeOf ev = none)
    (hpoint : p = .ticker → (advance .ticker (g .ticker).toProgress ev).point = (g .ticker).point) :
    Watched (o.event (p, ev)) time (next cfg mem g p ev) := by
  rw [hevent]
  refine h.silent hclock hload ?_
  by_cases hp : p = .ticker
  · subst hp
    rw [next_self]
    exact hpoint rfl
  · rw [next_of_ne (Ne.symm hp)]

/-- A variable other than the time is written. -/
theorem Watched.store (h : Watched o time g) {x : Var} (hx : x ≠ .currentTime) (t : Ccnt w)
    {κ : Kernel (sig w)} (hκ : κ.mem .currentTime = time) :
    Watched (o.event (p, .did (.store x t) ())) (Function.update κ.mem x t .currentTime)
      (next cfg mem g p (.did (.store x t) ())) := by
  have hevent : o.event (p, .did (.store x t) ()) = o := by
    cases x with
    | currentTime => exact absurd rfl hx
    | _ => cases p <;> rfl
  rw [Function.update_of_ne hx.symm, hκ]
  exact h.quiet hevent rfl rfl fun _ => rfl

theorem Watched.wait (h : Watched o time g) (hpoint : (g .ticker).point = .idle) (n : Ntfn)
    (a : Unit) : Watched (o.event (.ticker, .did (.wait n) a)) time
      (next cfg mem g .ticker (.did (.wait n) a)) where
  published := h.published
  last q hq t ht := by
    rw [clocks_next_of_none rfl] at ht
    exact h.last q hq t ht
  interrupted _ := rfl
  loads := by
    have hloads := h.loads
    rw [hpoint] at hloads
    rw [loads_next_of_none rfl, next_self]
    exact hloads
  clocks := by
    rw [clocks_next_of_none rfl]
    exact h.clocks

theorem Watched.stamp (h : Watched o time g) (hpoint : (g .ticker).point = .woken) (t : Ccnt w) :
    Watched (o.event (.ticker, .did .clock t)) time (next cfg mem g .ticker (.did .clock t)) where
  published := h.published
  last q hq t' ht := by
    rw [next_of_ne hq] at ht
    exact h.last q hq t' ht
  interrupted _ := h.interrupted (by rw [hpoint]; nofun)
  loads := by
    have hloads := h.loads
    rw [hpoint, if_neg (by nofun), List.append_nil] at hloads
    rw [loads_next_of_none rfl, next_self, if_pos (by rfl), ← hloads]
    exact List.map_append
  clocks := by
    rw [next_self, step_hist, Machine.clocks, filterMap_concat]
    exact List.map_append.trans (congrArg (· ++ [t]) h.clocks)

theorem Watched.read (h : Watched o time g) (hpoint : (g .ticker).point = .stamped) :
    Watched o time (next cfg mem g .ticker (.did (.load .currentTime) time)) where
  published := h.published
  last q hq t ht := by
    rw [clocks_next_of_none rfl] at ht
    exact h.last q hq t ht
  interrupted hne := by
    rw [next_self] at hne
    exact absurd rfl hne
  loads := by
    have hloads := h.loads
    have htime := h.interrupted (by rw [hpoint]; nofun)
    rw [hpoint, if_pos rfl, htime, h.published] at hloads
    rw [next_self, if_neg (by nofun), List.append_nil, step_hist, Irquser.loads, filterMap_concat]
    exact hloads
  clocks := by
    rw [clocks_next_of_none rfl]
    exact h.clocks

theorem Watched.spin (h : Watched o time g) (hp : p ≠ .ticker) (t : Ccnt w) :
    Watched (o.event (p, .did .clock t)) time (next cfg mem g p (.did .clock t)) := by
  have hevent : o.event (p, .did .clock t) = { o with last := Function.update o.last p t } := by
    cases p with
    | ticker => exact absurd rfl hp
    | main | spinner | spinnerProcess | timer => rfl
  have hticker : next cfg mem g p (.did .clock t) .ticker = g .ticker := next_of_ne hp.symm
  rw [hevent]
  refine ⟨h.published, fun q hq t' ht => ?_, ?_, ?_, ?_⟩
  · by_cases hqp : q = p
    · subst hqp
      rw [next_self, step_hist, Machine.clocks, filterMap_concat] at ht
      refine (Function.update_self ..).trans ?_
      exact Option.some.inj (List.getLast?_concat.symm.trans ht)
    · rw [next_of_ne hqp] at ht
      exact (Function.update_of_ne hqp ..).trans (h.last q hq t' ht)
  · rw [hticker]
    exact h.interrupted
  · rw [hticker]
    exact h.loads
  · rw [hticker]
    exact h.clocks

/-- A spinner publishes its last reading, while the ticker is not at work on a sample. -/
theorem Watched.publish (h : Watched o time g) (hp : p ≠ .ticker) {t : Ccnt w}
    (ht : (Machine.clocks (g p).hist).getLast? = some t) (hpoint : (g .ticker).point = .idle) :
    Watched (o.event (p, .did (.store .currentTime t) ())) t
      (next cfg mem g p (.did (.store .currentTime t) ())) := by
  have hevent :
      o.event (p, .did (.store .currentTime t) ()) = { o with published := o.last p } := by
    cases p <;> rfl
  have hticker : next cfg mem g p (.did (.store .currentTime t) ()) .ticker = g .ticker :=
    next_of_ne hp.symm
  rw [hevent]
  refine ⟨h.last p hp t ht, fun q hq t' ht' => ?_, ?_, ?_, ?_⟩
  · rw [clocks_next_of_none rfl] at ht'
    exact h.last q hq t' ht'
  · rw [hticker, hpoint]
    exact fun hne => absurd rfl hne
  · rw [hticker]
    exact h.loads
  · rw [hticker]
    exact h.clocks

end Events

/-! ### Priorities -/

section Step

variable {s s' : State (sig w)} {ps : List (sig w).Party}

/-- A ticker that works on a sample is running. -/
theorem active_of_point (hinv : (protocol cfg mem).Inv s)
    (hpoint : ((protocol cfg mem).view s.log .ticker).point ≠ .idle) :
    ((protocol cfg mem).view s.log .ticker).active = true ∧
      ((protocol cfg mem).view s.log .ticker).done = false := by
  have hown : OwnTicker cfg ((protocol cfg mem).view s.log .ticker) := hinv.own .ticker
  have hsync := hinv.rel.sync
  have hnot : ¬(((protocol cfg mem).view s.log .ticker).done = true ∨
      ((protocol cfg mem).view s.log .ticker).starts = 0) :=
    fun h => hpoint (hown.recorded h).1
  by_cases hd : ((protocol cfg mem).view s.log .main).stage = 0
  · exact absurd (hsync.before hd).2 hnot
  · refine hsync.running ?_
    by_contra hstage
    exact hnot (.inl (hsync.after (by omega)))

/-- A ticker that works on a sample is not blocked. -/
theorem not_blocked_of_point (hinv : (protocol cfg mem).Inv s)
    (hpoint : ((protocol cfg mem).view s.log .ticker).point ≠ .idle) :
    ¬Blocked (code cfg) s .ticker := by
  intro hblocked
  obtain ⟨hactive, hdone⟩ := active_of_point hinv hpoint
  cases hthread : s.thread .ticker with
  | halt =>
    have hsafe := hinv.safe .ticker
    rw [hthread] at hsafe
    exact absurd (hsafe.symm.trans hactive) nofun
  | jump ℓ => exact hblocked.not_jump hthread
  | op r k =>
    have hguar := hinv.guar hthread
    change Guar cfg .ticker _ _ at hguar
    generalize hv : (protocol cfg mem).view s.log .ticker = v at hguar hpoint hdone
    generalize hp : Party.ticker = p at hguar
    cases hguar with
    | spin | publish => exact Kind.spinner_ne_ticker _ hp.symm
    | wait h | store h | send h => exact hpoint h.point
    | stamp => exact hblocked.not_effect hthread (.clock (0 : Ccnt w))
    | read => exact hblocked.not_effect hthread (.load _)
    | returned hd => exact absurd (hdone.symm.trans hd) nofun
    | _ => exact absurd hp nofun

/-- A spinner only takes a step while the ticker does not work on a sample. -/
theorem idle_of_spinner (hprios : 2 ≤ cfg.maxPrio) (hinv : (protocol cfg mem).Inv s) {k : Kind}
    (hok : Scheduled cfg s [k.spinner]) :
    ((protocol cfg mem).view s.log .ticker).point = .idle := by
  by_contra hpoint
  rcases hok with htimer | hok
  · exact absurd (List.singleton_inj.mp htimer) k.spinner_ne_timer
  · refine not_blocked_of_point hinv hpoint (hok.blocked ?_)
    cases k <;> simp only [Kind.spinner, prio] <;> omega

/-- What the observer has seen agrees with the state. -/
def WatchedState (cfg : Config) (mem : Var → Ccnt w) (s : State (sig w)) : Prop :=
  Watched (watch (mem .currentTime) s.log) (s.kernel.mem .currentTime)
    ((protocol cfg mem).view s.log)

theorem watchedState_append_two {κ : Kernel (sig w)} {thread : Party → Prog (sig w)} {p q : Party}
    {ev ev' : Event (sig w)} (h : Watched
      (((watch (mem .currentTime) s.log).event (p, ev)).event (q, ev')) (κ.mem .currentTime)
      (next cfg mem (next cfg mem ((protocol cfg mem).view s.log) p ev) q ev')) :
    WatchedState cfg mem ⟨thread, κ, s.log ++ [(p, ev)] ++ [(q, ev')]⟩ := by
  rw [WatchedState, watch_append, watch_append, Protocol.view_append, Protocol.view_append]
  exact h

theorem watchedState_append {κ : Kernel (sig w)} {thread : Party → Prog (sig w)} {p : Party}
    {ev : Event (sig w)} (h : Watched ((watch (mem .currentTime) s.log).event (p, ev))
      (κ.mem .currentTime) (next cfg mem ((protocol cfg mem).view s.log) p ev)) :
    WatchedState cfg mem ⟨thread, κ, s.log ++ [(p, ev)]⟩ := by
  rw [WatchedState, watch_append, Protocol.view_append]
  exact h

theorem watched_act (hprios : 2 ≤ cfg.maxPrio) (hinv : (protocol cfg mem).Inv s)
    (hwatch : WatchedState cfg mem s) {p : Party} {r : Req (sig w)} {a : r.Resp}
    {κ : Kernel (sig w)} (hok : Scheduled cfg s [p])
    (hguar : Guar cfg p ((protocol cfg mem).view s.log p) r) (heff : Effect s p r a κ) :
    Watched ((watch (mem .currentTime) s.log).event (p, .did r a)) (κ.mem .currentTime)
      (next cfg mem ((protocol cfg mem).view s.log) p (.did r a)) := by
  unfold WatchedState at hwatch
  generalize hv : (protocol cfg mem).view s.log p = v at hguar
  cases hguar with
  | @spin k =>
    cases heff
    exact hwatch.spin k.spinner_ne_ticker _
  | @publish k v t ht =>
    subst hv
    cases heff
    change Watched _ (Function.update s.kernel.mem .currentTime t .currentTime) _
    rw [Function.update_self]
    exact hwatch.publish k.spinner_ne_ticker ht (idle_of_spinner hprios hinv hok)
  | tick =>
    cases heff
    exact hwatch.silent rfl rfl rfl
  | wait h =>
    subst hv
    cases heff
    exact hwatch.wait h.point _ _
  | stamp h =>
    subst hv
    cases heff
    exact hwatch.stamp h.point _
  | read h =>
    subst hv
    cases heff
    exact hwatch.read h.point
  | @store v x ρ h hx hs t =>
    cases heff
    have hne : x ≠ .currentTime := by
      rintro rfl
      exact absurd hx nofun
    exact hwatch.store hne t rfl
  | send | returned => cases heff
  | mainClock hr hd =>
    cases heff
    exact hwatch.spin (by nofun) _
  | @mainLoad v hd x hx =>
    cases heff
    refine hwatch.silent rfl ?_ rfl
    cases x <;> first | rfl | exact absurd hx nofun
  | @mainStore v x hr hd hx t =>
    cases heff
    have hne : x ≠ .currentTime := by
      rintro rfl
      exact absurd hx nofun
    exact hwatch.store hne t rfl
  | startTicker | startSpinner | recv | stopSpinner | stopTicker => cases heff

/-- When `main` starts the ticker, it does not work on a sample. -/
theorem idle_of_start (hinv : (protocol cfg mem).Inv s) {p : Party} {ℓ : Entry w}
    (hguar : Guar cfg p ((protocol cfg mem).view s.log p) (.start .ticker ℓ)) :
    ((protocol cfg mem).view s.log .ticker).point = .idle := by
  have hown : OwnTicker cfg ((protocol cfg mem).view s.log .ticker) := hinv.own .ticker
  generalize hv : (protocol cfg mem).view s.log p = v at hguar
  generalize hq : Party.ticker = q at hguar
  cases hguar with
  | startTicker hr hd =>
    subst hv
    exact (hown.recorded (hinv.rel.sync.before hd).2).1
  | startSpinner => exact absurd hq.symm (Kind.spinner_ne_ticker _)

/-- The observer keeps up with every step that the kernel allows. -/
theorem watched_step (hprios : 2 ≤ cfg.maxPrio) (hinv : (protocol cfg mem).Inv s)
    (hwatch : WatchedState cfg mem s) (hok : Scheduled cfg s ps)
    (hstep : Step (code cfg) s ps s') : WatchedState cfg mem s' := by
  cases hstep with
  | act hp heff =>
    exact watchedState_append (watched_act hprios hinv hwatch hok (hinv.guar hp) heff)
  | @exchange p q r r' k k' a a' κ hpq hp hq hex =>
    refine watchedState_append_two ?_
    have hwatch : Watched _ _ _ := hwatch
    cases hex with
    | send | call | reply | wake =>
      refine (hwatch.quiet ?_ rfl rfl fun _ => rfl).quiet ?_ rfl rfl fun _ => rfl
      · cases p <;> rfl
      · cases q <;> rfl
  | jump hp => exact hwatch
  | @start p q ℓ k hpq hp =>
    refine watchedState_append_two ?_
    have hwatch : Watched _ _ _ := hwatch
    refine (hwatch.quiet ?_ rfl rfl fun _ => rfl).quiet ?_ rfl rfl fun hq => ?_
    · cases p <;> rfl
    · cases q <;> rfl
    · subst hq
      rw [next_of_ne hpq.symm]
      exact (idle_of_start hinv (hinv.guar hp)).symm
  | @suspend p q k hpq hp =>
    refine watchedState_append_two ?_
    have hwatch : Watched _ _ _ := hwatch
    refine (hwatch.quiet ?_ rfl rfl fun _ => rfl).quiet ?_ rfl rfl fun _ => rfl
    · cases p <;> rfl
    · cases q <;> rfl

/-- The observer has seen what the ticker has read, in every run under fixed priorities. -/
theorem watched_of_run (hprios : 2 ≤ cfg.maxPrio)
    (hrun : Run (code cfg) (Scheduled cfg) (init cfg mem) s) : WatchedState cfg mem s := by
  induction hrun with
  | refl => exact ⟨rfl, fun _ _ _ => nofun, fun _ => rfl, rfl, rfl⟩
  | tail hrun hstep ih =>
    obtain ⟨ps, hok, hstep⟩ := hstep
    exact watched_step hprios (inv_of_run hrun) ih hok hstep

end Step

end Sel4bench.Irquser
