import Sel4bench.Signal.Protocol

/-!
# The rounds of the signal benchmark

Threads that follow the protocol of `Signal.Protocol` keep it under fixed priorities, and no state
before the end of `main` is stuck. In the first two rounds the signaller only takes a step while the
waiting thread is blocked: then that thread has written `end` once for every signal, and no flag is
set (`Sel4bench.Signal.wait_of_blocked`).

## Main results

* `Sel4bench.Signal.sound` — threads that follow the protocol keep it under fixed priorities.
* `Sel4bench.Signal.progress` — no state before the end of `main` is stuck.
-/

namespace Sel4bench.Signal

open Machine Trace
open Support (Msg)

variable {w : ℕ}

/-! ### How the progress is related -/

theorem Low.signaller_ne_main (b : Low) : b.signaller ≠ .main := by cases b <;> nofun

theorem Low.signaller_ne_wait (b : Low) : b.signaller ≠ .wait := by cases b <;> nofun

theorem Low.index_lt (b : Low) : b.index < 2 := by cases b <;> decide

theorem Low.eq_of_index {b b' : Low} (h : b.index = b'.index) : b = b' := by
  cases b <;> cases b' <;> first | rfl | exact absurd h nofun

theorem writer_of_resultOf {x : Var} {p : Party} {k : ℕ} (hx : resultOf x = (p, k)) :
    writer x = p := by
  cases x <;> exact (Prod.ext_iff.mp hx).1

theorem not_idle_of_busy {v : Progress} (h : Busy v) : ¬Idle v := by
  rintro (hi | hi)
  · exact absurd (hi.symm.trans h.1) nofun
  · exact absurd (h.2.symm.trans hi) nofun

/-! What `main` expects. -/

section Status

variable {b : Low} {r d : ℕ}

theorem low_of_status (hr : r ≤ 2) (hs : startCount b.signaller r d = 1)
    (hne : status b.signaller r d ≠ .idle) : r = b.index ∧ (d = 1 ∨ d = 2 ∨ d = 3) := by
  obtain rfl | rfl | rfl : r = 0 ∨ r = 1 ∨ r = 2 := by omega
  all_goals
    match d with
    | 0 | 1 | 2 | 3 | n + 4 =>
      cases b <;> simp_all [status, startCount, lowStatus, Low.signaller, Low.index]

theorem high_of_startCount (hr : r ≤ 2) (hs : startCount .signal r d = 2) : r = 2 ∧ 2 ≤ d := by
  obtain rfl | rfl | rfl : r = 0 ∨ r = 1 ∨ r = 2 := by omega
  all_goals
    match d with
    | 0 | 1 | n + 2 => simp_all [startCount]

theorem running_of_status (hr : r ≤ 2) (hne : status .wait r d ≠ .idle) :
    r < 2 ∧ (d = 2 ∨ d = 3) ∨ r = 2 ∧ 1 ≤ d := by
  obtain rfl | rfl | rfl : r = 0 ∨ r = 1 ∨ r = 2 := by omega
  all_goals
    match d with
    | 0 | 1 | 2 | 3 | n + 4 => simp_all [status]

/-- While a low round runs, nothing is expected of its threads. -/
theorem status_of_running (hd : d = 2 ∨ d = 3) :
    status b.signaller b.index d = .live ∧ status .wait b.index d = .live := by
  obtain rfl | rfl := hd <;> cases b <;> exact ⟨rfl, rfl⟩

/-- Nothing is expected of the waiting thread once `signal` has been started again. -/
theorem status_wait_high (hd : 2 ≤ d) : status .wait 2 d = .live := by
  obtain ⟨n, rfl⟩ := Nat.exists_eq_add_of_le' hd
  simp [status]

theorem startCount_wait_high (hd : 1 ≤ d) : startCount .wait 2 d = 3 := by
  obtain ⟨n, rfl⟩ := Nat.exists_eq_add_of_le' hd
  simp [startCount]

/-- In a running round the waiting thread has been started once more than rounds are over. -/
theorem startCount_of_running (hd : d = 2 ∨ d = 3) :
    startCount b.signaller b.index d = 1 ∧ startCount .wait b.index d = b.index + 1 := by
  obtain rfl | rfl := hd <;> cases b <;> exact ⟨rfl, rfl⟩

end Status

section Sync

variable {e : Setup w} {pend pend' : Bool} {g : Party → Progress} {p : Party} {v' m' : Progress}
  {b : Low}

/-- A signaller that works on its first phase is in its round. -/
theorem Sync.round_of_busy (h : Sync e pend g) (hb : Busy (g b.signaller))
    (hs : (g b.signaller).starts = 1) : (g .main).round = b.index ∧
      ((g .main).stage = 1 ∨ Running (g .main)) := by
  have hcount := h.counted _ b.signaller_ne_main
  have hexpect := h.expected _ b.signaller_ne_main
  obtain ⟨hr, hd⟩ := low_of_status h.bound (hcount.symm.trans hs) fun hidle =>
    not_idle_of_busy hb (by rwa [hidle] at hexpect)
  have := b.index_lt
  refine ⟨hr, ?_⟩
  unfold Running
  omega

/-- A thread that has been started a second time works on the third round. -/
theorem Sync.round_of_high (h : Sync e pend g) (hs : (g .signal).starts = 2) :
    (g .main).round = 2 ∧ 2 ≤ (g .main).stage :=
  high_of_startCount h.bound ((h.counted .signal nofun).symm.trans hs)

/-- While the waiting thread works a low round is running, or the third one has begun. -/
theorem Sync.round_of_wait (h : Sync e pend g) (hb : Busy (g .wait)) :
    Running (g .main) ∨ (g .main).round = 2 ∧ 1 ≤ (g .main).stage := by
  have hexpect := h.expected .wait nofun
  have hwait := running_of_status h.bound (d := (g .main).stage) fun hidle =>
    not_idle_of_busy hb (by rwa [hidle] at hexpect)
  unfold Running
  omega

/-- The first two rounds by their numbers. -/
theorem exists_low {r : ℕ} (h : r < 2) : ∃ b : Low, r = b.index := by
  obtain h0 | h1 : r = 0 ∨ r = 1 := by omega
  · exact ⟨.late, h0⟩
  · exact ⟨.early, h1⟩

/-- A thread other than `main` goes on. -/
theorem Sync.update (h : Sync e pend g) (hp : p ≠ .main) (hstarts : v'.starts = (g p).starts)
    (hexpect : (status p (g .main).round (g .main).stage).Holds e v')
    (htoken : ∀ b : Low, (g .main).round = b.index → Running (g .main) →
      Token pend' (g .main) (Function.update g p v' b.signaller) (Function.update g p v' .wait))
    (hclear : ¬Running (g .main) → (g .main).round < 2 ∨ (g .main).stage ≤ 1 → pend' = false) :
    Sync e pend' (Function.update g p v') := by
  have hmain : Function.update g p v' .main = g .main := Function.update_of_ne hp.symm ..
  refine ⟨?_, fun q hq => ?_, fun q hq => ?_, ?_, ?_⟩
  all_goals rw [hmain]
  · exact h.bound
  · by_cases hqp : q = p
    · subst hqp
      rw [Function.update_self, hstarts]
      exact h.counted q hq
    · rw [Function.update_of_ne hqp]
      exact h.counted q hq
  · by_cases hqp : q = p
    · subst hqp
      rwa [Function.update_self]
    · rw [Function.update_of_ne hqp]
      exact h.expected q hq
  · exact htoken
  · exact hclear

/-- `main` goes on, together with a thread. -/
theorem Sync.update_main (h : Sync e pend g) (hp : p ≠ .main) (hbound : m'.round ≤ 2)
    (hkeep : ∀ q ≠ .main, q ≠ p →
      startCount q m'.round m'.stage = startCount q (g .main).round (g .main).stage ∧
        (status q m'.round m'.stage).Holds e (g q))
    (hstarts : v'.starts = startCount p m'.round m'.stage)
    (hexpect : (status p m'.round m'.stage).Holds e v')
    (htoken : ∀ b : Low, m'.round = b.index → Running m' →
      Token pend' m' (Function.update g p v' b.signaller) (Function.update g p v' .wait))
    (hclear : ¬Running m' → m'.round < 2 ∨ m'.stage ≤ 1 → pend' = false) :
    Sync e pend' (Function.update (Function.update g .main m') p v') := by
  have hmain : Function.update (Function.update g .main m') p v' .main = m' := by
    rw [Function.update_of_ne hp.symm, Function.update_self]
  have hother : ∀ q ≠ .main, Function.update (Function.update g .main m') p v' q =
      Function.update g p v' q := by
    intro q hq
    rw [Function.update_comm hp.symm, Function.update_of_ne hq]
  refine ⟨?_, fun q hq => ?_, fun q hq => ?_, fun b => ?_, ?_⟩
  all_goals rw [hmain]
  · exact hbound
  · rw [hother q hq]
    by_cases hqp : q = p
    · subst hqp
      rw [Function.update_self, hstarts]
    · rw [Function.update_of_ne hqp, (hkeep q hq hqp).1]
      exact h.counted q hq
  · rw [hother q hq]
    by_cases hqp : q = p
    · subst hqp
      rwa [Function.update_self]
    · rw [Function.update_of_ne hqp]
      exact (hkeep q hq hqp).2
  · rw [hother _ b.signaller_ne_main, hother .wait nofun]
    exact htoken b
  · exact hclear

/-! The steps of the threads. -/

/-- Nothing is expected of the threads of a running round. -/
theorem Sync.live (hr : (g .main).round = b.index) (hrun : Running (g .main)) (v : Progress) :
    (status b.signaller (g .main).round (g .main).stage).Holds e v ∧
      (status .wait (g .main).round (g .main).stage).Holds e v := by
  obtain ⟨hsg, hwait⟩ := status_of_running (b := b) hrun.2
  rw [hr, hsg, hwait]
  exact ⟨trivial, trivial⟩

theorem Sync.wait (h : Sync e true g) (hb : Busy (g .wait)) :
    Sync e false (Function.update g .wait { g .wait with waits := (g .wait).waits + 1 }) := by
  have hlow : (g .main).round < 2 ∨ (g .main).stage ≤ 1 → Running (g .main) := fun hlow => by
    by_contra hnot
    exact absurd (h.clear hnot hlow) nofun
  refine h.update nofun rfl ?_ (fun b hr hrun => ?_) fun _ _ => rfl
  · obtain hrun | ⟨hr, hd⟩ := h.round_of_wait hb
    · obtain ⟨b, hr⟩ := exists_low hrun.1
      exact (Sync.live hr hrun _).2
    · have hd' : 2 ≤ (g .main).stage := by
        by_contra hlt
        have := (hlow (.inr (by omega))).1
        omega
      rw [hr, status_wait_high hd']
      trivial
  · obtain ⟨htoken, htimes, hactive, hstage⟩ := h.token b hr hrun
    rw [Function.update_self, Function.update_of_ne b.signaller_ne_wait]
    exact ⟨by simpa [Nat.add_right_comm] using htoken, htimes, hactive, hstage⟩

theorem Sync.store (h : Sync e pend g) (hb : Busy (g .wait))
    (ht : (g .wait).times < (g .wait).waits) :
    Sync e pend (Function.update g .wait { g .wait with times := (g .wait).times + 1 }) := by
  refine h.update nofun rfl ?_ (fun b hr hrun => ?_) h.clear
  · obtain hrun | ⟨hr, hd⟩ := h.round_of_wait hb
    · obtain ⟨b, hr⟩ := exists_low hrun.1
      exact (Sync.live hr hrun _).2
    · have hexpect := h.expected .wait nofun
      rw [hr] at hexpect ⊢
      obtain hd | hd : (g .main).stage = 1 ∨ 2 ≤ (g .main).stage := by omega
      · rw [hd] at hexpect
        have := Fresh.waits hexpect
        omega
      · rw [status_wait_high hd]
        trivial
  · obtain ⟨htoken, htimes, hactive, hstage⟩ := h.token b hr hrun
    rw [Function.update_self, Function.update_of_ne b.signaller_ne_wait]
    exact ⟨htoken, Nat.le_succ_of_le htimes, hactive, hstage⟩

theorem Sync.signal (h : Sync e false g) (hr : (g .main).round = b.index)
    (hrun : Running (g .main)) : Sync e true (Function.update g b.signaller
      { g b.signaller with signals := (g b.signaller).signals + 1 }) := by
  refine h.update b.signaller_ne_main rfl (Sync.live hr hrun _).1 (fun b' hr' hrun => ?_)
    fun hnot => absurd hrun hnot
  obtain rfl : b' = b := Low.eq_of_index (hr'.symm.trans hr)
  obtain ⟨htoken, htimes, hactive, hstage⟩ := h.token b' hr hrun
  rw [Function.update_self, Function.update_of_ne b'.signaller_ne_wait.symm]
  exact ⟨congrArg (· + 1) htoken, htimes, hactive, hstage⟩

theorem Sync.load (h : Sync e pend g) (hr : (g .main).round = b.index)
    (hrun : Running (g .main)) (hlt : (g b.signaller).times < (g .wait).times) :
    Sync e pend (Function.update g b.signaller
      { g b.signaller with times := (g b.signaller).times + 1 }) := by
  refine h.update b.signaller_ne_main rfl (Sync.live hr hrun _).1 (fun b' hr' hrun => ?_) h.clear
  obtain rfl : b' = b := Low.eq_of_index (hr'.symm.trans hr)
  obtain ⟨htoken, htimes, hactive, hstage⟩ := h.token b' hr hrun
  rw [Function.update_self, Function.update_of_ne b'.signaller_ne_wait.symm]
  exact ⟨htoken, hlt, hactive, hstage⟩

theorem not_running_of_round {v : Progress} (h : v.round = 2) : ¬Running v := fun hrun => by
  have := hrun.1
  omega

theorem Sync.highRound (h : Sync e pend g) (hs : (g .signal).starts = 2)
    (ht : (g .signal).times < e.total) (hstarts : v'.starts = 2) (hbusy : Busy v') :
    Sync e pend' (Function.update g .signal v') := by
  obtain ⟨hr, hd⟩ := h.round_of_high hs
  have hnot := not_running_of_round hr
  have hexpect := h.expected .signal nofun
  refine h.update nofun (hstarts.trans hs.symm) ?_ (fun _ _ hrun => absurd hrun hnot)
    fun _ hlow => ?_
  · obtain hd | hd : (g .main).stage = 2 ∨ 3 ≤ (g .main).stage := by omega
    · rw [hr, hd]
      exact hbusy
    · rw [hr] at hexpect
      match hst : (g .main).stage, hd with
      | n + 3, _ =>
        rw [hst] at hexpect
        exact absurd hexpect ht.ne
  · omega

theorem Sync.flag (h : Sync e pend g) (hr : (g .main).round = 2) (hd : 2 ≤ (g .main).stage) :
    Sync e pend' g :=
  ⟨h.bound, h.counted, h.expected, fun _ _ hrun => absurd hrun (not_running_of_round hr),
    fun _ hlow => by omega⟩

/-! The steps of `main`. -/

theorem Sync.startSignaller (h : Sync e pend g) (hr : (g .main).round = b.index)
    (hd : (g .main).stage = 0) :
    Sync e pend (Function.update (Function.update g .main { g .main with stage := 1 }) b.signaller
      { starts := (g b.signaller).starts + 1, active := true }) := by
  have hnot : ¬Running { g .main with stage := 1 } := by simp [Running]
  have hcount := h.counted _ b.signaller_ne_main
  refine h.update_main b.signaller_ne_main h.bound (fun q hq hqb => ?_) ?_ ?_
    (fun _ _ hrun => absurd hrun hnot) fun _ _ => ?_
  · have hexpect := h.expected q hq
    rw [hr, hd] at hexpect ⊢
    cases b <;> cases q <;>
      first | exact absurd rfl hq | exact absurd rfl hqb | exact ⟨rfl, hexpect⟩
  · rw [hr, hd] at hcount
    rw [hcount, hr]
    cases b <;> rfl
  · rw [hr]
    cases b <;> exact ⟨rfl, rfl, rfl, rfl, rfl⟩
  · have := b.index_lt
    exact h.clear (by unfold Running; omega) (.inl (by omega))

theorem Sync.startWait (h : Sync e pend g) (hr : (g .main).round = b.index)
    (hd : (g .main).stage = 1) :
    Sync e pend (Function.update (Function.update g .main { g .main with stage := 2 }) .wait
      { starts := (g .wait).starts + 1, active := true }) := by
  have hlt := b.index_lt
  have hcount := h.counted .wait nofun
  have hfresh := h.expected _ b.signaller_ne_main
  have hclear := h.clear (by unfold Running; omega) (.inl (by omega))
  have hrun : Running { g .main with stage := 2 } := ⟨by simpa [hr] using hlt, .inl rfl⟩
  refine h.update_main nofun h.bound (fun q hq hqw => ?_) ?_ ?_ (fun b' hr' _ => ?_)
    fun hnot => absurd hrun hnot
  · have hexpect := h.expected q hq
    rw [hr, hd] at hexpect ⊢
    cases b <;> cases q <;>
      first
        | exact absurd rfl hq | exact absurd rfl hqw | exact ⟨rfl, hexpect⟩
        | exact ⟨rfl, trivial⟩
  · rw [hr, hd] at hcount
    rw [hcount, hr]
    cases b <;> rfl
  · rw [hr]
    cases b <;> trivial
  · obtain rfl : b' = b := Low.eq_of_index (hr'.symm.trans hr)
    have hfresh : Fresh (g b'.signaller) := by
      rw [hr, hd] at hfresh
      cases b' <;> exact hfresh
    rw [Function.update_self, Function.update_of_ne b'.signaller_ne_wait]
    exact ⟨by rw [hfresh.signals, hclear]; rfl, hfresh.times.le, ⟨hfresh.active, rfl⟩,
      by rw [hfresh.done]; rfl⟩

/-- After the first done message, the thread that has not sent it is the one that is not done. -/
theorem Token.wait_done {m sg wt : Progress} (h : Token pend m sg wt) (hd : m.stage = 3)
    (hsg : sg.done = false) : wt.done = true := by
  have hstage := h.stage
  rw [hsg, hd] at hstage
  cases hw : wt.done with
  | true => rfl
  | false => rw [hw] at hstage; exact absurd hstage nofun

@[inherit_doc Token.wait_done]
theorem Token.signaller_done {m sg wt : Progress} (h : Token pend m sg wt) (hd : m.stage = 3)
    (hwt : wt.done = false) : sg.done = true := by
  have hstage := h.stage
  rw [hwt, hd] at hstage
  cases hsg : sg.done with
  | true => rfl
  | false => rw [hsg] at hstage; exact absurd hstage nofun

/-- `main` receives the done message of one of the two threads of a low round. -/
theorem Sync.recvLow (h : Sync e pend g) (hr : (g .main).round = b.index)
    (hrun : Running (g .main)) (hp : p = b.signaller ∨ p = .wait) (hdone : (g p).done = false)
    (hpend : (g .main).stage = 3 → pend = false) :
    Sync e pend (Function.update (Function.update g .main
      { g .main with stage := (g .main).stage + 1 }) p { g p with done := true }) := by
  obtain ⟨htoken, htimes, hactive, hstage⟩ := h.token b hr hrun
  have hne := b.signaller_ne_wait
  have hpm : p ≠ .main := by
    rintro rfl
    exact hp.elim b.signaller_ne_main.symm nofun
  have hcount := h.counted p hpm
  -- Who is done after the message.
  have hstage' : (g .main).stage + 1 = 2 + ((Function.update g p { g p with done := true }
      b.signaller).done.toNat +
        (Function.update g p { g p with done := true } .wait).done.toNat) := by
    obtain rfl | rfl := hp
    · rw [hdone] at hstage
      rw [Function.update_self, Function.update_of_ne hne.symm, hstage, Bool.toNat_true,
        Bool.toNat_false]
      omega
    · rw [hdone] at hstage
      rw [Function.update_self, Function.update_of_ne hne, hstage, Bool.toNat_true,
        Bool.toNat_false]
      omega
  refine h.update_main hpm h.bound (fun q hq hqp => ⟨?_, ?_⟩) ?_ ?_ (fun b' hr' _ => ?_)
    fun hnot hlow => ?_
  · rw [hr]
    obtain hd | hd := hrun.2 <;> rw [hd] <;> cases b <;> cases q <;> rfl
  · have hexpect := h.expected q hq
    rw [hr] at hexpect ⊢
    obtain hd | hd := hrun.2
    · rw [hd] at hexpect ⊢
      cases b <;> cases q <;> exact hexpect
    · rw [hd] at hexpect ⊢
      by_cases hq' : q = b.signaller ∨ q = .wait
      · have hqdone : (g q).done = true := by
          obtain rfl | rfl := hp <;> obtain rfl | rfl := hq'
          · exact absurd rfl hqp
          · exact (h.token b hr hrun).wait_done hd hdone
          · exact (h.token b hr hrun).signaller_done hd hdone
          · exact absurd rfl hqp
        have hidle : Idle (g q) := .inr hqdone
        cases b <;> cases q <;> first | exact hidle | exact hexpect
      · rw [not_or] at hq'
        cases b <;> cases q <;>
          first | exact absurd rfl hq'.1 | exact absurd rfl hq'.2 | exact hexpect
  · rw [hcount, hr]
    obtain hd | hd := hrun.2 <;> rw [hd] <;> cases b <;> cases p <;> rfl
  · have hidle : Idle { g p with done := true } := .inr rfl
    rw [hr]
    obtain hd | hd := hrun.2 <;> rw [hd] <;> cases b <;> obtain rfl | rfl := hp <;> trivial
  · obtain rfl : b' = b := Low.eq_of_index (hr'.symm.trans hr)
    refine ⟨?_, ?_, ?_, hstage'⟩
    · obtain rfl | rfl := hp
      · rwa [Function.update_self, Function.update_of_ne hne.symm]
      · rwa [Function.update_self, Function.update_of_ne hne]
    · obtain rfl | rfl := hp
      · rwa [Function.update_self, Function.update_of_ne hne.symm]
      · rwa [Function.update_self, Function.update_of_ne hne]
    · obtain rfl | rfl := hp
      · rwa [Function.update_self, Function.update_of_ne hne.symm]
      · rwa [Function.update_self, Function.update_of_ne hne]
  · refine hpend (hrun.2.resolve_left fun hd => hnot ⟨hrun.1, .inr ?_⟩)
    rw [hd]

theorem Sync.stopSignaller (h : Sync e pend g) (hr : (g .main).round = b.index)
    (hd : (g .main).stage = 4) :
    Sync e pend (Function.update (Function.update g .main { g .main with stage := 5 }) b.signaller
      { g b.signaller with active := false }) := by
  have hlt := b.index_lt
  have hnot : ¬Running { g .main with stage := 5 } := by simp [Running]
  have hcount := h.counted _ b.signaller_ne_main
  have hidle : Idle { g b.signaller with active := false } := .inl rfl
  refine h.update_main b.signaller_ne_main h.bound (fun q hq hqb => ?_) ?_ ?_
    (fun _ _ hrun => absurd hrun hnot)
    fun _ _ => h.clear (by unfold Running; omega) (.inl (by omega))
  · have hexpect := h.expected q hq
    rw [hr, hd] at hexpect ⊢
    cases b <;> cases q <;>
      first | exact absurd rfl hq | exact absurd rfl hqb | exact ⟨rfl, hexpect⟩
  · rw [hcount, hr, hd]
    cases b <;> rfl
  · rw [hr]
    cases b <;> exact hidle

/-- `main` stops the waiting thread of a low round, and goes to the next round. -/
theorem Sync.stopWait (h : Sync e pend g) (hr : (g .main).round = b.index)
    (hd : (g .main).stage = 5) :
    Sync e pend (Function.update (Function.update g .main
      { g .main with round := (g .main).round + 1, stage := 0 }) .wait
      { g .wait with active := false }) := by
  have hlt := b.index_lt
  have hnot : ¬Running { g .main with round := (g .main).round + 1, stage := 0 } := by
    simp [Running]
  have hcount := h.counted .wait nofun
  have hidle : Idle { g .wait with active := false } := .inl rfl
  refine h.update_main nofun (by dsimp only; omega) (fun q hq hqw => ?_) ?_ ?_
    (fun _ _ hrun => absurd hrun hnot)
    fun _ _ => h.clear (by unfold Running; omega) (.inl (by omega))
  · have hexpect := h.expected q hq
    rw [hr, hd] at hexpect
    rw [hr, hd]
    cases b <;> cases q <;>
      first | exact absurd rfl hq | exact absurd rfl hqw | exact ⟨rfl, hexpect⟩
  · rw [hcount, hr, hd]
    cases b <;> rfl
  · rw [hr]
    cases b <;> exact hidle

theorem Sync.startWaitHigh (h : Sync e pend g) (hr : (g .main).round = 2)
    (hd : (g .main).stage = 0) :
    Sync e pend (Function.update (Function.update g .main { g .main with stage := 1 }) .wait
      { starts := (g .wait).starts + 1, active := true }) := by
  have hnot : ¬Running { g .main with stage := 1 } := by simp [Running]
  have hcount := h.counted .wait nofun
  refine h.update_main nofun h.bound (fun q hq hqw => ?_) ?_ ?_
    (fun _ _ hrun => absurd hrun hnot)
    fun _ _ => h.clear (not_running_of_round hr) (.inr (by omega))
  · have hexpect := h.expected q hq
    rw [hr, hd] at hexpect
    rw [hr, hd]
    cases q <;> first | exact absurd rfl hq | exact absurd rfl hqw | exact ⟨rfl, hexpect⟩
  · rw [hcount, hr, hd]
    rfl
  · rw [hr]
    exact ⟨rfl, rfl, rfl, rfl, rfl⟩

theorem Sync.startSignal (h : Sync e pend g) (hr : (g .main).round = 2)
    (hd : (g .main).stage = 1) :
    Sync e pend (Function.update (Function.update g .main { g .main with stage := 2 }) .signal
      { starts := (g .signal).starts + 1, active := true }) := by
  have hnot : ¬Running { g .main with stage := 2 } := not_running_of_round hr
  have hcount := h.counted .signal nofun
  refine h.update_main nofun h.bound (fun q hq hqs => ?_) ?_ ?_
    (fun _ _ hrun => absurd hrun hnot) fun _ hlow => ?_
  · have hexpect := h.expected q hq
    rw [hr, hd] at hexpect
    rw [hr, hd]
    cases q <;>
      first
        | exact absurd rfl hq | exact absurd rfl hqs | exact ⟨rfl, hexpect⟩
        | exact ⟨rfl, trivial⟩
  · rw [hcount, hr, hd]
    rfl
  · rw [hr]
    exact ⟨rfl, rfl⟩
  · dsimp only at hlow
    omega

/-- `main` receives the done message of the third round. Then `signal` has taken all
measurements. -/
theorem Sync.recvHigh (h : Sync e pend g) (hr : (g .main).round = 2) (hd : (g .main).stage = 2)
    (hp : p = .signal ∨ p = .wait) (ht : (g .signal).times = e.total) :
    Sync e pend (Function.update (Function.update g .main { g .main with stage := 3 }) p
      { g p with done := true }) := by
  have hnot : ¬Running { g .main with stage := 3 } := not_running_of_round hr
  have hpm : p ≠ .main := by
    rintro rfl
    exact hp.elim nofun nofun
  have hcount := h.counted p hpm
  refine h.update_main hpm h.bound (fun q hq hqp => ?_) ?_ ?_
    (fun _ _ hrun => absurd hrun hnot) fun _ hlow => ?_
  · have hexpect := h.expected q hq
    rw [hr, hd] at hexpect
    rw [hr, hd]
    cases q <;> first | exact absurd rfl hq | exact ⟨rfl, hexpect⟩ | exact ⟨rfl, ht⟩
  · rw [hcount, hr, hd]
    obtain rfl | rfl := hp <;> rfl
  · rw [hr]
    obtain rfl | rfl := hp <;> trivial
  · dsimp only at hlow
    omega

theorem Sync.stopHigh (h : Sync e pend g) (hr : (g .main).round = 2) {d : ℕ}
    (hd : (g .main).stage = d + 3) (hp : p = .signal ∨ p = .wait) :
    Sync e pend (Function.update (Function.update g .main { g .main with stage := d + 4 }) p
      { g p with active := false }) := by
  have hnot : ¬Running { g .main with stage := d + 4 } := not_running_of_round hr
  have hpm : p ≠ .main := by
    rintro rfl
    exact hp.elim nofun nofun
  have hcount := h.counted p hpm
  have hexpect := h.expected p hpm
  refine h.update_main hpm h.bound (fun q hq hqp => ?_) ?_ ?_
    (fun _ _ hrun => absurd hrun hnot) fun _ hlow => ?_
  · have hexpect := h.expected q hq
    rw [hr, hd] at hexpect
    rw [hr, hd]
    cases q with
    | main => exact absurd rfl hq
    | wait =>
      rw [status_wait_high (by dsimp only; omega)]
      exact ⟨rfl, trivial⟩
    | signal | signalEarlyProc => exact ⟨rfl, hexpect⟩
  · rw [hcount, hr, hd]
    obtain rfl | rfl := hp <;> rfl
  · rw [hr, hd] at hexpect
    rw [hr]
    obtain rfl | rfl := hp
    · exact hexpect
    · rw [status_wait_high (by dsimp only; omega)]
      trivial
  · dsimp only at hlow
    omega

end Sync

/-! ### What the histories say -/

section Facts

variable {e : Setup w} {m : Progress} {h : Party → Hist w} {p : Party} {b : Low}
  {ev : Event (sig w)}

/-- One more event of a party, while `main` stays where it is. -/
theorem Facts.append (hf : Facts e m h)
    (hlow : ∀ b : Low, Passed m b → p = b.signaller → RecordedLow e.toConfig b (h p ++ [ev]))
    (hwritten : p = .wait → ∀ b : Low, Passed m b →
      (stops (phase (h p ++ [ev]) (b.index + 1))).length = e.runs ∧
        Timed (h p ++ [ev]) (b.index + 1))
    (hpaired : ∀ b : Low, p = b.signaller →
      loads (phase (h p ++ [ev]) 1) <+: stops (phase (h .wait) (b.index + 1)))
    (hhigh : p = .signal → m.round = 2 → 3 ≤ m.stage → RecordedHigh e.toConfig (h p ++ [ev]))
    (hover : p = .signalEarlyProc → ∀ o ∈ overheads (h p ++ [ev]),
      (0 < m.round ∨ 0 < m.stage) ∧ lastStore Var.overheadMin (h .main) = some o)
    (hmain : p = .main → 0 < m.round ∨ 0 < m.stage →
      lastStore Var.overheadMin (h p ++ [ev]) = lastStore Var.overheadMin (h p)) :
    Facts e m (Function.update h p (h p ++ [ev])) := by
  have hself : ∀ q, q = p → Function.update h p (h p ++ [ev]) q = h p ++ [ev] := by
    rintro q rfl
    exact Function.update_self ..
  have hother : ∀ q, q ≠ p → Function.update h p (h p ++ [ev]) q = h q :=
    fun q hq => Function.update_of_ne hq ..
  refine ⟨fun b hb => ⟨?_, ?_⟩, fun b => ?_, fun hr hd => ?_, fun o ho => ?_⟩
  · by_cases hp : b.signaller = p
    · rw [hself _ hp]
      exact hlow b hb hp.symm
    · rw [hother _ hp]
      exact (hf.low b hb).1
  · by_cases hp : .wait = p
    · rw [hself _ hp]
      exact hwritten hp.symm b hb
    · rw [hother _ hp]
      exact (hf.low b hb).2
  · have hgrow : stops (phase (h .wait) (b.index + 1)) <+:
        stops (phase (Function.update h p (h p ++ [ev]) .wait) (b.index + 1)) := by
      by_cases hp : .wait = p
      · rw [hself _ hp, ← hp]
        exact (segment_isPrefix _ _).filterMap _
      · rw [hother _ hp]
    by_cases hp : b.signaller = p
    · rw [hself _ hp]
      exact (hpaired b hp.symm).trans hgrow
    · rw [hother _ hp]
      exact (hf.paired b).trans hgrow
  · by_cases hp : .signal = p
    · rw [hself _ hp]
      exact hhigh hp.symm hr hd
    · rw [hother _ hp]
      exact hf.high hr hd
  · have hover' : (0 < m.round ∨ 0 < m.stage) ∧ lastStore Var.overheadMin (h .main) = some o := by
      by_cases hp : .signalEarlyProc = p
      · rw [hself _ hp] at ho
        exact hover hp.symm o ho
      · rw [hother _ hp] at ho
        exact hf.overhead o ho
    refine ⟨hover'.1, ?_⟩
    by_cases hp : .main = p
    · rw [hself _ hp, hmain hp.symm hover'.1, ← hp]
      exact hover'.2
    · rw [hother _ hp]
      exact hover'.2

/-- An event that measures and stores nothing. -/
theorem Facts.silent (hf : Facts e m h) (p : Party) (hev : Silent ev) :
    Facts e m (Function.update h p (h p ++ [ev])) := by
  refine hf.append (fun b hb hp => ?_) (fun hp b hb => ?_) (fun b hp => ?_) (fun hp hr hd => ?_)
    (fun hp o ho => ?_) fun _ _ => lastStore_append (hev.store _) _
  · rw [hp]
    exact (hf.low b hb).1.append (.inr ⟨hev.clock, hev.load, hev.signal⟩) fun x _ => hev.store x
  · obtain ⟨-, hlen, htimed⟩ := hf.low b hb
    rw [hp, stops, phase, filterMap_segment_of_none _ (hev.store _)]
    exact ⟨hlen, htimed.append hev.clock (hev.store _)⟩
  · rw [hp, loads, phase, filterMap_segment_of_none _ hev.load]
    exact hf.paired b
  · rw [hp]
    exact (hf.high hr hd).append hev.clock fun x _ => hev.store x
  · rw [hp, overheads, filterMap_concat, hev.overhead, Option.toList_none, List.append_nil] at ho
    exact hf.overhead o ho

/-- The waiting thread reads the time or writes `end`, in a round that is not over. -/
theorem Facts.wait (hf : Facts e m h) (ev : Event (sig w))
    (hopen : ∀ b : Low, Passed m b → b.index + 1 < marks isStart (h .wait)) :
    Facts e m (Function.update h .wait (h .wait ++ [ev])) := by
  refine hf.append (fun b _ hp => absurd hp.symm b.signaller_ne_wait) (fun _ b hb => ?_)
    (fun b hp => absurd hp.symm b.signaller_ne_wait) nofun nofun nofun
  rw [Timed, phase, segment_concat_of_lt _ (hopen b hb)]
  exact (hf.low b hb).2

/-- The signaller of the round that is running goes on. -/
theorem Facts.low_event (hf : Facts e m h) (hr : m.round = b.index) (hrun : Running m)
    (hpaired : loads (phase (h b.signaller ++ [ev]) 1) <+: stops (phase (h .wait) (b.index + 1)))
    (hover : b = .early → ∀ o ∈ overheads (h b.signaller ++ [ev]),
      (0 < m.round ∨ 0 < m.stage) ∧ lastStore Var.overheadMin (h .main) = some o) :
    Facts e m (Function.update h b.signaller (h b.signaller ++ [ev])) := by
  have hnot : ¬Passed m b := by
    rintro (h | ⟨-, h⟩)
    · omega
    · have := hrun.2
      omega
  have hlt := hrun.1
  refine hf.append (fun b' hb' hp => ?_) (fun hp => absurd hp b.signaller_ne_wait) (fun b' hp => ?_)
    (fun _ hr' => by omega) (fun hp => hover ?_) fun hp => absurd hp b.signaller_ne_main
  · cases b <;> cases b' <;> first | exact absurd hb' hnot | exact absurd hp nofun
  · cases b <;> cases b' <;> first | exact hpaired | exact absurd hp nofun
  · cases b
    · exact absurd hp nofun
    · rfl

/-- An event of this signaller that does not read the memory. -/
theorem Facts.low_other (hf : Facts e m h) (hr : m.round = b.index) (hrun : Running m)
    (hload : stopOf ev = none) (hover : overheadOf ev = none) :
    Facts e m (Function.update h b.signaller (h b.signaller ++ [ev])) := by
  refine hf.low_event hr hrun ?_ ?_
  · rw [loads, phase, filterMap_segment_of_none _ hload]
    exact hf.paired b
  · rintro rfl o ho
    rw [overheads, filterMap_concat, hover, Option.toList_none, List.append_nil] at ho
    exact hf.overhead o ho

theorem Facts.high_event (hf : Facts e m h) (hmarks : marks isStart (h .signal) = 2)
    (hstore : ∀ x, resultOf x = (.signal, 1) → storeOf x ev = none)
    (hnot : ¬(m.round = 2 ∧ 3 ≤ m.stage)) :
    Facts e m (Function.update h .signal (h .signal ++ [ev])) := by
  have hlt : 1 < marks isStart (h .signal) := by omega
  refine hf.append (fun b hb hp => ?_) nofun (fun b hp => ?_)
    (fun _ hr hd => absurd ⟨hr, hd⟩ hnot) nofun nofun
  · cases b with
    | late => exact (hf.low .late hb).1.append (.inl hlt) hstore
    | early => exact absurd hp nofun
  · rw [phase, segment_concat_of_lt _ hlt]
    cases b with
    | late => exact hf.paired .late
    | early => exact absurd hp nofun

/-- `main` goes on to the place `m'`. -/
theorem Facts.main (hf : Facts e m h) {m' : Progress}
    (hlow : ∀ b : Low, Passed m' b → Passed m b ∨ RecordedLow e.toConfig b (h b.signaller) ∧
      (stops (phase (h .wait) (b.index + 1))).length = e.runs ∧ Timed (h .wait) (b.index + 1))
    (hhigh : m'.round = 2 → 3 ≤ m'.stage → RecordedHigh e.toConfig (h .signal))
    (hpos : 0 < m.round ∨ 0 < m.stage → 0 < m'.round ∨ 0 < m'.stage) : Facts e m' h :=
  ⟨fun b hb => (hlow b hb).elim (hf.low b) id, hf.paired, hhigh,
    fun o ho => ⟨hpos (hf.overhead o ho).1, (hf.overhead o ho).2⟩⟩

end Facts

/-! ### Views and memory -/

section Rel

variable {e : Setup w} {κ κ' : Kernel (sig w)} {g : Party → View w} {p q : Party}
  {ev ev' : Event (sig w)}

/-- The views after an event. -/
abbrev next (e : Setup w) (g : Party → View w) (p : Party) (ev : Event (sig w)) : Party → View w :=
  (protocol e).next g p ev

theorem tracks_progress : (protocol e).Tracks View.toProgress advance := fun _ _ _ => rfl

theorem records_hist : (protocol e).Records View.hist where
  init _ := rfl
  step _ _ _ := rfl

theorem next_of_ne (hq : q ≠ p) : next e g p ev q = g q :=
  Protocol.next_of_ne _ g hq ev

theorem next_comm (hpq : p ≠ q) :
    next e (next e g p ev) q ev' = next e (next e g q ev') p ev := by
  simp only [next, Protocol.next]
  rw [Function.update_of_ne hpq.symm, Function.update_of_ne hpq, Function.update_comm hpq]

/-- An event of a party other than `main` that stores nothing. -/
theorem Rel.event (h : Rel e κ g) (hp : p ≠ .main) (hev : ∀ x, storeOf x ev = none)
    (hmem : κ'.mem = κ.mem)
    (hsync : Sync e (κ'.pending .ntfn) (Function.update (fun q => (g q).toProgress) p
      (advance p (g p).toProgress ev)))
    (hfacts : Facts e (g .main).toProgress
      (Function.update (fun q => (g q).hist) p ((g p).hist ++ [ev]))) :
    Rel e κ' (next e g p ev) := by
  refine ⟨?_, ?_, ?_⟩
  · rw [tracks_progress.next]
    exact hsync
  · rw [hmem]
    exact fun x => records_hist.mem_next (h.mem x) (hev x)
  · rw [next_of_ne hp.symm, records_hist.next]
    exact hfacts

/-- A store of a party other than `main`. -/
theorem Rel.store (h : Rel e κ g) (hp : p ≠ .main) {x : Var} (hx : writer x = p) (t : Val w x)
    (hsync : Sync e (κ.pending .ntfn) (Function.update (fun q => (g q).toProgress) p
      (advance p (g p).toProgress (.did (.store x t) ()))))
    (hfacts : Facts e (g .main).toProgress
      (Function.update (fun q => (g q).hist) p ((g p).hist ++ [.did (.store x t) ()]))) :
    Rel e { κ with mem := Function.update κ.mem x t } (next e g p (.did (.store x t) ())) := by
  refine ⟨?_, ?_, ?_⟩
  · rw [tracks_progress.next]
    exact hsync
  · exact fun y => records_hist.mem_next_store t (h.mem y) fun heq => heq ▸ hx
  · rw [next_of_ne hp.symm, records_hist.next]
    exact hfacts

theorem Rel.main (h : Rel e κ g) (hev : ∀ x, storeOf x ev = none) (hadv :
    advance .main (g .main).toProgress ev = (g .main).toProgress)
    (hover : 0 < (g .main).round ∨ 0 < (g .main).stage →
      storeOf (σ := sig w) Var.overheadMin ev = none) : Rel e κ (next e g .main ev) := by
  refine ⟨?_, fun x => records_hist.mem_next (h.mem x) (hev x), ?_⟩
  · rw [tracks_progress.next, hadv, Function.update_eq_self]
    exact h.sync
  · rw [records_hist.next]
    have hmain : (next e g .main ev .main).toProgress = (g .main).toProgress := by
      rw [next, Protocol.next_self]
      exact hadv
    rw [hmain]
    exact h.facts.append (fun b _ hp => absurd hp.symm b.signaller_ne_main) nofun
      (fun b hp => absurd hp.symm b.signaller_ne_main) nofun nofun
      fun _ hpos => lastStore_append (hover hpos) _

theorem Rel.main_store (h : Rel e κ g) {x : Var} (hx : writer x = .main) (t : Val w x)
    (hover : 0 < (g .main).round ∨ 0 < (g .main).stage → x ≠ .overheadMin) :
    Rel e { κ with mem := Function.update κ.mem x t } (next e g .main (.did (.store x t) ())) := by
  refine ⟨?_, fun y => records_hist.mem_next_store t (h.mem y) fun heq => heq ▸ hx, ?_⟩
  · rw [tracks_progress.next]
    change Sync e (κ.pending .ntfn) (Function.update (fun q => (g q).toProgress) .main
      (g .main).toProgress)
    rw [Function.update_eq_self]
    exact h.sync
  · rw [records_hist.next]
    have hmain : (next e g .main (.did (.store x t) ()) .main).toProgress =
        (g .main).toProgress := by
      rw [next, Protocol.next_self]
      rfl
    rw [hmain]
    exact h.facts.append (fun b _ hp => absurd hp.symm b.signaller_ne_main) nofun
      (fun b hp => absurd hp.symm b.signaller_ne_main) nofun nofun
      fun _ hpos => lastStore_append (storeOf_store_of_ne (σ := sig w) (hover hpos) t ()) _

/-- `main` and another party take a step together. -/
theorem Rel.main_two (h : Rel e κ g) (hp : p ≠ .main) (hev : Silent ev) (hev' : Silent ev')
    (hmem : κ'.mem = κ.mem)
    (hsync : Sync e (κ'.pending .ntfn) (Function.update (Function.update (fun q => (g q).toProgress)
      .main (advance .main (g .main).toProgress ev)) p (advance p (g p).toProgress ev')))
    (hfacts : Facts e (advance .main (g .main).toProgress ev) fun q => (g q).hist) :
    Rel e κ' (next e (next e g .main ev) p ev') := by
  have hmain : (next e (next e g .main ev) p ev' .main).toProgress =
      advance .main (g .main).toProgress ev := by
    rw [next_of_ne hp.symm, next, Protocol.next_self]
    rfl
  have hfacts' := (hfacts.silent .main hev).silent p hev'
  refine ⟨?_, fun x => ?_, ?_⟩
  · rw [tracks_progress.next_two hp]
    exact hsync
  · rw [hmem]
    exact records_hist.mem_next (records_hist.mem_next (h.mem x) (hev.store x)) (hev'.store x)
  · rw [hmain, records_hist.step.next_two hp]
    rwa [Function.update_of_ne hp] at hfacts'

end Rel

/-! ### Priorities -/

section Priority

variable {e : Setup w} {F : Entry → Prog (sig w)} {s : State (sig w)} {b : Low} {v : View w}

/-- The priority that `main` has set. -/
theorem prio_of_lastStore (hinv : (protocol e).Inv s) {p : Party} {n : ℕ}
    (h : lastStore (σ := sig w) (Var.prio p) ((protocol e).view s.log .main).hist = some n) :
    prio s.kernel p = n := by
  have hmem := hinv.rel.mem (.prio p)
  rw [stored, writer, h, Option.getD_some] at hmem
  exact hmem

/-- In the first two rounds the waiting thread and `main` outrank the signaller. -/
theorem low_prios (hinv : (protocol e).Inv s) (hr : ((protocol e).view s.log .main).round < 2)
    (hd : 0 < ((protocol e).view s.log .main).stage) :
    prio s.kernel b.signaller < prio s.kernel .wait ∧
      prio s.kernel b.signaller < prio s.kernel .main := by
  have hown : OwnMain e ((protocol e).view s.log .main) := hinv.own .main
  obtain ⟨hwait, hsignal, hearly, hmain⟩ := hown.low hr (.inr hd)
  have hpos := e.prios
  have hsg : prio s.kernel b.signaller = e.maxPrio - 1 := by
    cases b with
    | late => exact prio_of_lastStore hinv hsignal
    | early => exact prio_of_lastStore hinv hearly
  have hmain' : prio s.kernel .main = e.maxPrio := by
    have hmem := hinv.rel.mem (.prio .main)
    rw [stored, writer, hmain, Option.getD_none] at hmem
    exact hmem.trans (Function.update_self ..)
  rw [hsg, prio_of_lastStore hinv hwait, hmain']
  omega

/-- In the third round `signal` outranks the waiting thread and `main`. -/
theorem high_prios (hinv : (protocol e).Inv s) (hr : ((protocol e).view s.log .main).round = 2)
    (hd : 0 < ((protocol e).view s.log .main).stage) :
    prio s.kernel .wait < prio s.kernel .signal ∧ prio s.kernel .main < prio s.kernel .signal := by
  have hown : OwnMain e ((protocol e).view s.log .main) := hinv.own .main
  obtain ⟨hwait, hsignal, hmain⟩ := hown.high hr hd
  have hpos := e.prios
  rw [prio_of_lastStore hinv hwait, prio_of_lastStore hinv hsignal, prio_of_lastStore hinv hmain]
  omega

/-- When the waiting thread is blocked it has written `end` once for every signal that has woken it,
and no flag is set, unless it has completed its rounds. -/
theorem wait_of_blocked (hinv : (protocol e).Inv s) (hblocked : Blocked F s .wait)
    (hactive : ((protocol e).view s.log .wait).active = true) :
    ((protocol e).view s.log .wait).times = ((protocol e).view s.log .wait).waits ∧
      (((protocol e).view s.log .wait).waits = e.runs ∨ s.kernel.pending .ntfn = false) := by
  have hown : OwnWait e ((protocol e).view s.log .wait) := hinv.own .wait
  have hguar : ∀ {p : Party} {r : Req (sig w)} {k : r.Resp → Prog (sig w)}, p = .wait →
      s.thread p = .op r k → Guar e p ((protocol e).view s.log p) r :=
    fun _ hp => hinv.guar hp
  generalize hv : (protocol e).view s.log .wait = v at *
  have hfinal : v.done = true → v.times = v.waits ∧
      (v.waits = e.runs ∨ s.kernel.pending .ntfn = false) := fun hd => by
    obtain ⟨hw, ht, -⟩ := hown.done hd
    exact ⟨ht.trans hw.symm, .inl hw⟩
  cases hthread : s.thread .wait with
  | halt =>
    have hsafe := hinv.safe .wait
    rw [hthread, hv] at hsafe
    obtain hi | hd := hsafe
    · exact absurd (hi.symm.trans hactive) nofun
    · exact hfinal hd
  | jump ℓ => exact absurd hthread hblocked.not_jump
  | op r k =>
    have hg := hguar rfl hthread
    rw [hv] at hg
    generalize hp : Party.wait = p at hg
    cases hg with
    | block _ ha hd => exact hfinal hd
    | wait hb ht hlt => exact ⟨ht, .inr (hblocked.pending_eq_false hthread)⟩
    | waitClock hb ht => exact absurd (Effect.clock (0 : Ccnt w)) (hblocked.not_effect hthread)
    | waitStore hb ht t =>
      exact absurd (Effect.store (σ := sig w) Var.stop t) (hblocked.not_effect hthread)
    | waitSend hb hw ht => exact ⟨ht.trans hw.symm, .inl hw⟩
    | lowClock | lowSignal | lowLoad | lowStore | lowSend =>
      exact absurd hp.symm (Low.signaller_ne_wait _)
    | _ => exact absurd hp nofun

/-- When `signal` is blocked in the third round it has taken all measurements. -/
theorem signal_of_blocked (hinv : (protocol e).Inv s) (hblocked : Blocked F s .signal)
    (hr : ((protocol e).view s.log .main).round = 2)
    (hd : ((protocol e).view s.log .main).stage = 2) :
    ((protocol e).view s.log .signal).times = e.total ∧
      RecordedHigh e.toConfig ((protocol e).view s.log .signal).hist := by
  have hsync := hinv.rel.sync
  have hcount := hsync.counted .signal nofun
  have hexpect := hsync.expected .signal nofun
  have hown : OwnHigh e ((protocol e).view s.log .signal) := (hinv.own .signal).2
  have hguar : ∀ {p : Party} {r : Req (sig w)} {k : r.Resp → Prog (sig w)}, p = .signal →
      s.thread p = .op r k → Guar e p ((protocol e).view s.log p) r :=
    fun _ hp => hinv.guar hp
  rw [hr, hd] at hcount hexpect
  have hbusy : Busy ((protocol e).view s.log .signal).toProgress := hexpect
  generalize hv : (protocol e).view s.log .signal = v at *
  have hs : v.starts = 2 := hcount
  cases hthread : s.thread .signal with
  | halt =>
    have hsafe := hinv.safe .signal
    rw [hthread, hv] at hsafe
    exact absurd hsafe (not_idle_of_busy hbusy)
  | jump ℓ => exact absurd hthread hblocked.not_jump
  | op r k =>
    have hg := hguar rfl hthread
    rw [hv] at hg
    generalize hp : Party.signal = p at hg
    cases hg with
    | block _ ha hd => exact hown hs hd
    | lowClock _ hs' | lowSignal _ hs' | lowLoad _ hs' | lowStore _ hs' | lowSend _ hs'
    | loadOverhead _ hs' => omega
    | highClock hb hs ht => exact absurd (Effect.clock (0 : Ccnt w)) (hblocked.not_effect hthread)
    | highSignal hb hs ht =>
      exact absurd (Effect.signal Ntfn.ntfn) (hblocked.not_effect hthread)
    | @highStore _ x hb hs ht hx t =>
      exact absurd (Effect.store (σ := sig w) x t) (hblocked.not_effect hthread)
    | highSend hb hs ht hrec => exact ⟨ht, hrec⟩
    | _ => exact absurd hp nofun

/-- `main` is not blocked before it has started the waiting thread. -/
theorem main_not_blocked (hinv : (protocol e).Inv s) (hblocked : Blocked F s .main)
    (hr : ((protocol e).view s.log .main).round < 2) :
    ((protocol e).view s.log .main).stage ≠ 1 := by
  intro hd
  have hguar : ∀ {p : Party} {r : Req (sig w)} {k : r.Resp → Prog (sig w)}, p = .main →
      s.thread p = .op r k → Guar e p ((protocol e).view s.log p) r :=
    fun _ hp => hinv.guar hp
  generalize hv : (protocol e).view s.log .main = v at *
  cases hthread : s.thread .main with
  | halt =>
    have hsafe := hinv.safe .main
    rw [hthread, hv] at hsafe
    have := hsafe.1
    omega
  | jump ℓ => exact absurd hthread hblocked.not_jump
  | op r k =>
    have hg := hguar rfl hthread
    rw [hv] at hg
    generalize hp : Party.main = p at hg
    cases hg with
    | startWait hr hd => exact absurd hthread (hblocked.not_start nofun)
    | lowClock | lowSignal | lowLoad | lowStore | lowSend =>
      exact absurd hp.symm (Low.signaller_ne_main _)
    | block hp' => exact absurd hp.symm hp'
    | mainClock | mainLoad | mainStore | setPriority | startSignaller | recvLow | stopSignaller
    | stopWait | startWaitHigh | startSignal | recvHigh | stopWaitHigh | stopSignal => omega
    | _ => exact absurd hp nofun

/-- When the signaller takes a step in its first phase, its round is running, the waiting thread has
written `end` once for every signal, and no flag is set. -/
theorem low_step (hinv : (protocol e).Inv s) (hok : FixedPriority F prio s [b.signaller])
    (hb : Busy ((protocol e).view s.log b.signaller).toProgress)
    (hs : ((protocol e).view s.log b.signaller).starts = 1) :
    ((protocol e).view s.log .main).round = b.index ∧
      Running ((protocol e).view s.log .main).toProgress ∧ s.kernel.pending .ntfn = false ∧
      ((protocol e).view s.log .wait).times =
        ((protocol e).view s.log b.signaller).signals := by
  have hsync := hinv.rel.sync
  obtain ⟨hr, hd⟩ := hsync.round_of_busy hb hs
  have hlt := b.index_lt
  have hr' : ((protocol e).view s.log .main).round < 2 := hr.trans_lt hlt
  have hpos : 0 < ((protocol e).view s.log .main).stage := by
    obtain hd | hd := hd
    · exact hd.symm ▸ Nat.one_pos
    · have := hd.2
      omega
  obtain ⟨hwait, hmain⟩ := low_prios (b := b) hinv hr' hpos
  have hrun := hd.resolve_left (main_not_blocked hinv (hok.blocked hmain) hr')
  obtain ⟨htoken, -, hactive, -⟩ := hsync.token b hr hrun
  obtain ⟨htimes, hpend⟩ := wait_of_blocked hinv (hok.blocked hwait) hactive.2
  have hown : OwnLow e b ((protocol e).view s.log b.signaller) := (hinv.own _).low
  have hle := (hown.counts hs).signals_le_runs
  have hpend' : s.kernel.pending .ntfn = false := by
    cases hp : s.kernel.pending .ntfn with
    | false => rfl
    | true =>
      rw [hp, Bool.toNat_true] at htoken
      have := hpend.resolve_right (by rw [hp]; nofun)
      omega
  rw [hpend', Bool.toNat_false] at htoken
  exact ⟨hr, hrun, hpend', htimes.trans htoken.symm⟩

/-- A thread that has sent its done message is only woken in the third round. -/
theorem round_of_block (hinv : (protocol e).Inv s) {p : Party} (hok : FixedPriority F prio s [p])
    (hp : p ≠ .main) (hdone : ((protocol e).view s.log p).done = true)
    (hpend : s.kernel.pending .ntfn = true) : ((protocol e).view s.log .main).round = 2 ∧
      2 ≤ ((protocol e).view s.log .main).stage := by
  have hsync := hinv.rel.sync
  have hbound : ((protocol e).view s.log .main).round ≤ 2 := hsync.bound
  by_contra hnot
  have hrun : Running ((protocol e).view s.log .main).toProgress := by
    by_contra hrun
    exact absurd ((hsync.clear hrun (by omega)).symm.trans hpend) nofun
  obtain ⟨b, hr⟩ := exists_low hrun.1
  obtain ⟨htoken, -, hactive, -⟩ := hsync.token b hr hrun
  have hpos : 0 < ((protocol e).view s.log .main).stage := by
    have := hrun.2
    omega
  -- The waiting thread has completed its rounds, so there is no signal left.
  have hwaits : ((protocol e).view s.log .wait).waits = e.runs := by
    by_cases hw : p = .wait
    · have hown : OwnWait e ((protocol e).view s.log .wait) := hinv.own .wait
      exact (hown.done (hw ▸ hdone)).1
    · obtain ⟨b', rfl⟩ : ∃ b' : Low, p = b'.signaller := by
        cases p with
        | wait => exact absurd rfl hw
        | main => exact absurd rfl hp
        | signal => exact ⟨.late, rfl⟩
        | signalEarlyProc => exact ⟨.early, rfl⟩
      have hblocked := hok.blocked (low_prios (b := b') hinv hrun.1 hpos).1
      exact (wait_of_blocked hinv hblocked hactive.2).2.resolve_right (by rw [hpend]; nofun)
  have hcount := hsync.counted _ b.signaller_ne_main
  have hown : OwnLow e b ((protocol e).view s.log b.signaller) := (hinv.own _).low
  have hs : ((protocol e).view s.log b.signaller).starts = 1 := by
    refine hcount.trans ?_
    rw [hr]
    exact (startCount_of_running hrun.2).1
  have hle := (hown.counts hs).signals_le_runs
  rw [hpend, Bool.toNat_true, hwaits] at htoken
  omega

/-- The phase that the waiting thread is in is not that of a round that is over. -/
theorem phase_open (hinv : (protocol e).Inv s)
    (hb : Busy ((protocol e).view s.log .wait).toProgress) (b : Low)
    (hpassed : Passed ((protocol e).view s.log .main).toProgress b) :
    b.index + 1 < marks isStart ((protocol e).view s.log .wait).hist := by
  have hsync := hinv.rel.sync
  have hown : OwnWait e ((protocol e).view s.log .wait) := hinv.own .wait
  have hcount := hsync.counted .wait nofun
  have hlt := b.index_lt
  rw [← hown.starts, show ((protocol e).view s.log .wait).starts = _ from hcount]
  obtain hrun | ⟨hr, hd⟩ := hsync.round_of_wait hb
  · obtain ⟨b', hr⟩ := exists_low hrun.1
    have hlow : b.index < ((protocol e).view s.log .main).round := by
      obtain h | ⟨-, h⟩ := hpassed
      · exact h
      · have := hrun.2
        omega
    have hcount' : startCount .wait ((protocol e).view s.log .main).round
        ((protocol e).view s.log .main).stage = ((protocol e).view s.log .main).round + 1 := by
      rw [hr]
      exact (startCount_of_running hrun.2).2
    omega
  · rw [hr]
    rw [startCount_wait_high hd]
    omega

/-- The values of `end` that the signaller has read, with the next one. -/
theorem paired_load (hinv : (protocol e).Inv s) (hok : FixedPriority F prio s [b.signaller])
    (hb : Busy ((protocol e).view s.log b.signaller).toProgress)
    (hs : ((protocol e).view s.log b.signaller).starts = 1)
    (ht : ((protocol e).view s.log b.signaller).times <
      ((protocol e).view s.log b.signaller).signals) :
    loads (phase ((protocol e).view s.log b.signaller).hist 1) ++ [s.kernel.mem .stop] <+:
      stops (phase ((protocol e).view s.log .wait).hist (b.index + 1)) := by
  obtain ⟨hr, hrun, hpend, htimes⟩ := low_step hinv hok hb hs
  have hsync := hinv.rel.sync
  have hown : OwnLow e b ((protocol e).view s.log b.signaller) := (hinv.own _).low
  have hownw : OwnWait e ((protocol e).view s.log .wait) := hinv.own .wait
  have hcount := hsync.counted .wait nofun
  have hstarts : ((protocol e).view s.log .wait).starts = b.index + 1 := by
    refine hcount.trans ?_
    rw [hr]
    exact (startCount_of_running hrun.2).2
  have hwritten := hownw.written
  have hlast := hownw.last (by omega)
  rw [hstarts] at hwritten hlast
  have hlen : (stops (phase ((protocol e).view s.log .wait).hist (b.index + 1))).length =
      (loads (phase ((protocol e).view s.log b.signaller).hist 1)).length + 1 := by
    have hcounts := (hown.counts hs).signals_le
    rw [hwritten, hown.read hs]
    omega
  refine concat_prefix_of_getLast (hinv.rel.facts.paired b) hlen ?_
  cases hl : (stops (phase ((protocol e).view s.log .wait).hist (b.index + 1))).getLast? with
  | none =>
    rw [List.getLast?_eq_none_iff.mp hl] at hlen
    exact absurd hlen nofun
  | some t =>
    have hm := hinv.rel.mem .stop
    rw [writer, stored, hlast, hl, Option.getD_some] at hm
    rw [hm]

end Priority

/-! ### Soundness -/

section Sound

variable {e : Setup w} {F : Entry → Prog (sig w)} {s : State (sig w)}

/-- `signal` in the third round, before it has taken all measurements. -/
theorem high_step (hinv : (protocol e).Inv s)
    (hs : ((protocol e).view s.log .signal).starts = 2)
    (ht : ((protocol e).view s.log .signal).times < e.total) :
    marks isStart ((protocol e).view s.log .signal).hist = 2 ∧
      ¬(((protocol e).view s.log .main).round = 2 ∧
        3 ≤ ((protocol e).view s.log .main).stage) := by
  have hown : OwnLow e .late ((protocol e).view s.log .signal) := (hinv.own .signal).1
  refine ⟨hown.starts.symm.trans hs, fun h => ?_⟩
  have hexpect := hinv.rel.sync.expected .signal nofun
  rw [h.1] at hexpect
  obtain ⟨n, hn⟩ := Nat.exists_eq_add_of_le' h.2
  rw [hn] at hexpect
  exact absurd hexpect ht.ne

/-! One lemma for each thing that a party may do by itself. -/

/-- A thread that is done waits on the notification. -/
theorem rel_block {p : Party} (hinv : (protocol e).Inv s) (hok : FixedPriority F prio s [p])
    (hp : p ≠ .main) (hd : ((protocol e).view s.log p).done = true)
    (hpend : s.kernel.pending .ntfn = true) :
    Rel e { s.kernel with pending := Function.update s.kernel.pending .ntfn false }
      (next e ((protocol e).view s.log) p (.did (.wait .ntfn) ())) := by
  obtain ⟨hr, hst⟩ := round_of_block hinv hok hp hd hpend
  refine hinv.rel.event hp (fun _ => rfl) rfl ?_
    (hinv.rel.facts.silent p (quiet_wait _ _).toSilent)
  rw [advance_wait_of_done hp hd, Function.update_eq_self]
  exact hinv.rel.sync.flag hr hst

theorem rel_wait (hinv : (protocol e).Inv s)
    (hb : Busy ((protocol e).view s.log .wait).toProgress)
    (hpend : s.kernel.pending .ntfn = true) :
    Rel e { s.kernel with pending := Function.update s.kernel.pending .ntfn false }
      (next e ((protocol e).view s.log) .wait (.did (.wait .ntfn) ())) := by
  refine hinv.rel.event (by decide) (fun _ => rfl) rfl ?_
    (hinv.rel.facts.silent _ (quiet_wait _ _).toSilent)
  have hsync := hinv.rel.sync
  rw [hpend] at hsync
  rw [advance_wait_of_busy hb]
  exact hsync.wait hb

theorem rel_waitClock (hinv : (protocol e).Inv s)
    (hb : Busy ((protocol e).view s.log .wait).toProgress) (t : Ccnt w) :
    Rel e s.kernel (next e ((protocol e).view s.log) .wait (.did .clock t)) := by
  refine hinv.rel.event (by decide) (fun _ => rfl) rfl ?_
    (hinv.rel.facts.wait _ (phase_open hinv hb))
  rw [advance_clock, Function.update_eq_self]
  exact hinv.rel.sync

theorem rel_waitStore (hinv : (protocol e).Inv s)
    (hb : Busy ((protocol e).view s.log .wait).toProgress)
    (ht : ((protocol e).view s.log .wait).times < ((protocol e).view s.log .wait).waits)
    (t : Ccnt w) : Rel e { s.kernel with mem := Function.update s.kernel.mem .stop t }
      (next e ((protocol e).view s.log) .wait (.did (.store .stop t) ())) :=
  hinv.rel.store (p := .wait) (x := .stop) (by decide) rfl t (hinv.rel.sync.store hb ht)
    (hinv.rel.facts.wait _ (phase_open hinv hb))

section Low

variable {b : Low} (hinv : (protocol e).Inv s) (hok : FixedPriority F prio s [b.signaller])
  (hb : Busy ((protocol e).view s.log b.signaller).toProgress)
  (hs : ((protocol e).view s.log b.signaller).starts = 1)

include hinv hok hb hs

theorem rel_lowClock (t : Ccnt w) :
    Rel e s.kernel (next e ((protocol e).view s.log) b.signaller (.did .clock t)) := by
  obtain ⟨hr, hrun, -, -⟩ := low_step hinv hok hb hs
  refine hinv.rel.event b.signaller_ne_main (fun _ => rfl) rfl ?_
    (hinv.rel.facts.low_other hr hrun rfl rfl)
  rw [advance_clock, Function.update_eq_self]
  exact hinv.rel.sync

theorem rel_lowSignal (a : Bool) :
    Rel e { s.kernel with pending := Function.update s.kernel.pending .ntfn true }
      (next e ((protocol e).view s.log) b.signaller (.did (.signal .ntfn) a)) := by
  obtain ⟨hr, hrun, hpend, -⟩ := low_step hinv hok hb hs
  refine hinv.rel.event b.signaller_ne_main (fun _ => rfl) rfl ?_
    (hinv.rel.facts.low_other hr hrun rfl rfl)
  have hsync := hinv.rel.sync
  rw [hpend] at hsync
  rw [advance_signal]
  exact hsync.signal hr hrun

/-- The signaller reads the time that `wait_fn` has written. -/
theorem rel_lowLoad (ht : ((protocol e).view s.log b.signaller).times <
      ((protocol e).view s.log b.signaller).signals) :
    Rel e s.kernel (next e ((protocol e).view s.log) b.signaller
      (.did (.load .stop) (s.kernel.mem .stop))) := by
  obtain ⟨hr, hrun, -, htimes⟩ := low_step hinv hok hb hs
  have hpaired := paired_load hinv hok hb hs ht
  have hown : OwnLow e b ((protocol e).view s.log b.signaller) := (hinv.own _).low
  refine hinv.rel.event b.signaller_ne_main (fun _ => rfl) rfl ?_
    (hinv.rel.facts.low_event hr hrun ?_ ?_)
  · rw [advance_load_stop]
    exact hinv.rel.sync.load hr hrun (ht.trans_eq htimes.symm)
  · rw [loads, phase, filterMap_segment_concat _ _ rfl (hs.symm.trans hown.starts)]
    exact hpaired
  · rintro rfl o ho
    rw [overheads, filterMap_concat] at ho
    exact hinv.rel.facts.overhead o ((List.mem_append.mp ho).resolve_right List.not_mem_nil)

theorem rel_lowStore {x : Var} (hx : resultOf x = (b.signaller, 1)) (t : Val w x) :
    Rel e { s.kernel with mem := Function.update s.kernel.mem x t }
      (next e ((protocol e).view s.log) b.signaller (.did (.store x t) ())) := by
  obtain ⟨hr, hrun, -, -⟩ := low_step hinv hok hb hs
  refine hinv.rel.store b.signaller_ne_main (writer_of_resultOf hx) t ?_
    (hinv.rel.facts.low_other hr hrun rfl rfl)
  rw [advance_store_low hx, Function.update_eq_self]
  exact hinv.rel.sync

end Low

/-- `low_prio_signal_early_proc_fn` reads the overhead that `main` has stored. -/
theorem rel_loadOverhead (hinv : (protocol e).Inv s)
    (hok : FixedPriority F prio s [.signalEarlyProc])
    (hb : Busy ((protocol e).view s.log .signalEarlyProc).toProgress)
    (hs : ((protocol e).view s.log .signalEarlyProc).starts = 1) :
    Rel e s.kernel (next e ((protocol e).view s.log) .signalEarlyProc
      (.did (.load .overheadMin) (s.kernel.mem .overheadMin))) := by
  obtain ⟨hr, hrun, -, -⟩ := low_step (b := .early) hinv hok hb hs
  have hpos : 0 < ((protocol e).view s.log .main).stage := by
    have hstage := hrun.2
    omega
  have hmin : lastStore Var.overheadMin ((protocol e).view s.log .main).hist =
      some (s.kernel.mem .overheadMin) := by
    obtain ⟨r, -, -, hmin⟩ := OwnMain.measured (hinv.own .main) (.inr hpos)
    have hmem := hinv.rel.mem .overheadMin
    rw [stored, writer, hmin, Option.getD_some] at hmem
    rw [hmin, hmem]
  refine hinv.rel.event (by decide) (fun _ => rfl) rfl ?_
    (hinv.rel.facts.low_event (b := .early) hr hrun ?_ fun _ o ho => ?_)
  · rw [advance_load_overhead, Function.update_eq_self]
    exact hinv.rel.sync
  · rw [loads, phase, filterMap_segment_of_none _ rfl]
    exact hinv.rel.facts.paired .early
  · rw [overheads, filterMap_concat] at ho
    refine ⟨.inr hpos, ?_⟩
    obtain ho | ho := List.mem_append.mp ho
    · exact (hinv.rel.facts.overhead o ho).2
    · cases List.mem_singleton.mp ho
      exact hmin

section High

variable (hinv : (protocol e).Inv s) (hb : Busy ((protocol e).view s.log .signal).toProgress)
  (hs : ((protocol e).view s.log .signal).starts = 2)
  (ht : ((protocol e).view s.log .signal).times < e.total)

include hinv hb hs ht

/-- `signal` reads the time or signals in the third round. -/
theorem rel_high {κ : Kernel (sig w)} {ev : Event (sig w)} (hev : ∀ x, storeOf x ev = none)
    (hadv : advance .signal ((protocol e).view s.log .signal).toProgress ev =
      { ((protocol e).view s.log .signal).toProgress with
        signals := (advance .signal ((protocol e).view s.log .signal).toProgress ev).signals })
    (hmem : κ.mem = s.kernel.mem) : Rel e κ (next e ((protocol e).view s.log) .signal ev) := by
  obtain ⟨hmarks, hnot⟩ := high_step hinv hs ht
  refine hinv.rel.event (by decide) hev hmem ?_
    (hinv.rel.facts.high_event hmarks (fun x _ => hev x) hnot)
  rw [hadv]
  exact hinv.rel.sync.highRound hs ht hs hb

theorem rel_highStore {x : Var} (hx : resultOf x = (.signal, 2)) (t : Val w x) :
    Rel e { s.kernel with mem := Function.update s.kernel.mem x t }
      (next e ((protocol e).view s.log) .signal (.did (.store x t) ())) := by
  obtain ⟨hmarks, hnot⟩ := high_step hinv hs ht
  refine hinv.rel.store (p := .signal) (by decide) (writer_of_resultOf hx) t ?_
    (hinv.rel.facts.high_event hmarks (fun y hy => ?_) hnot)
  · rw [advance_store_high hx]
    exact hinv.rel.sync.highRound hs ht hs hb
  · refine storeOf_store_of_ne (σ := sig w) ?_ t ()
    rintro rfl
    exact absurd (hx.symm.trans hy) (by simp)

end High

theorem rel_effect {p : Party} {r : Req (sig w)} {a : r.Resp} {κ : Kernel (sig w)}
    (hinv : (protocol e).Inv s) (hok : FixedPriority F prio s [p])
    (hguar : Guar e p ((protocol e).view s.log p) r) (heff : Effect s p r a κ) :
    rely p ((protocol e).view s.log p) r a ∧
      Rel e κ (next e ((protocol e).view s.log) p (.did r a)) := by
  generalize hv : (protocol e).view s.log p = v at hguar
  cases hguar with
  | block hp ha hd =>
    subst hv
    cases heff with
    | wait _ hpend => exact ⟨trivial, rel_block hinv hok hp hd hpend⟩
  | wait hb ht hlt =>
    subst hv
    cases heff with
    | wait _ hpend => exact ⟨trivial, rel_wait hinv hb hpend⟩
  | waitClock hb ht =>
    subst hv
    cases heff
    exact ⟨trivial, rel_waitClock hinv hb a⟩
  | waitStore hb ht t =>
    subst hv
    cases heff
    exact ⟨trivial, rel_waitStore hinv hb ht t⟩
  | @lowClock b _ hb hs ht =>
    subst hv
    cases heff
    exact ⟨trivial, rel_lowClock hinv hok hb hs a⟩
  | @lowSignal b _ hb hs ht hlt =>
    subst hv
    obtain ⟨-, -, hpend, -⟩ := low_step hinv hok hb hs
    cases heff
    exact ⟨fun _ => hpend, rel_lowSignal hinv hok hb hs _⟩
  | @lowLoad b _ hb hs ht =>
    subst hv
    cases heff
    exact ⟨fun hp => absurd hp b.signaller_ne_main, rel_lowLoad hinv hok hb hs ht⟩
  | loadOverhead hb hs =>
    subst hv
    cases heff
    exact ⟨fun hp => absurd hp (by decide), rel_loadOverhead hinv hok hb hs⟩
  | @lowStore b _ x hb hs hx t =>
    subst hv
    cases heff
    exact ⟨trivial, rel_lowStore hinv hok hb hs hx t⟩
  | highClock hb hs ht =>
    subst hv
    cases heff
    exact ⟨trivial, rel_high hinv hb hs ht (fun _ => rfl) rfl rfl⟩
  | highSignal hb hs ht =>
    subst hv
    cases heff
    exact ⟨fun hs' => by omega, rel_high hinv hb hs ht (fun _ => rfl) rfl rfl⟩
  | @highStore _ x hb hs ht hx t =>
    subst hv
    cases heff
    exact ⟨trivial, rel_highStore hinv hb hs ht hx t⟩
  | mainClock hr hd =>
    subst hv
    cases heff
    exact ⟨trivial, hinv.rel.main (fun _ => rfl) rfl fun _ => rfl⟩
  | mainLoad hr hd i =>
    subst hv
    cases heff
    refine ⟨fun _ b hb => ?_, hinv.rel.main (fun _ => rfl) rfl fun _ => rfl⟩
    have hmem := hinv.rel.mem (.overhead i)
    rw [stored, writer, hb, Option.getD_some] at hmem
    exact hmem
  | mainStore hr hd hx hp t =>
    subst hv
    cases heff
    exact ⟨trivial, hinv.rel.main_store hx t fun hpos => absurd hpos (by omega)⟩
  | setPriority hr hd p n =>
    subst hv
    cases heff
    exact ⟨trivial, hinv.rel.main_store (x := .prio p) rfl n fun _ => by simp⟩
  | _ => cases heff

theorem rel_recvLow {b : Low} {p : Party} {κ : Kernel (sig w)} (hinv : (protocol e).Inv s)
    (hr : ((protocol e).view s.log .main).round = b.index)
    (hrun : Running ((protocol e).view s.log .main).toProgress)
    (hp : p = b.signaller ∨ p = .wait) (hdone : ((protocol e).view s.log p).done = false)
    (hpend : ((protocol e).view s.log .main).stage = 3 → s.kernel.pending .ntfn = false)
    (hrec : ((protocol e).view s.log .main).stage = 3 →
      RecordedLow e.toConfig b ((protocol e).view s.log b.signaller).hist ∧
        ((protocol e).view s.log .wait).times = e.runs ∧
        Timed ((protocol e).view s.log .wait).hist ((protocol e).view s.log .wait).starts)
    (hmem : κ.mem = s.kernel.mem) (hpending : κ.pending = s.kernel.pending) (n : ℕ) :
    Rel e κ (next e (next e ((protocol e).view s.log) p (.did (.send .ep .empty) n)) .main
      (.did (.recv .ep) (n, .empty))) := by
  have hrel := hinv.rel
  have hownw : OwnWait e ((protocol e).view s.log .wait) := hinv.own .wait
  have hcount := hrel.sync.counted .wait nofun
  have hpm : p ≠ .main := by
    rintro rfl
    exact hp.elim b.signaller_ne_main.symm nofun
  have hadv : advance p ((protocol e).view s.log p).toProgress
      (.did (.send .ep .empty) n : Event (sig w)) =
      { ((protocol e).view s.log p).toProgress with done := true } := by
    obtain rfl | rfl := hp
    · exact advance_send _ _ _ _ _
    · rfl
  rw [next_comm hpm]
  refine hrel.main_two hpm (quiet_recv _ _).toSilent (quiet_send _ _ _).toSilent hmem ?_
    (hrel.facts.main (fun b' hb' => ?_) (fun hr' => ?_) fun _ => .inr (Nat.succ_pos _))
  · rw [hadv, hpending]
    exact hrel.sync.recvLow hr hrun hp hdone hpend
  · obtain hb' | ⟨hr', hd'⟩ := hb'
    · exact .inl (.inl hb')
    · obtain rfl : b' = b := Low.eq_of_index (hr'.symm.trans hr)
      have hstage : ((protocol e).view s.log .main).stage = 3 := by
        have hrun := hrun.2
        change 4 ≤ ((protocol e).view s.log .main).stage + 1 at hd'
        omega
      obtain ⟨hrec, htimes, htimed⟩ := hrec hstage
      have hstarts : ((protocol e).view s.log .wait).starts = b'.index + 1 := by
        refine hcount.trans ?_
        rw [hr]
        exact (startCount_of_running hrun.2).2
      have hwritten := hownw.written
      rw [hstarts] at hwritten htimed
      exact .inr ⟨hrec, hwritten.trans htimes, htimed⟩
  · exact absurd hrun (not_running_of_round hr')

theorem rel_recvHigh {p : Party} {κ : Kernel (sig w)} (hinv : (protocol e).Inv s)
    (hr : ((protocol e).view s.log .main).round = 2)
    (hd : ((protocol e).view s.log .main).stage = 2) (hp : p = .signal ∨ p = .wait)
    (ht : ((protocol e).view s.log .signal).times = e.total)
    (hrec : RecordedHigh e.toConfig ((protocol e).view s.log .signal).hist)
    (hmem : κ.mem = s.kernel.mem) (hpending : κ.pending = s.kernel.pending) (n : ℕ) :
    Rel e κ (next e (next e ((protocol e).view s.log) p (.did (.send .ep .empty) n)) .main
      (.did (.recv .ep) (n, .empty))) := by
  have hrel := hinv.rel
  have hpm : p ≠ .main := by
    rintro rfl
    exact hp.elim nofun nofun
  have hadv : advance p ((protocol e).view s.log p).toProgress
      (.did (.send .ep .empty) n : Event (sig w)) =
      { ((protocol e).view s.log p).toProgress with done := true } := by
    obtain rfl | rfl := hp <;> rfl
  have hadv' : advance .main ((protocol e).view s.log .main).toProgress
      (.did (.recv .ep) (n, .empty) : Event (sig w)) =
      { ((protocol e).view s.log .main).toProgress with stage := 3 } := by
    simp only [advance, hd]
  rw [next_comm hpm]
  refine hrel.main_two hpm (quiet_recv _ _).toSilent (quiet_send _ _ _).toSilent hmem ?_
    (hrel.facts.main (fun b hb => ?_) (fun _ _ => hrec) fun _ => .inr (Nat.succ_pos _))
  · rw [hadv, hadv', hpending]
    exact hrel.sync.recvHigh hr hd hp ht
  · have hlt := b.index_lt
    exact .inl (.inl (by omega))

/-- Who may receive. -/
theorem recv_cases {p : Party} {v : View w} {c : Endpoint} (h : Guar e p v (.recv c)) :
    p = .main ∧ (Running v.toProgress ∨ v.round = 2 ∧ v.stage = 2) := by
  cases h with
  | recvLow hr hd => exact ⟨rfl, .inl ⟨hr, hd⟩⟩
  | recvHigh hr hd => exact ⟨rfl, .inr ⟨hr, hd⟩⟩

theorem rel_exchange {p q : Party} {r r' : Req (sig w)} {a : r.Resp} {a' : r'.Resp}
    {κ : Kernel (sig w)} (hinv : (protocol e).Inv s) (hok : FixedPriority F prio s [p, q])
    (hguar : Guar e p ((protocol e).view s.log p) r)
    (hguar' : Guar e q ((protocol e).view s.log q) r')
    (hex : Exchange s.kernel p q r a r' a' κ) :
    rely p ((protocol e).view s.log p) r a ∧ rely q ((protocol e).view s.log q) r' a' ∧
      Rel e κ (next e (next e ((protocol e).view s.log) p (.did r a)) q (.did r' a')) := by
  have hsync := hinv.rel.sync
  have hownw : OwnWait e ((protocol e).view s.log .wait) := hinv.own .wait
  cases hex with
  | call | reply | wake => cases hguar
  | send c m =>
    obtain ⟨rfl, hmain⟩ := recv_cases hguar'
    generalize hv : (protocol e).view s.log p = v at hguar
    cases hguar with
    | waitSend hb hw ht htimed =>
      subst hv
      refine ⟨trivial, rfl, ?_⟩
      obtain hrun | ⟨hr, hd⟩ := hmain
      · obtain ⟨b, hr⟩ := exists_low hrun.1
        have htoken := hsync.token b hr hrun
        have hown : OwnLow e b ((protocol e).view s.log b.signaller) := (hinv.own _).low
        have hs : ((protocol e).view s.log b.signaller).starts = 1 := by
          refine (hsync.counted _ b.signaller_ne_main).trans ?_
          rw [hr]
          exact (startCount_of_running hrun.2).1
        refine rel_recvLow hinv hr hrun (.inr rfl) hb.2 (fun _ => ?_)
          (fun hd => ⟨?_, ht, htimed⟩) ?_ ?_ _
        · have hle := (hown.counts hs).signals_le_runs
          have heq := htoken.token
          cases hp : s.kernel.pending .ntfn with
          | false => rfl
          | true =>
            rw [hp, Bool.toNat_true, hw] at heq
            omega
        · exact (hown.done hs (htoken.signaller_done hd hb.2)).2.2
        · rfl
        · rfl
      · obtain ⟨hwait, hmain⟩ := high_prios hinv hr (by omega)
        obtain ⟨ht, hrec⟩ := signal_of_blocked hinv (hok.blocked_of_two hwait hmain) hr hd
        exact rel_recvHigh hinv hr hd (.inr rfl) ht hrec (by rfl) (by rfl) _
    | @lowSend b _ hb hs hn ht hrec =>
      subst hv
      refine ⟨trivial, rfl, ?_⟩
      obtain ⟨hr, -⟩ := hsync.round_of_busy hb hs
      have hlt := b.index_lt
      have hrun := hmain.resolve_right fun h => by omega
      have htoken := hsync.token b hr hrun
      refine rel_recvLow hinv hr hrun (.inl rfl) hb.2 (fun hd => ?_) (fun hd => ⟨hrec, ?_⟩) ?_ ?_ _
      · have hw := (hownw.done (htoken.wait_done hd hb.2)).1
        have heq := htoken.token
        cases hp : s.kernel.pending .ntfn with
        | false => rfl
        | true =>
          rw [hp, Bool.toNat_true, hw, hn] at heq
          omega
      · exact (hownw.done (htoken.wait_done hd hb.2)).2
      · rfl
      · rfl
    | highSend hb hs ht hrec =>
      subst hv
      refine ⟨trivial, rfl, ?_⟩
      obtain ⟨hr, -⟩ := hsync.round_of_high hs
      obtain ⟨-, hd⟩ := hmain.resolve_left (not_running_of_round hr)
      exact rel_recvHigh hinv hr hd (.inl rfl) ht hrec (by rfl) (by rfl) _

/-! Starting and stopping. -/

theorem fresh_started {q : Party} (hq : q ≠ .main) {v : View w}
    (hstarts : v.starts = marks isStart v.hist) (ℓ : Entry) :
    Fresh (step q v (.started ℓ)).toProgress ∧ (step q v (.started ℓ)).starts = v.starts + 1 ∧
      marks isStart (step q v (.started ℓ)).hist = v.starts + 1 ∧
      phase (step q v (.started ℓ)).hist (v.starts + 1) = [] := by
  have hadv : advance q v.toProgress (.started ℓ : Event (sig w)) =
      { starts := v.starts + 1, active := true } := by
    cases q with
    | main => exact absurd rfl hq
    | wait | signal | signalEarlyProc => rfl
  refine ⟨?_, ?_, ?_, ?_⟩
  · rw [step_progress, hadv]
    exact ⟨rfl, rfl, rfl, rfl, rfl⟩
  · rw [step_progress, hadv]
  · rw [step_hist, marks_concat, ← hstarts]
    rfl
  · exact segment_concat_mark v.hist rfl (congrArg (· + 1) hstarts)

/-- Starting a thread ends no measurement. -/
theorem Facts.main_start {m : Progress} {h : Party → Hist w} (hf : Facts e m h) (hd : m.stage < 2) :
    Facts e { m with stage := m.stage + 1 } h := by
  refine hf.main (fun b hb => .inl ?_) (fun _ hd' => ?_) fun _ => .inr (Nat.succ_pos _)
  · obtain hb | ⟨-, hd'⟩ := hb
    · exact .inl hb
    · dsimp only at hd'
      omega
  · dsimp only at hd'
    omega

theorem rel_start_of_sync {q : Party} {ℓ : Entry} (hinv : (protocol e).Inv s) (hq : q ≠ .main)
    (hd : ((protocol e).view s.log .main).stage < 2)
    (hsync : Sync e (s.kernel.pending .ntfn) (Function.update (Function.update
      (fun p => ((protocol e).view s.log p).toProgress) .main
      { ((protocol e).view s.log .main).toProgress with
        stage := ((protocol e).view s.log .main).stage + 1 }) q
      { starts := ((protocol e).view s.log q).starts + 1, active := true })) :
    Rel e (s.kernel.cancel q) (next e (next e ((protocol e).view s.log) .main
      (.did (.start q ℓ) ())) q (.started ℓ)) := by
  have hadv : advance q ((protocol e).view s.log q).toProgress (.started ℓ : Event (sig w)) =
      { starts := ((protocol e).view s.log q).starts + 1, active := true } := by
    cases q with
    | main => exact absurd rfl hq
    | wait | signal | signalEarlyProc => rfl
  refine hinv.rel.main_two hq (quiet_start _ _ _).toSilent (silent_started ℓ) rfl ?_
    (hinv.rel.facts.main_start hd)
  rw [hadv]
  exact hsync

theorem rel_start {p q : Party} {ℓ : Entry} (hinv : (protocol e).Inv s)
    (hguar : Guar e p ((protocol e).view s.log p) (.start q ℓ)) :
    rely p ((protocol e).view s.log p) (.start q ℓ) () ∧
      AtEntry q ℓ (step q ((protocol e).view s.log q) (.started ℓ)) ∧
      Rel e (s.kernel.cancel q)
        (next e (next e ((protocol e).view s.log) p (.did (.start q ℓ) ())) q (.started ℓ)) := by
  have hsync := hinv.rel.sync
  have hownw : OwnWait e ((protocol e).view s.log .wait) := hinv.own .wait
  refine ⟨trivial, ?_⟩
  generalize hv : (protocol e).view s.log p = v at hguar
  cases hguar with
  | @startSignaller b _ hr hd hm hp =>
    subst hv
    have hown : OwnLow e b ((protocol e).view s.log b.signaller) := (hinv.own _).low
    have hcount : ((protocol e).view s.log b.signaller).starts = 0 := by
      refine (hsync.counted _ b.signaller_ne_main).trans ?_
      rw [hr, hd]
      cases b <;> rfl
    obtain ⟨hfresh, hs, hmarks, hphase⟩ :=
      fresh_started b.signaller_ne_main hown.starts b.signalFn
    rw [hcount] at hs hmarks hphase
    refine ⟨.low hfresh hs hmarks hphase,
      rel_start_of_sync hinv b.signaller_ne_main (by omega) ?_⟩
    rw [hd]
    exact hsync.startSignaller hr hd
  | startWait hr hd =>
    subst hv
    obtain ⟨b, hr⟩ := exists_low hr
    obtain ⟨hfresh, hs, hmarks, hphase⟩ :=
      fresh_started (q := .wait) nofun hownw.starts .waitFn
    refine ⟨.wait hfresh (hs.trans hmarks.symm) (hs.symm ▸ hphase),
      rel_start_of_sync hinv nofun (by omega) ?_⟩
    rw [hd]
    exact hsync.startWait hr hd
  | startWaitHigh hr hd hp =>
    subst hv
    obtain ⟨hfresh, hs, hmarks, hphase⟩ :=
      fresh_started (q := .wait) nofun hownw.starts .waitFn
    refine ⟨.wait hfresh (hs.trans hmarks.symm) (hs.symm ▸ hphase),
      rel_start_of_sync hinv nofun (by omega) ?_⟩
    rw [hd]
    exact hsync.startWaitHigh hr hd
  | startSignal hr hd =>
    subst hv
    have hown : OwnLow e .late ((protocol e).view s.log .signal) := (hinv.own .signal).1
    have hcount : ((protocol e).view s.log .signal).starts = 1 := by
      refine (hsync.counted .signal nofun).trans ?_
      rw [hr, hd]
      rfl
    obtain ⟨hfresh, hs, hmarks, hphase⟩ :=
      fresh_started (q := .signal) nofun hown.starts .highPrioSignalFn
    rw [hcount] at hs hmarks hphase
    refine ⟨.high hfresh hs hmarks hphase, rel_start_of_sync hinv nofun (by omega) ?_⟩
    rw [hd]
    exact hsync.startSignal hr hd

theorem rel_suspend_of_sync {q : Party} {m' : Progress} (hinv : (protocol e).Inv s)
    (hq : q ≠ .main)
    (hadv : advance .main ((protocol e).view s.log .main).toProgress
      (.did (.suspend q) () : Event (sig w)) = m')
    (hsync : Sync e (s.kernel.pending .ntfn) (Function.update (Function.update
      (fun p => ((protocol e).view s.log p).toProgress) .main m') q
      { ((protocol e).view s.log q).toProgress with active := false }))
    (hfacts : Facts e m' fun p => ((protocol e).view s.log p).hist) :
    rest q (step q ((protocol e).view s.log q) .stopped) ∧
      Rel e (s.kernel.cancel q) (next e (next e ((protocol e).view s.log) .main
        (.did (.suspend q) ())) q .stopped) := by
  have hadv' : advance q ((protocol e).view s.log q).toProgress (.stopped : Event (sig w)) =
      { ((protocol e).view s.log q).toProgress with active := false } := by
    cases q with
    | main => exact absurd rfl hq
    | wait | signal | signalEarlyProc => rfl
  constructor
  · have hidle : Idle (step q ((protocol e).view s.log q) .stopped).toProgress := by
      rw [step_progress, hadv']
      exact .inl rfl
    cases q with
    | main => exact absurd rfl hq
    | wait | signal | signalEarlyProc => exact hidle
  · refine hinv.rel.main_two hq (quiet_suspend _ _).toSilent quiet_stopped.toSilent rfl ?_ ?_
    · rw [hadv, hadv']
      exact hsync
    · rw [hadv]
      exact hfacts

theorem rel_suspend {p q : Party} (hinv : (protocol e).Inv s)
    (hguar : Guar e p ((protocol e).view s.log p) (.suspend q)) :
    rely p ((protocol e).view s.log p) (.suspend q) () ∧
      rest q (step q ((protocol e).view s.log q) .stopped) ∧
      Rel e (s.kernel.cancel q)
        (next e (next e ((protocol e).view s.log) p (.did (.suspend q) ())) q .stopped) := by
  have hsync := hinv.rel.sync
  have hfacts := hinv.rel.facts
  refine ⟨trivial, ?_⟩
  generalize hv : (protocol e).view s.log p = v at hguar
  cases hguar with
  | @stopSignaller b _ hr hd =>
    subst hv
    have hlt := b.index_lt
    refine rel_suspend_of_sync hinv b.signaller_ne_main ?_ (hsync.stopSignaller hr hd)
      (hfacts.main (fun b' hb => .inl ?_) (fun hr' _ => ?_) fun _ => .inr (Nat.succ_pos _))
    · simp only [advance, hd]
      rfl
    · obtain hb | ⟨hb, -⟩ := hb
      · exact .inl hb
      · exact .inr ⟨hb, hd.ge⟩
    · dsimp only at hr'
      omega
  | stopWait hr hd =>
    subst hv
    obtain ⟨b, hr'⟩ := exists_low hr
    refine rel_suspend_of_sync hinv (by decide) (if_pos hd) (hsync.stopWait hr' hd)
      (hfacts.main (fun b' hb => .inl ?_) (fun _ hd' => absurd hd' (by simp))
        fun _ => .inl (Nat.succ_pos _))
    obtain hb | ⟨-, hb⟩ := hb
    · obtain hb | hb := (Nat.lt_succ_iff.mp hb).lt_or_eq
      · exact .inl hb
      · exact .inr ⟨hb.symm, by omega⟩
    · exact absurd hb (by simp)
  | stopWaitHigh hr hd =>
    subst hv
    refine rel_suspend_of_sync hinv (by decide) ?_ (hsync.stopHigh hr (d := 0) hd (.inr rfl))
      (hfacts.main (fun b _ => .inl (.inl (b.index_lt.trans_eq hr.symm)))
        (fun _ _ => hfacts.high hr hd.ge) fun _ => .inr (Nat.succ_pos _))
    simp only [advance, hd]
    rfl
  | stopSignal hr hd =>
    subst hv
    refine rel_suspend_of_sync hinv (by decide) ?_ (hsync.stopHigh hr (d := 1) hd (.inl rfl))
      (hfacts.main (fun b _ => .inl (.inl (b.index_lt.trans_eq hr.symm)))
        (fun _ _ => hfacts.high hr (by omega)) fun _ => .inr (Nat.succ_pos _))
    simp only [advance, hd]
    rfl

/-- Threads that follow the protocol keep it under fixed priorities. -/
theorem sound (hlabel : ∀ p ℓ v, AtEntry p ℓ v → ((protocol e).spec p).Safe (F ℓ) v) :
    (protocol e).Sound F (FixedPriority F prio) where
  label := hlabel
  own := Own.did
  own_started h := h.started _
  own_stopped := Own.stopped
  effect := rel_effect
  exchange hinv hok _ := rel_exchange hinv hok
  start hinv _ _ := rel_start hinv
  suspend hinv _ _ := rel_suspend hinv

end Sound

/-! ### Progress -/

section Progress

variable {e : Setup w} {F : Entry → Prog (sig w)} {s : State (sig w)} {k : ℕ × Msg → Prog (sig w)}

/-- While `main` receives, a signaller that is at work can take a step. -/
theorem canStep_of_busy (hinv : (protocol e).Inv s) (hmain : s.thread .main = .op (.recv .ep) k)
    {b : Low} (hb : Busy ((protocol e).view s.log b.signaller).toProgress) : CanStep F s := by
  have hne := b.signaller_ne_wait
  have hnm := b.signaller_ne_main
  have hguar : ∀ {r : Req (sig w)} {k : r.Resp → Prog (sig w)},
      s.thread b.signaller = .op r k → Guar e b.signaller ((protocol e).view s.log b.signaller) r :=
    fun hp => hinv.guar hp
  cases hthread : s.thread b.signaller with
  | halt =>
    have hidle : Idle ((protocol e).view s.log b.signaller).toProgress := by
      have hsafe := hinv.safe b.signaller
      rw [hthread] at hsafe
      cases b <;> exact hsafe
    exact absurd hidle (not_idle_of_busy hb)
  | jump ℓ => exact .jump hthread
  | op r k =>
    have hg := hguar hthread
    generalize hv : (protocol e).view s.log b.signaller = v at hg hb
    generalize hp : b.signaller = p at hg hne hnm hthread
    cases hg with
    | block _ ha hd => exact absurd hd (not_busy_of_done hb)
    | lowClock | highClock => exact .act hthread (.clock (0 : Ccnt w))
    | lowSignal | highSignal => exact .act hthread (.signal _)
    | lowLoad | loadOverhead => exact .act hthread (.load _)
    | lowStore _ _ _ t => exact .act hthread (.store (σ := sig w) _ t)
    | highStore _ _ _ _ t => exact .act hthread (.store (σ := sig w) _ t)
    | lowSend => exact .exchange hthread hmain (.send _ _) hnm
    | highSend => exact .exchange hthread hmain (.send _ _) nofun
    | wait | waitClock | waitStore | waitSend => exact absurd rfl hne
    | _ => exact absurd rfl hnm

/-- While `main` receives, the waiting thread can take a step, or it has sent its done message, or
it waits for the next signal. -/
theorem wait_progress (hinv : (protocol e).Inv s) (hmain : s.thread .main = .op (.recv .ep) k)
    (hactive : ((protocol e).view s.log .wait).active = true) :
    CanStep F s ∨ ((protocol e).view s.log .wait).done = true ∨
      ((protocol e).view s.log .wait).waits < e.runs ∧ s.kernel.pending .ntfn = false := by
  have hguar : ∀ {p : Party} {r : Req (sig w)} {k : r.Resp → Prog (sig w)}, p = .wait →
      s.thread p = .op r k → Guar e p ((protocol e).view s.log p) r :=
    fun _ hp => hinv.guar hp
  generalize hv : (protocol e).view s.log .wait = v at *
  cases hthread : s.thread .wait with
  | halt =>
    have hsafe := hinv.safe .wait
    rw [hthread, hv] at hsafe
    obtain hi | hd := hsafe
    · exact absurd (hi.symm.trans hactive) nofun
    · exact .inr (.inl hd)
  | jump ℓ => exact .inl (.jump hthread)
  | op r k =>
    have hg := hguar rfl hthread
    rw [hv] at hg
    generalize hp : Party.wait = p at hg
    cases hg with
    | block _ ha hd => exact .inr (.inl hd)
    | wait hb ht hlt =>
      cases hpend : s.kernel.pending .ntfn with
      | false => exact .inr (.inr ⟨hlt, rfl⟩)
      | true => exact .inl (.act hthread (.wait _ hpend))
    | waitClock => exact .inl (.act hthread (.clock (0 : Ccnt w)))
    | waitStore _ _ t => exact .inl (.act hthread (.store (σ := sig w) .stop t))
    | waitSend => exact .inl (.exchange hthread hmain (.send _ _) nofun)
    | lowClock | lowSignal | lowLoad | lowStore | lowSend =>
      exact absurd hp.symm (Low.signaller_ne_wait _)
    | _ => exact absurd hp nofun

/-- `main` can take a step, or it receives. -/
theorem main_progress (hinv : (protocol e).Inv s) (hfin : s.thread .main ≠ .halt) :
    CanStep F s ∨ (∃ k, s.thread .main = .op (.recv .ep) k) ∧
      (Running ((protocol e).view s.log .main).toProgress ∨
        ((protocol e).view s.log .main).round = 2 ∧ ((protocol e).view s.log .main).stage = 2) := by
  have hguar : ∀ {p : Party} {r : Req (sig w)} {k : r.Resp → Prog (sig w)}, p = .main →
      s.thread p = .op r k → Guar e p ((protocol e).view s.log p) r :=
    fun _ hp => hinv.guar hp
  generalize hv : (protocol e).view s.log .main = v at *
  cases hthread : s.thread .main with
  | halt => exact absurd hthread hfin
  | jump ℓ => exact .inl (.jump hthread)
  | op r k =>
    have hg := hguar rfl hthread
    rw [hv] at hg
    generalize hp : Party.main = p at hg
    cases hg with
    | block hp' => exact absurd hp.symm hp'
    | mainClock => exact .inl (.act hthread (.clock (0 : Ccnt w)))
    | mainLoad => exact .inl (.act hthread (.load _))
    | @mainStore _ x _ _ _ _ t => exact .inl (.act hthread (.store (σ := sig w) x t))
    | setPriority _ _ p n => exact .inl (.act hthread (.store (σ := sig w) (.prio p) n))
    | @startSignaller b => exact .inl (.start hthread b.signaller_ne_main.symm)
    | startWait | startWaitHigh | startSignal => exact .inl (.start hthread nofun)
    | @stopSignaller b => exact .inl (.suspend hthread b.signaller_ne_main.symm)
    | stopWait | stopWaitHigh | stopSignal => exact .inl (.suspend hthread nofun)
    | recvLow hr hd => exact .inr ⟨⟨k, rfl⟩, .inl ⟨hr, hd⟩⟩
    | recvHigh hr hd => exact .inr ⟨⟨k, rfl⟩, .inr ⟨hr, hd⟩⟩
    | lowClock | lowSignal | lowLoad | lowStore | lowSend =>
      exact absurd hp.symm (Low.signaller_ne_main _)
    | _ => exact absurd hp nofun

/-- No state before the end of `main` is stuck. -/
theorem progress (hinv : (protocol e).Inv s) (hfin : s.thread .main ≠ .halt) : CanStep F s := by
  have hsync := hinv.rel.sync
  obtain hstep | ⟨⟨k, hmain⟩, hrun | ⟨hr, hd⟩⟩ := main_progress (F := F) hinv hfin
  · exact hstep
  · obtain ⟨b, hr⟩ := exists_low hrun.1
    obtain ⟨htoken, -, hactive, hstage⟩ := hsync.token b hr hrun
    cases hdone : ((protocol e).view s.log b.signaller).done with
    | false => exact canStep_of_busy hinv hmain ⟨hactive.1, hdone⟩
    | true =>
      obtain hstep | hwdone | ⟨hlt, hpend⟩ := wait_progress (F := F) hinv hmain hactive.2
      · exact hstep
      · rw [hdone, hwdone] at hstage
        have := hrun.2
        simp only [Bool.toNat_true] at hstage
        omega
      · -- All signals have been sent, and the flag is clear.
        have hs : ((protocol e).view s.log b.signaller).starts = 1 := by
          refine (hsync.counted _ b.signaller_ne_main).trans ?_
          rw [hr]
          exact (startCount_of_running hrun.2).1
        have hown : OwnLow e b ((protocol e).view s.log b.signaller) := (hinv.own _).low
        have hsignals := (hown.done hs hdone).1
        rw [hpend, Bool.toNat_false] at htoken
        omega
  · have hexpect := hsync.expected .signal nofun
    rw [hr, hd] at hexpect
    exact canStep_of_busy (b := .late) hinv hmain hexpect

end Progress

end Sel4bench.Signal
