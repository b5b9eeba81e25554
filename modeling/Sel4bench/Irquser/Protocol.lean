import Sel4bench.Irquser.Threads
import Sel4bench.Lib.Memory
import Sel4bench.Lib.Protocol
import Sel4bench.Lib.Trace

/-!
# The protocol of the interrupt benchmark

`main` goes through four rounds. In each it starts the ticker and a spinner, receives one message,
and stops them. What the ticker has read in all rounds is one sequence of samples, of which every
round adds the same number (`Sel4bench.Irquser.Recorded`). The protocol holds for every
interleaving; what the samples mean depends on the priorities and is shown elsewhere.

## Main definitions

* `Sel4bench.Irquser.Round`, `Sel4bench.Irquser.Results` — the rounds and their results.
* `Sel4bench.Irquser.Guar` — the requests that the parties make.
* `Sel4bench.Irquser.Own`, `Sel4bench.Irquser.Rel`, `Sel4bench.Irquser.protocol`.

## Main results

* `Sel4bench.Irquser.Own.did` — what holds of a view by itself is kept by what the protocol allows.
-/

namespace Sel4bench.Irquser

open Machine Trace

variable {w : ℕ}

/-! ### Histories -/

/-- The history of a party. -/
abbrev Hist (w : ℕ) := List (Event (sig w))

/-- The value of `*current_time` that is read in the event. -/
def timeOf : Event (sig w) → Option (Ccnt w) := loadOf (σ := sig w) .currentTime

/-- The argument `overhead` with which the ticker is started. -/
def overheadOf : Event (sig w) → Option (Ccnt w)
  | .started (.tickerFnEp _ overhead) => some overhead
  | _ => none

/-- The party has been woken in the event. -/
def isWait : Event (sig w) → Bool
  | .did (.wait _) _ => true
  | _ => false

/-- An interrupt is raised in the event. -/
def isSignal : Event (sig w) → Bool
  | .did (.signal _) _ => true
  | _ => false

/-- The values of `*current_time` that were read. -/
def loads (h : Hist w) : List (Ccnt w) := h.filterMap timeOf

/-- The overheads that the ticker was given. -/
def overheads (h : Hist w) : List (Ccnt w) := h.filterMap overheadOf

/-- How often the party was woken. -/
def waits (h : Hist w) : ℕ := h.countP isWait

/-- How many interrupts were raised. -/
def signals (h : Hist w) : ℕ := h.countP isSignal

/-! ### Rounds -/

/-- The rounds: late or early processing, with a spinner of either kind. -/
inductive Round
  | late (k : Kind)
  | early (k : Kind)

/-- The number of the round. -/
def Round.index : Round → ℕ
  | .late .thread => 0
  | .early .thread => 1
  | .late .process => 2
  | .early .process => 3

/-- Where the spinner of the round runs. -/
def Round.kind : Round → Kind
  | .late k | .early k => k

/-- The function of the ticker in the round. -/
def Round.ticker (overhead : Ccnt w) : Round → Entry w
  | .late k => .tickerFn k
  | .early k => .tickerFnEp k overhead

theorem Round.index_injective : Function.Injective Round.index := by
  rintro (⟨⟨⟩⟩ | ⟨⟨⟩⟩) (⟨⟨⟩⟩ | ⟨⟨⟩⟩) h <;> first | rfl | exact absurd h (by decide)

theorem Round.index_lt (ρ : Round) : ρ.index < 4 := by
  rcases ρ with (⟨⟨⟩⟩ | ⟨⟨⟩⟩) <;> decide

/-- The round that stores the variable, and `none` for the variables of `main` and the time. -/
def roundOf : Var → Option Round
  | .results k _ => some (.late k)
  | .epSum k | .epSum2 k | .epNum k => some (.early k)
  | _ => none

section Config

variable (cfg : Config)

/-- The first sample of a round. -/
def Round.first (ρ : Round) : ℕ := ρ.index * cfg.runs

/-- The samples of a round, as differences of words. -/
def Round.readings (ρ : Round) (r : Readings w) : Readings w where
  start _ := 0
  stop i := wordElapsed cfg.wordBits (r.start (ρ.first cfg + i)) (r.stop (ρ.first cfg + i))

/-- The results of a round, from all samples `r`. -/
def Results (r : Readings w) (h : Hist w) : Round → Prop
  | .late k => ∀ i < cfg.runs,
    lastStore (σ := sig w) (.results k i) h = some ((Round.late k).readings cfg r |>.stop i)
  | .early k => ∃ o ∈ overheads h,
    let res := earlyRun cfg.wordBits cfg.runs cfg.ignored ((Round.early k).readings cfg r) o
    lastStore (σ := sig w) (.epSum k) h = some res.sum ∧
      lastStore (σ := sig w) (.epSum2 k) h = some res.sum2 ∧
      lastStore (σ := sig w) (.epNum k) h = some res.num

/-- The ticker has taken `n` samples: it was woken for each, and it has read the times `r.stop`, and
the times `r.start` in `*current_time`. -/
structure Sampled (n : ℕ) (r : Readings w) (h : Hist w) : Prop where
  waits : waits h = n
  clocks : clocks h = (List.range n).map r.stop
  loads : loads h = (List.range n).map r.start

/-- The ticker has completed `n` rounds. -/
def Recorded (n : ℕ) (h : Hist w) : Prop :=
  ∃ r, Sampled (n * cfg.runs) r h ∧ ∀ ρ : Round, ρ.index < n → Results cfg r h ρ

/-- `main` has measured the overhead and stored the least one. -/
def Measured (h : Hist w) : Prop := ∃ r : Readings w,
  clocks h = (List.range cfg.runs).flatMap (fun i => [r.start i, r.stop i]) ∧
  (∀ i < cfg.runs, lastStore (σ := sig w) (.overheads i) h = some (r.stop i - r.start i)) ∧
  lastStore (σ := sig w) .overheadMin h =
    some (getMinOverhead (fun i => r.stop i - r.start i) cfg.runs)

end Config

/-! ### The protocol -/

/-- Where the ticker is in a round of its loop. -/
inductive Point
  | idle
  /-- It has been woken. -/
  | woken
  /-- It has read the time. -/
  | stamped
deriving DecidableEq

/-- How far a party is. -/
structure Progress where
  /-- How often it has been started. -/
  starts : ℕ := 0
  active : Bool := false
  point : Point := .idle
  /-- It has sent its done message. -/
  done : Bool := false
  /-- The round of `main`. -/
  round : ℕ := 0
  /-- Where `main` is in its round: the threads that it has started, the done message that it has
  received, and the spinner that it has stopped. -/
  stage : ℕ := 0

/-- What a party knows: how far it is, and its history. -/
structure View (w : ℕ) extends Progress where
  hist : Hist w := []

/-- The progress by an event. -/
def advance (p : Party) (v : Progress) (ev : Event (sig w)) : Progress :=
  match p, ev with
  | .main, .did (.start _ _) _ => { v with stage := v.stage + 1 }
  | .main, .did (.recv _) _ => { v with stage := v.stage + 1 }
  | .main, .did (.suspend _) _ =>
    if v.stage = 4 then { v with round := v.round + 1, stage := 0 }
    else { v with stage := v.stage + 1 }
  | .ticker, .started _ => { starts := v.starts + 1, active := true }
  | .ticker, .stopped => { v with active := false }
  | .ticker, .did (.wait _) _ => { v with point := .woken }
  | .ticker, .did .clock _ => { v with point := .stamped }
  | .ticker, .did (.load _) _ => { v with point := .idle }
  | .ticker, .did (.send _ _) _ => { v with done := true }
  | _, _ => v

/-- The view after an event. -/
def step (p : Party) (v : View w) (ev : Event (sig w)) : View w where
  toProgress := advance p v.toProgress ev
  hist := v.hist ++ [ev]

@[simp] theorem step_hist (p : Party) (v : View w) (ev : Event (sig w)) :
    (step p v ev).hist = v.hist ++ [ev] := rfl

@[simp] theorem step_progress (p : Party) (v : View w) (ev : Event (sig w)) :
    (step p v ev).toProgress = advance p v.toProgress ev := rfl

/-- The party that writes a variable, `*current_time` excepted. -/
def writer : Var → Party
  | .currentTime => .spinner
  | .overheads _ | .overheadMin => .main
  | .results _ _ | .epSum _ | .epSum2 _ | .epNum _ => .ticker

/-- The ticker is at work, at this point. -/
structure At (point : Point) (v : Progress) : Prop where
  active : v.active = true
  done : v.done = false
  point : v.point = point

section Protocol

variable (cfg : Config)

/-- The requests that a party may make. -/
inductive Guar : Party → View w → Req (sig w) → Prop
  | spin {k : Kind} {v : View w} : Guar k.spinner v .clock
  | publish {k : Kind} {v : View w} {t : Ccnt w} (ht : (clocks v.hist).getLast? = some t) :
    Guar k.spinner v (.store .currentTime t)
  | tick {v : View w} : Guar .timer v (.signal .timerSignal)
  | wait {v : View w} (h : At .idle v.toProgress) : Guar .ticker v (.wait .timerSignal)
  | stamp {v : View w} (h : At .woken v.toProgress) : Guar .ticker v .clock
  | read {v : View w} (h : At .stamped v.toProgress) : Guar .ticker v (.load .currentTime)
  | store {v : View w} {x : Var} {ρ : Round} (h : At .idle v.toProgress) (hx : roundOf x = some ρ)
    (hs : v.starts = ρ.index + 1) (t : Ccnt w) : Guar .ticker v (.store x t)
  | send {v : View w} (h : At .idle v.toProgress) (hrec : Recorded cfg v.starts v.hist) :
    Guar .ticker v (.send .ep .empty)
  /-- The fault of a thread that returns. -/
  | returned {v : View w} (hd : v.done = true) : Guar .ticker v (.sendCall .ep .fault)
  | mainClock {v : View w} (hr : v.round = 0) (hd : v.stage = 0) : Guar .main v .clock
  | mainLoad {v : View w} (hd : v.stage = 0) {x : Var} (hx : writer x = .main) :
    Guar .main v (.load x)
  | mainStore {v : View w} {x : Var} (hr : v.round = 0) (hd : v.stage = 0)
    (hx : writer x = .main) (t : Ccnt w) : Guar .main v (.store x t)
  | startTicker {v : View w} {ρ : Round} {o m : Ccnt w} (hr : v.round = ρ.index)
    (hd : v.stage = 0) (hm : Measured cfg v.hist)
    (hmin : lastStore (σ := sig w) .overheadMin v.hist = some m)
    (ho : o = wordArg cfg.wordBits m) : Guar .main v (.start .ticker (ρ.ticker o))
  | startSpinner {v : View w} {ρ : Round} (hr : v.round = ρ.index) (hd : v.stage = 1) :
    Guar .main v (.start ρ.kind.spinner .spinnerFn)
  | recv {v : View w} (hd : v.stage = 2) : Guar .main v (.recv .ep)
  | stopSpinner {v : View w} {ρ : Round} (hr : v.round = ρ.index) (hlt : v.round < 3)
    (hd : v.stage = 3) : Guar .main v (.suspend ρ.kind.spinner)
  | stopTicker {v : View w} (hlt : v.round < 3) (hd : v.stage = 4) :
    Guar .main v (.suspend .ticker)

/-- The answers that a party counts on: there are no fault messages, nobody receives the fault of a
thread that returns, and `main` reads what it has written. -/
def rely : Party → View w → (r : Req (sig w)) → r.Resp → Prop
  | _, _, .recv _, a => a.2 = .empty
  | _, _, .sendCall _ _, _ => False
  | p, v, .load x, a => p = .main → ∀ b, lastStore (σ := sig w) x v.hist = some b → a = b
  | _, _, _, _ => True

/-- The views in which a party may be at rest. -/
def rest : Party → View w → Prop
  | .main, v => v.round = 3 ∧ v.stage = 3
  | .ticker, v => v.active = false
  | .timer, _ => False
  | _, _ => True

/-- The view at an entry point. -/
inductive AtEntry : Party → Entry w → View w → Prop
  | spinner {k : Kind} {v : View w} : AtEntry k.spinner .spinnerFn v
  | timer {v : View w} : AtEntry .timer .timer v
  | ticker {ρ : Round} {o : Ccnt w} {v : View w} (h : At .idle v.toProgress)
    (hs : v.starts = ρ.index + 1) (hrec : Recorded cfg ρ.index v.hist)
    (ho : ∀ k, ρ = .early k → o ∈ overheads v.hist) : AtEntry .ticker (ρ.ticker o) v

/-! ### What holds of the parties -/

/-- What holds of the view of the ticker. -/
structure OwnTicker (v : View w) : Prop where
  recorded : v.done = true ∨ v.starts = 0 → v.point = .idle ∧ Recorded cfg v.starts v.hist
  started : v.active = true → 0 < v.starts

omit cfg in
/-- `main` has left its prologue. -/
def Opened (main : Progress) : Prop := 0 < main.round ∨ 0 < main.stage

/-- What holds of the view of `main`. -/
structure OwnMain (v : View w) : Prop where
  measured : Opened v.toProgress → Measured cfg v.hist
  stage : v.stage ≤ 4
  round : v.round ≤ 3
  last : v.round = 3 → v.stage ≤ 3

/-- What holds of the view of a party by itself. -/
def Own : Party → View w → Prop
  | .main, v => OwnMain cfg v
  | .ticker, v => OwnTicker cfg v
  | _, _ => True

/-- What `main` knows of the ticker. -/
structure Sync (main ticker : Progress) : Prop where
  starts : ticker.starts = main.round + (if main.stage = 0 then 0 else 1)
  before : main.stage = 0 → ticker.active = false ∧ (ticker.done = true ∨ ticker.starts = 0)
  running : main.stage = 1 ∨ main.stage = 2 → ticker.active = true ∧ ticker.done = false
  after : 3 ≤ main.stage → ticker.done = true

/-- How the memory, the flag and the arguments of the ticker depend on the histories: every waking
of the ticker takes an interrupt of its own. -/
structure Data (mem : Var → Ccnt w) (κ : Kernel (sig w)) (g : Party → View w) : Prop where
  mem : ∀ x ≠ .currentTime, κ.mem x = stored (σ := sig w) mem x (g (writer x)).hist
  flag : waits (g .ticker).hist + (κ.pending .timerSignal).toNat ≤ signals (g .timer).hist
  overhead : ∀ o ∈ overheads (g .ticker).hist, Opened (g .main).toProgress ∧
    ∃ m, lastStore (σ := sig w) .overheadMin (g .main).hist = some m ∧ o = wordArg cfg.wordBits m

/-- How the views of the parties are related. -/
structure Rel (mem : Var → Ccnt w) (κ : Kernel (sig w)) (g : Party → View w) : Prop where
  sync : Sync (g .main).toProgress (g .ticker).toProgress
  data : Data cfg mem κ g

/-- The protocol of the parties. -/
def protocol (mem : Var → Ccnt w) : Protocol (sig w) (View w) where
  spec p :=
    { init := {}
      step := step p
      guar := Guar cfg p
      rely := rely p
      rest := rest p
      atLabel := AtEntry cfg p }
  own := Own cfg
  rel := Rel cfg mem

end Protocol

/-! ### Histories that grow -/

section Append

variable {cfg : Config} {r r' : Readings w} {h : Hist w} {ev : Event (sig w)} {ρ : Round} {n : ℕ}

/-- The results of a round only depend on its samples. -/
theorem Results.congr (hres : Results cfg r h ρ) (hr : ∀ i < ρ.first cfg + cfg.runs,
    r'.start i = r.start i ∧ r'.stop i = r.stop i) : Results cfg r' h ρ := by
  have hstop : ∀ i < cfg.runs, (ρ.readings cfg r').stop i = (ρ.readings cfg r).stop i := by
    intro i hi
    obtain ⟨hstart, hstop⟩ := hr (ρ.first cfg + i) (by omega)
    simp only [Round.readings, hstart, hstop]
  cases ρ with
  | late k => exact fun i hi => (hres i hi).trans (congrArg some (hstop i hi).symm)
  | early k =>
    obtain ⟨o, ho, hres⟩ := hres
    have heq : earlyRun cfg.wordBits cfg.runs cfg.ignored ((Round.early k).readings cfg r') o =
        earlyRun cfg.wordBits cfg.runs cfg.ignored ((Round.early k).readings cfg r) o := by
      simp only [earlyRun, datacollectLoop_congr cfg.ignored o fun i hi => ⟨rfl, hstop i hi⟩]
      rfl
    exact ⟨o, ho, heq ▸ hres⟩

/-- A round keeps its results when none of its variables is written. -/
theorem Results.append (hres : Results cfg r h ρ)
    (hev : ∀ x, roundOf x = some ρ → storeOf (σ := sig w) x ev = none) :
    Results cfg r (h ++ [ev]) ρ := by
  cases ρ with
  | late k => exact fun i hi => (lastStore_append (hev _ rfl) h).trans (hres i hi)
  | early k =>
    obtain ⟨o, ho, hsum, hsum2, hnum⟩ := hres
    refine ⟨o, ?_, (lastStore_append (hev _ rfl) h).trans hsum,
      (lastStore_append (hev _ rfl) h).trans hsum2, (lastStore_append (hev _ rfl) h).trans hnum⟩
    rw [overheads, filterMap_concat]
    exact List.mem_append_left _ ho

theorem Sampled.append (hs : Sampled n r h) (hwait : isWait ev = false) (hclock : clockOf ev = none)
    (hload : timeOf ev = none) : Sampled n r (h ++ [ev]) := by
  refine ⟨(countP_concat isWait h ev).trans ?_, (clocks_append_of_none h hclock).trans hs.clocks,
    (filterMap_concat timeOf h ev).trans ?_⟩
  · rw [hwait, Bool.toNat_false, Nat.add_zero]
    exact hs.waits
  · rw [hload, Option.toList_none, List.append_nil]
    exact hs.loads

/-- The ticker keeps what it has recorded when it measures nothing and stores nothing. -/
theorem Recorded.append (hrec : Recorded cfg n h) (hwait : isWait ev = false)
    (hclock : clockOf ev = none) (hload : timeOf ev = none)
    (hstore : ∀ x, storeOf (σ := sig w) x ev = none) : Recorded cfg n (h ++ [ev]) := by
  obtain ⟨r, hs, hres⟩ := hrec
  exact ⟨r, hs.append hwait hclock hload, fun ρ hρ => (hres ρ hρ).append fun x _ => hstore x⟩

theorem Measured.append (hm : Measured cfg h) (hclock : clockOf ev = none)
    (hstore : ∀ x, storeOf (σ := sig w) x ev = none) : Measured cfg (h ++ [ev]) := by
  obtain ⟨r, hclocks, hover, hmin⟩ := hm
  refine ⟨r, ?_, fun i hi => (lastStore_append (hstore _) h).trans (hover i hi),
    (lastStore_append (hstore _) h).trans hmin⟩
  exact (clocks_append_of_none h hclock).trans hclocks

/-- Before its first start the ticker has recorded no round. -/
theorem recorded_nil (cfg : Config) : Recorded cfg 0 ([] : Hist w) := by
  refine ⟨⟨fun _ => 0, fun _ => 0⟩, ?_, fun ρ hρ => absurd hρ (Nat.not_lt_zero _)⟩
  rw [Nat.zero_mul]
  exact ⟨rfl, rfl, rfl⟩

end Append

/-! ### What a party knows by itself -/

section Own

variable {cfg : Config} {v : View w} {ev : Event (sig w)}

/-- The ticker at work, after an event of its round. -/
theorem OwnTicker.busy (h : OwnTicker cfg v) (hactive : v.active = true)
    (hstarts : (advance .ticker v.toProgress ev).starts = v.starts)
    (hdone : (advance .ticker v.toProgress ev).done = false) :
    OwnTicker cfg (step .ticker v ev) where
  recorded hd := by
    have hpos := h.started hactive
    rw [step_progress, hdone, hstarts] at hd
    rcases hd with hd | hd
    · exact absurd hd nofun
    · omega
  started _ := by
    rw [step_progress, hstarts]
    exact h.started hactive

/-- `main` after an event that measures and stores nothing. -/
theorem OwnMain.quiet (hclock : clockOf ev = none)
    (hstore : ∀ x, storeOf (σ := sig w) x ev = none) (hm : Measured cfg v.hist)
    (hstage : (advance .main v.toProgress ev).stage ≤ 4)
    (hround : (advance .main v.toProgress ev).round ≤ 3)
    (hlast : (advance .main v.toProgress ev).round = 3 →
      (advance .main v.toProgress ev).stage ≤ 3) : OwnMain cfg (step .main v ev) where
  measured _ := hm.append hclock hstore
  stage := hstage
  round := hround
  last := hlast

theorem OwnMain.prologue (hr : v.round = 0) (hd : v.stage = 0)
    (hadv : advance .main v.toProgress ev = v.toProgress) : OwnMain cfg (step .main v ev) where
  measured hpos := by
    rw [Opened, step_progress, hadv] at hpos
    omega
  stage := by rw [step_progress, hadv, hd]; omega
  round := by rw [step_progress, hadv, hr]; omega
  last hr' := by rw [step_progress, hadv, hd]; omega

theorem Kind.spinner_ne_main (k : Kind) : k.spinner ≠ .main := by cases k <;> nofun

theorem Kind.spinner_ne_ticker (k : Kind) : k.spinner ≠ .ticker := by cases k <;> nofun

theorem Kind.spinner_ne_timer (k : Kind) : k.spinner ≠ .timer := by cases k <;> nofun

/-- Of a spinner nothing is claimed. -/
theorem own_spinner (k : Kind) (v : View w) : Own cfg k.spinner v := by cases k <;> trivial

theorem Own.did {p : Party} {r : Req (sig w)} {a : r.Resp} (h : Own cfg p v)
    (hguar : Guar cfg p v r) (hrely : rely p v r a) : Own cfg p (step p v (.did r a)) := by
  cases hguar with
  | spin | publish => exact own_spinner _ _
  | tick => trivial
  | wait hat | stamp hat | read hat | store hat =>
    exact OwnTicker.busy h hat.active rfl hat.done
  | send hat hrec =>
    have hpos := OwnTicker.started h hat.active
    exact ⟨fun _ => ⟨hat.point, hrec.append rfl rfl rfl fun _ => rfl⟩, fun _ => hpos⟩
  | returned => exact hrely.elim
  | mainClock hr hd | mainStore hr hd => exact OwnMain.prologue hr hd rfl
  | mainLoad hd hx =>
    have h : OwnMain cfg v := h
    exact ⟨fun hpos => (h.measured hpos).append rfl fun _ => rfl, h.stage, h.round, h.last⟩
  | @startTicker v ρ o m hr hd hm hmin ho =>
    have hlt := ρ.index_lt
    refine OwnMain.quiet rfl (fun _ => rfl) hm ?_ ?_ ?_
    all_goals
      simp only [advance]
      omega
  | startSpinner hr hd =>
    refine OwnMain.quiet rfl (fun _ => rfl) (OwnMain.measured h (.inr (by omega))) ?_
      (OwnMain.round h) ?_
    all_goals
      simp only [advance]
      omega
  | recv hd =>
    refine OwnMain.quiet rfl (fun _ => rfl) (OwnMain.measured h (.inr (by omega))) ?_
      (OwnMain.round h) ?_
    all_goals
      simp only [advance]
      omega
  | stopSpinner hr hlt hd =>
    refine OwnMain.quiet rfl (fun _ => rfl) (OwnMain.measured h (.inr (by omega))) ?_ ?_ ?_
    all_goals
      simp only [advance, hd]
      simp
      try omega
  | stopTicker hlt hd =>
    refine OwnMain.quiet rfl (fun _ => rfl) (OwnMain.measured h (.inr (by omega))) ?_ ?_ ?_
    all_goals
      simp only [advance, hd]
      simp
      try omega

theorem Own.started {p : Party} (h : Own cfg p v) (ℓ : Entry w) :
    Own cfg p (step p v (.started ℓ)) := by
  cases p with
  | main =>
    have h : OwnMain cfg v := h
    exact ⟨fun hpos => (h.measured hpos).append rfl fun _ => rfl, h.stage, h.round, h.last⟩
  | ticker =>
    refine ⟨fun hd => ?_, fun _ => Nat.succ_pos _⟩
    rcases hd with hd | hd
    · exact absurd hd nofun
    · exact absurd hd (Nat.succ_ne_zero _)
  | spinner | spinnerProcess | timer => trivial

theorem Own.stopped {p : Party} (h : Own cfg p v) : Own cfg p (step p v .stopped) := by
  cases p with
  | main =>
    have h : OwnMain cfg v := h
    exact ⟨fun hpos => (h.measured hpos).append rfl fun _ => rfl, h.stage, h.round, h.last⟩
  | ticker =>
    refine ⟨fun hd => ?_, nofun⟩
    obtain ⟨hpoint, hrec⟩ := OwnTicker.recorded h hd
    exact ⟨hpoint, hrec.append rfl rfl rfl fun _ => rfl⟩
  | spinner | spinnerProcess | timer => trivial

end Own

end Sel4bench.Irquser
