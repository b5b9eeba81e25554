import Sel4bench.Signal.Threads
import Sel4bench.Lib.Memory
import Sel4bench.Lib.Protocol
import Sel4bench.Lib.Trace

/-!
# The protocol of the signal benchmark

`main` goes through three rounds: the threads `signal` and `signal early` work against a waiting
thread that outranks them, then `signal` outranks the waiting thread. In the first two rounds a
single token moves between the signaller and the waiting thread (`Sel4bench.Signal.Token.token`),
since the signaller only runs while the waiting thread is blocked: so the values of `end` that it
reads are those that the waiting thread has written in the same rounds of the two loops
(`Sel4bench.Signal.Facts.paired`). In the third round signals are lost, and what counts is that
`main` receives a done message only when `signal` has finished.

## Main definitions

* `Sel4bench.Signal.RecordedLow`, `Sel4bench.Signal.RecordedHigh`, `Sel4bench.Signal.Measured` —
  what has been measured and stored.
* `Sel4bench.Signal.Guar` — the requests that the threads make.
* `Sel4bench.Signal.Own`, `Sel4bench.Signal.Rel`, `Sel4bench.Signal.protocol`.

## Main results

* `Sel4bench.Signal.Own.did` — what holds of a party by itself is kept by its requests.
-/

namespace Sel4bench.Signal

open Machine Trace
open Support (Msg)

variable {w : ℕ}

/-! ### Histories -/

/-- The history of a thread. -/
abbrev Hist (w : ℕ) := List (Event (sig w))

/-- The thread is started in the event. -/
def isStart : Event (sig w) → Bool
  | .started _ => true
  | _ => false

/-- What a thread has done after its `k`-th start and before the next one. -/
def phase (h : Hist w) (k : ℕ) : Hist w := segment isStart h k

/-- The value of `end` that is read in the event. -/
def stopOf : Event (sig w) → Option (Ccnt w) := loadOf (σ := sig w) Var.stop

/-- The value of `results->overhead_min` that is read in the event. -/
def overheadOf : Event (sig w) → Option (Ccnt w) := loadOf (σ := sig w) Var.overheadMin

/-- For a signal, whether the flag was already set. -/
def signalOf : Event (sig w) → Option Bool
  | .did (.signal _) a => some a
  | _ => none

/-- The values of `end` that were read. -/
def loads (h : Hist w) : List (Ccnt w) := h.filterMap stopOf

/-- The values of `results->overhead_min` that were read. -/
def overheads (h : Hist w) : List (Ccnt w) := h.filterMap overheadOf

/-- The values that were written to `end`. -/
def stops (h : Hist w) : List (Ccnt w) := h.filterMap (storeOf (σ := sig w) Var.stop)

/-- After its `k`-th start the thread has written the times to `end` that it has read. -/
def Timed (h : Hist w) (k : ℕ) : Prop := stops (phase h k) = clocks (phase h k)

/-- For every signal, whether it has found the flag already set. -/
def signals (h : Hist w) : List Bool := h.filterMap signalOf

/-! ### Measurements -/

/-- The times of `n` measurements, in the order in which they were read. -/
def pairs (r : Readings w) (n : ℕ) : List (Ccnt w) :=
  (List.range n).flatMap fun i => [r.start i, r.stop i]

/-- The two rounds in which the waiting thread outranks the signaller. -/
inductive Low
  | late
  | early

/-- The number of the round. -/
def Low.index : Low → ℕ
  | .late => 0
  | .early => 1

/-- The thread that signals in a round. -/
def Low.signaller : Low → Party
  | .late => .signal
  | .early => .signalEarlyProc

/-- The function that the signaller of a round runs. -/
def Low.signalFn : Low → Entry
  | .late => .lowPrioSignalFn
  | .early => .lowPrioSignalEarlyProcFn

section Config

variable (cfg : Config)

/-- The results of a low round: the samples, or the sums of early processing. -/
def Results : Low → Hist w → Readings w → Prop
  | .late, h, r => ∀ i < cfg.runs, lastStore (Var.loPrioResults i) h = some (r.stop i - r.start i)
  | .early, h, r => ∃ o ∈ overheads h,
    let res := earlyRun cfg.wordBits cfg.runs cfg.ignored r o
    lastStore Var.loSum h = some res.sum ∧ lastStore Var.loSum2 h = some res.sum2 ∧
      lastStore Var.loNum h = some res.num

/-- After its first start the signaller has read the times `r` and stored its results, and no signal
has been lost. -/
structure Signalled (b : Low) (r : Readings w) (h : Hist w) : Prop where
  clocks : clocks (phase h 1) = (List.range cfg.runs).map r.start
  loads : loads (phase h 1) = (List.range cfg.runs).map r.stop
  signals : signals (phase h 1) = List.replicate cfg.runs false
  results : Results cfg b h r

/-- The signaller of a low round has done its work. -/
def RecordedLow (b : Low) (h : Hist w) : Prop := ∃ r, Signalled cfg b r h

/-- After its second start `signal` has read the times `r` and `a`, of the single signals and of the
averages, and stored its results. -/
structure SignalledHigh (r a : Readings w) (h : Hist w) : Prop where
  clocks : clocks (phase h 2) = pairs r cfg.runs ++ pairs a (cfg.runs * cfg.chunks)
  results : ∀ i < cfg.runs, lastStore (Var.hiPrioResults i) h = some (r.stop i - r.start i)
  average : 0 < cfg.chunks → ∀ j < cfg.runs, lastStore (Var.hiPrioAverage j) h =
    some (a.stop ((j + 1) * cfg.chunks - 1) - a.start ((j + 1) * cfg.chunks - 1))

/-- `signal` has done its work in the third round. -/
def RecordedHigh (h : Hist w) : Prop := ∃ r a, SignalledHigh cfg r a h

/-- `main` has measured the overhead and stored the least one. -/
def Measured (h : Hist w) : Prop := ∃ r : Readings w, clocks h = pairs r cfg.runs ∧
  (∀ i < cfg.runs, lastStore (Var.overhead i) h = some (r.stop i - r.start i)) ∧
  lastStore Var.overheadMin h = some (getMinOverhead (fun i => r.stop i - r.start i) cfg.runs)

/-- The measurements of `high_prio_signal_fn`. -/
def Config.total : ℕ := cfg.runs + cfg.runs * cfg.chunks

end Config

/-! ### The protocol -/

/-- How far a party is. -/
structure Progress where
  /-- How often it has been started. -/
  starts : ℕ := 0
  active : Bool := false
  /-- The signals that it has sent since it was started. -/
  signals : ℕ := 0
  /-- The waits of its loop that have returned since then. -/
  waits : ℕ := 0
  /-- How often it has read or written `end`, or stored a result of the third round. -/
  times : ℕ := 0
  /-- It has sent its done message. -/
  done : Bool := false
  /-- The round of `main`. -/
  round : ℕ := 0
  /-- Where `main` is in its round: the threads that it has started, the done messages that it has
  received, and the threads that it has stopped. -/
  stage : ℕ := 0

/-- What a party knows: how far it is, and its history. -/
structure View (w : ℕ) extends Progress where
  hist : Hist w := []

/-- Whether the event counts for `Progress.times`. -/
def isTime : Event (sig w) → Bool
  | .did (.load .stop) _ => true
  | .did (.store .stop _) _ => true
  | .did (.store (.hiPrioResults _) _) _ => true
  | .did (.store (.hiPrioAverage _) _) _ => true
  | _ => false

/-- The progress by an event. -/
def advance (p : Party) (v : Progress) (ev : Event (sig w)) : Progress :=
  match p, ev with
  | .main, .did (.start _ _) _ => { v with stage := v.stage + 1 }
  | .main, .did (.recv _) _ => { v with stage := v.stage + 1 }
  | .main, .did (.suspend _) _ =>
    if v.stage = 5 then { v with round := v.round + 1, stage := 0 }
    else { v with stage := v.stage + 1 }
  | .main, _ => v
  | _, .started _ => { starts := v.starts + 1, active := true }
  | _, .stopped => { v with active := false }
  | _, .did (.signal _) _ => { v with signals := v.signals + 1 }
  | _, .did (.wait _) _ => if v.done = true then v else { v with waits := v.waits + 1 }
  | _, .did (.send _ _) _ => { v with done := true }
  | _, ev => if isTime ev = true then { v with times := v.times + 1 } else v

/-- The view after an event. -/
def step (p : Party) (v : View w) (ev : Event (sig w)) : View w where
  toProgress := advance p v.toProgress ev
  hist := v.hist ++ [ev]

@[simp] theorem step_hist (p : Party) (v : View w) (ev : Event (sig w)) :
    (step p v ev).hist = v.hist ++ [ev] := rfl

@[simp] theorem step_progress (p : Party) (v : View w) (ev : Event (sig w)) :
    (step p v ev).toProgress = advance p v.toProgress ev := rfl

/-- The setting of the benchmark: its constants and the memory that it finds. -/
structure Setup (w : ℕ) extends Config where
  mem : ∀ x, Val w x
  /-- There are three priorities. -/
  prios : 2 ≤ maxPrio

/-- The party that writes a variable. -/
def writer : Var → Party
  | .prio _ | .overhead _ | .overheadMin => .main
  | .stop => .wait
  | .loPrioResults _ | .hiPrioResults _ | .hiPrioAverage _ => .signal
  | .loSum | .loSum2 | .loNum => .signalEarlyProc

/-- The results that a signaller stores after its `k`-th start. -/
def resultOf : Var → Party × ℕ
  | .hiPrioResults _ | .hiPrioAverage _ => (.signal, 2)
  | x => (writer x, 1)

/-- The thread has been started and has not sent its done message. -/
def Busy (v : Progress) : Prop := v.active = true ∧ v.done = false

/-- The thread is not running, or has sent its done message. -/
def Idle (v : Progress) : Prop := v.active = false ∨ v.done = true

/-- A thread that has just been started. -/
structure Fresh (v : Progress) : Prop where
  active : v.active = true
  signals : v.signals = 0
  waits : v.waits = 0
  times : v.times = 0
  done : v.done = false

/-- What `main` expects of a thread: that it is not running, that it has just been started, that it
is working, that it has taken all measurements of the third round, or nothing. -/
inductive Status
  | idle
  | fresh
  | busy
  | measured
  | live

/-- What `main` expects of the signaller at a stage of a low round. -/
def lowStatus : ℕ → Status
  | 1 => .fresh
  | 2 | 3 => .live
  | _ => .idle

/-- What `main` expects of a thread at a stage of a round. -/
def status : Party → ℕ → ℕ → Status
  | .wait, 2, 0 => .idle
  | .wait, 2, 1 => .fresh
  | .wait, 2, _ => .live
  | .wait, _, 2 => .live
  | .wait, _, 3 => .live
  | .wait, _, _ => .idle
  | .signal, 0, d => lowStatus d
  | .signal, 2, 2 => .busy
  | .signal, 2, 0 => .idle
  | .signal, 2, 1 => .idle
  | .signal, 2, _ => .measured
  | .signal, _, _ => .idle
  | .signalEarlyProc, 1, d => lowStatus d
  | .signalEarlyProc, _, _ => .idle
  | .main, _, _ => .live

/-- How often a thread has been started at a stage of a round. -/
def startCount : Party → ℕ → ℕ → ℕ
  | .wait, 2, 0 => 2
  | .wait, 2, _ => 3
  | .wait, r, 0 => r
  | .wait, r, 1 => r
  | .wait, r, _ => r + 1
  | .signal, 0, 0 => 0
  | .signal, 2, 0 => 1
  | .signal, 2, 1 => 1
  | .signal, 2, _ => 2
  | .signal, _, _ => 1
  | .signalEarlyProc, 0, _ => 0
  | .signalEarlyProc, 1, 0 => 0
  | .signalEarlyProc, _, _ => 1
  | .main, _, _ => 0

section Protocol

variable (e : Setup w)

/-- The priorities that `main` has set for the first two rounds. -/
def LowPrios (h : Hist w) : Prop :=
  lastStore (Var.prio .wait) h = some e.maxPrio ∧
    lastStore (Var.prio .signal) h = some (e.maxPrio - 1) ∧
    lastStore (Var.prio .signalEarlyProc) h = some (e.maxPrio - 1) ∧
    lastStore (Var.prio .main) h = none

/-- The priorities that `main` has set for the third round. -/
def HighPrios (h : Hist w) : Prop :=
  lastStore (Var.prio .wait) h = some (e.maxPrio - 1) ∧
    lastStore (Var.prio .signal) h = some e.maxPrio ∧
    lastStore (Var.prio .main) h = some (e.maxPrio - 2)

/-- The requests that a party may make. -/
inductive Guar : Party → View w → Req (sig w) → Prop
  /-- A thread that has sent its done message blocks on the notification. -/
  | block {p : Party} {v : View w} (hp : p ≠ .main) (ha : v.active = true) (hd : v.done = true) :
    Guar p v (.wait .ntfn)
  | wait {v : View w} (hb : Busy v.toProgress) (ht : v.times = v.waits) (hlt : v.waits < e.runs) :
    Guar .wait v (.wait .ntfn)
  | waitClock {v : View w} (hb : Busy v.toProgress) (ht : v.times < v.waits) : Guar .wait v .clock
  | waitStore {v : View w} (hb : Busy v.toProgress) (ht : v.times < v.waits) (t : Ccnt w) :
    Guar .wait v (.store .stop t)
  | waitSend {v : View w} (hb : Busy v.toProgress) (hw : v.waits = e.runs) (ht : v.times = e.runs)
    (hrec : Timed v.hist v.starts) : Guar .wait v (.send .ep .empty)
  | lowClock {b : Low} {v : View w} (hb : Busy v.toProgress) (hs : v.starts = 1)
    (ht : v.times = v.signals) : Guar b.signaller v .clock
  | lowSignal {b : Low} {v : View w} (hb : Busy v.toProgress) (hs : v.starts = 1)
    (ht : v.times = v.signals) (hlt : v.signals < e.runs) : Guar b.signaller v (.signal .ntfn)
  | lowLoad {b : Low} {v : View w} (hb : Busy v.toProgress) (hs : v.starts = 1)
    (ht : v.times < v.signals) : Guar b.signaller v (.load .stop)
  | loadOverhead {v : View w} (hb : Busy v.toProgress) (hs : v.starts = 1) :
    Guar .signalEarlyProc v (.load .overheadMin)
  | lowStore {b : Low} {v : View w} {x : Var} (hb : Busy v.toProgress) (hs : v.starts = 1)
    (hx : resultOf x = (b.signaller, 1)) (t : Val w x) : Guar b.signaller v (.store x t)
  | lowSend {b : Low} {v : View w} (hb : Busy v.toProgress) (hs : v.starts = 1)
    (hn : v.signals = e.runs) (ht : v.times = e.runs) (hrec : RecordedLow e.toConfig b v.hist) :
    Guar b.signaller v (.send .ep .empty)
  | highClock {v : View w} (hb : Busy v.toProgress) (hs : v.starts = 2)
    (ht : v.times < e.total) : Guar .signal v .clock
  | highSignal {v : View w} (hb : Busy v.toProgress) (hs : v.starts = 2)
    (ht : v.times < e.total) : Guar .signal v (.signal .ntfn)
  | highStore {v : View w} {x : Var} (hb : Busy v.toProgress) (hs : v.starts = 2)
    (ht : v.times < e.total) (hx : resultOf x = (.signal, 2)) (t : Val w x) :
    Guar .signal v (.store x t)
  | highSend {v : View w} (hb : Busy v.toProgress) (hs : v.starts = 2) (ht : v.times = e.total)
    (hrec : RecordedHigh e.toConfig v.hist) : Guar .signal v (.send .ep .empty)
  | mainClock {v : View w} (hr : v.round = 0) (hd : v.stage = 0) : Guar .main v .clock
  | mainLoad {v : View w} (hr : v.round = 0) (hd : v.stage = 0) (i : ℕ) :
    Guar .main v (.load (.overhead i))
  | mainStore {v : View w} {x : Var} (hr : v.round = 0) (hd : v.stage = 0)
    (hx : writer x = .main) (hp : x ≠ .prio .main) (t : Val w x) : Guar .main v (.store x t)
  | setPriority {v : View w} (hr : v.round = 2) (hd : v.stage = 0) (p : Party) (n : ℕ) :
    Guar .main v (.store (.prio p) n)
  | startSignaller {b : Low} {v : View w} (hr : v.round = b.index) (hd : v.stage = 0)
    (hm : Measured e.toConfig v.hist) (hp : LowPrios e v.hist) :
    Guar .main v (.start b.signaller b.signalFn)
  | startWait {v : View w} (hr : v.round < 2) (hd : v.stage = 1) :
    Guar .main v (.start .wait .waitFn)
  | recvLow {v : View w} (hr : v.round < 2) (hd : v.stage = 2 ∨ v.stage = 3) :
    Guar .main v (.recv .ep)
  | stopSignaller {b : Low} {v : View w} (hr : v.round = b.index) (hd : v.stage = 4) :
    Guar .main v (.suspend b.signaller)
  | stopWait {v : View w} (hr : v.round < 2) (hd : v.stage = 5) : Guar .main v (.suspend .wait)
  | startWaitHigh {v : View w} (hr : v.round = 2) (hd : v.stage = 0) (hp : HighPrios e v.hist) :
    Guar .main v (.start .wait .waitFn)
  | startSignal {v : View w} (hr : v.round = 2) (hd : v.stage = 1) :
    Guar .main v (.start .signal .highPrioSignalFn)
  | recvHigh {v : View w} (hr : v.round = 2) (hd : v.stage = 2) : Guar .main v (.recv .ep)
  | stopWaitHigh {v : View w} (hr : v.round = 2) (hd : v.stage = 3) : Guar .main v (.suspend .wait)
  | stopSignal {v : View w} (hr : v.round = 2) (hd : v.stage = 4) : Guar .main v (.suspend .signal)

omit e in
/-- The answers that a party counts on: in the low rounds no signal is lost, there are no fault
messages, and `main` reads what it has written. -/
def rely : Party → View w → (r : Req (sig w)) → r.Resp → Prop
  | _, v, .signal _, a => v.starts = 1 → a = false
  | _, _, .recv _, a => a.2 = .empty
  | p, v, .load x, a => p = .main → ∀ b, lastStore (σ := sig w) x v.hist = some b → a = b
  | _, _, _, _ => True

omit e in
/-- The views in which a party may be at rest. -/
def rest : Party → View w → Prop
  | .main, v => v.round = 2 ∧ v.stage = 5
  | _, v => Idle v.toProgress

omit e in
/-- The view at an entry point. -/
inductive AtEntry : Party → Entry → View w → Prop
  | wait {v : View w} (hv : Fresh v.toProgress) (hm : v.starts = marks isStart v.hist)
    (hp : phase v.hist v.starts = []) : AtEntry .wait .waitFn v
  | low {b : Low} {v : View w} (hv : Fresh v.toProgress) (hs : v.starts = 1)
    (hm : marks isStart v.hist = 1) (hp : phase v.hist 1 = []) :
    AtEntry b.signaller b.signalFn v
  | high {v : View w} (hv : Fresh v.toProgress) (hs : v.starts = 2)
    (hm : marks isStart v.hist = 2) (hp : phase v.hist 2 = []) :
    AtEntry .signal .highPrioSignalFn v

/-! ### What holds of the parties -/

omit e in
/-- The order of the events in a round of the waiting thread. -/
structure WaitCounts (cfg : Config) (v : Progress) : Prop where
  times_le : v.times ≤ v.waits
  waits_le : v.waits ≤ v.times + 1
  waits_le_runs : v.waits ≤ cfg.runs

omit e in
/-- The order of the events in a round of a signaller. -/
structure LowCounts (cfg : Config) (v : Progress) : Prop where
  times_le : v.times ≤ v.signals
  signals_le : v.signals ≤ v.times + 1
  signals_le_runs : v.signals ≤ cfg.runs

/-- What holds of the view of the waiting thread. -/
structure OwnWait (v : View w) : Prop where
  starts : v.starts = marks isStart v.hist
  counts : WaitCounts e.toConfig v.toProgress
  done : v.done = true → v.waits = e.runs ∧ v.times = e.runs ∧ Timed v.hist v.starts
  written : (stops (phase v.hist v.starts)).length = v.times
  last : 0 < v.times → lastStore Var.stop v.hist = (stops (phase v.hist v.starts)).getLast?

/-- What holds of the view of a signaller after its first start. -/
structure OwnLow (b : Low) (v : View w) : Prop where
  starts : v.starts = marks isStart v.hist
  counts : v.starts = 1 → LowCounts e.toConfig v.toProgress
  done : v.starts = 1 → v.done = true →
    v.signals = e.runs ∧ v.times = e.runs ∧ RecordedLow e.toConfig b v.hist
  read : v.starts = 1 → (loads (phase v.hist 1)).length = v.times
  sent : v.starts = 1 → signals (phase v.hist 1) = List.replicate v.signals false

/-- What holds of the view of `signal` after its second start. -/
def OwnHigh (v : View w) : Prop :=
  v.starts = 2 → v.done = true → v.times = e.total ∧ RecordedHigh e.toConfig v.hist

/-- What holds of the view of `main`. -/
structure OwnMain (v : View w) : Prop where
  measured : 0 < v.round ∨ 0 < v.stage → Measured e.toConfig v.hist
  low : v.round < 2 → 0 < v.round ∨ 0 < v.stage → LowPrios e v.hist
  high : v.round = 2 → 0 < v.stage → HighPrios e v.hist
  main : v.round < 2 → lastStore (Var.prio .main) v.hist = none

/-- What holds of the view of a party by itself. -/
def Own : Party → View w → Prop
  | .wait, v => OwnWait e v
  | .signal, v => OwnLow e .late v ∧ OwnHigh e v
  | .signalEarlyProc, v => OwnLow e .early v
  | .main, v => OwnMain e v

omit e in
/-- Both threads of a low round have been started, and `main` waits for their done messages. -/
def Running (v : Progress) : Prop := v.round < 2 ∧ (v.stage = 2 ∨ v.stage = 3)

omit e in
/-- The token of a low round: it is with the waiting thread, or it is the flag. -/
structure Token (pending : Bool) (main sg wt : Progress) : Prop where
  token : sg.signals = wt.waits + pending.toNat
  times : sg.times ≤ wt.times
  active : sg.active = true ∧ wt.active = true
  stage : main.stage = 2 + (sg.done.toNat + wt.done.toNat)

/-- A thread is as `main` expects it. -/
def Status.Holds : Status → Progress → Prop
  | .idle, v => Idle v
  | .fresh, v => Fresh v
  | .busy, v => Busy v
  | .measured, v => v.times = e.total
  | .live, _ => True

/-- How the progress of the parties and the notification are related. -/
structure Sync (pending : Bool) (g : Party → Progress) : Prop where
  bound : (g .main).round ≤ 2
  counted : ∀ p ≠ .main, (g p).starts = startCount p (g .main).round (g .main).stage
  expected : ∀ p ≠ .main, (status p (g .main).round (g .main).stage).Holds e (g p)
  token : ∀ b : Low, (g .main).round = b.index → Running (g .main) →
    Token pending (g .main) (g b.signaller) (g .wait)
  clear : ¬Running (g .main) → (g .main).round < 2 ∨ (g .main).stage ≤ 1 → pending = false

omit e in
/-- The measurement of a low round is over. -/
def Passed (v : Progress) (b : Low) : Prop := b.index < v.round ∨ v.round = b.index ∧ 4 ≤ v.stage

/-- What the histories say about the rounds that are over. -/
structure Facts (main : Progress) (h : Party → Hist w) : Prop where
  low : ∀ b, Passed main b → RecordedLow e.toConfig b (h b.signaller) ∧
    (stops (phase (h .wait) (b.index + 1))).length = e.runs ∧ Timed (h .wait) (b.index + 1)
  paired : ∀ b : Low, loads (phase (h b.signaller) 1) <+: stops (phase (h .wait) (b.index + 1))
  high : main.round = 2 → 3 ≤ main.stage → RecordedHigh e.toConfig (h .signal)
  overhead : ∀ o ∈ overheads (h .signalEarlyProc),
    (0 < main.round ∨ 0 < main.stage) ∧ lastStore Var.overheadMin (h .main) = some o

/-- How the views of the parties are related. -/
structure Rel (κ : Kernel (sig w)) (g : Party → View w) : Prop where
  sync : Sync e (κ.pending .ntfn) fun p => (g p).toProgress
  mem : ∀ x, κ.mem x = stored (σ := sig w) (initMem e.toConfig e.mem) x (g (writer x)).hist
  facts : Facts e (g .main).toProgress fun p => (g p).hist

/-- The protocol of the threads. -/
def protocol : Protocol (sig w) (View w) where
  spec p :=
    { init := {}
      step := step p
      guar := Guar e p
      rely := rely p
      rest := rest p
      atLabel := AtEntry p }
  own := Own e
  rel := Rel e

end Protocol

/-! ### Histories that grow -/

section Append

variable {cfg : Config} {b : Low} {r a : Readings w} {h : Hist w} {ev : Event (sig w)}

/-- A signaller keeps its results when it stores no other ones, and measures nothing in the same
phase. -/
theorem Signalled.append (hs : Signalled cfg b r h)
    (hev : 1 < marks isStart h ∨ clockOf ev = none ∧ stopOf ev = none ∧ signalOf ev = none)
    (hstore : ∀ x, resultOf x = (b.signaller, 1) → storeOf x ev = none) :
    Signalled cfg b r (h ++ [ev]) := by
  have hkeep : ∀ {β : Type} (f : Event (sig w) → Option β), 1 < marks isStart h ∨ f ev = none →
      (phase (h ++ [ev]) 1).filterMap f = (phase h 1).filterMap f := by
    intro β f hf
    rcases hf with hlt | hnone
    · rw [phase, segment_concat_of_lt h hlt, phase]
    · exact filterMap_segment_of_none h hnone 1
  refine ⟨?_, ?_, ?_, ?_⟩
  · exact (hkeep clockOf (hev.imp_right fun h => h.1)).trans hs.clocks
  · exact (hkeep stopOf (hev.imp_right fun h => h.2.1)).trans hs.loads
  · exact (hkeep signalOf (hev.imp_right fun h => h.2.2)).trans hs.signals
  · have hresults := hs.results
    cases b with
    | late => exact fun j hj => (lastStore_append (hstore _ rfl) h).trans (hresults j hj)
    | early =>
      obtain ⟨o, ho, hsum, hsum2, hnum⟩ := hresults
      refine ⟨o, ?_, (lastStore_append (hstore _ rfl) h).trans hsum,
        (lastStore_append (hstore _ rfl) h).trans hsum2,
        (lastStore_append (hstore _ rfl) h).trans hnum⟩
      rw [overheads, filterMap_concat]
      exact List.mem_append_left _ ho

theorem Timed.append {k : ℕ} (ht : Timed h k) (hclock : clockOf ev = none)
    (hstore : storeOf Var.stop ev = none) : Timed (h ++ [ev]) k :=
  (filterMap_segment_of_none h hstore k).trans
    (ht.trans (filterMap_segment_of_none h hclock k).symm)

theorem RecordedLow.append (hs : RecordedLow cfg b h)
    (hev : 1 < marks isStart h ∨ clockOf ev = none ∧ stopOf ev = none ∧ signalOf ev = none)
    (hstore : ∀ x, resultOf x = (b.signaller, 1) → storeOf x ev = none) :
    RecordedLow cfg b (h ++ [ev]) := by
  obtain ⟨r, hs⟩ := hs
  exact ⟨r, hs.append hev hstore⟩

theorem RecordedHigh.append (hs : RecordedHigh cfg h) (hclock : clockOf ev = none)
    (hstore : ∀ x, resultOf x = (.signal, 2) → storeOf x ev = none) :
    RecordedHigh cfg (h ++ [ev]) := by
  obtain ⟨r, a, hs⟩ := hs
  refine ⟨r, a, (filterMap_segment_of_none h hclock 2).trans hs.clocks, fun i hi => ?_,
    fun hc j hj => ?_⟩
  · exact (lastStore_append (hstore _ rfl) h).trans (hs.results i hi)
  · exact (lastStore_append (hstore _ rfl) h).trans (hs.average hc j hj)

theorem Measured.append (hm : Measured cfg h) (hclock : clockOf ev = none)
    (hstore : ∀ x, writer x = .main → (∀ p, x ≠ .prio p) → storeOf x ev = none) :
    Measured cfg (h ++ [ev]) := by
  obtain ⟨r, hclocks, hover, hmin⟩ := hm
  refine ⟨r, ?_, fun i hi => ?_, ?_⟩
  · rw [clocks_append_of_none _ hclock]
    exact hclocks
  · exact (lastStore_append (hstore (.overhead i) rfl nofun) h).trans (hover i hi)
  · exact (lastStore_append (hstore .overheadMin rfl nofun) h).trans hmin

variable {e : Setup w}

theorem LowPrios.append (hp : LowPrios e h) (hstore : ∀ p, storeOf (Var.prio p) ev = none) :
    LowPrios e (h ++ [ev]) := by
  obtain ⟨hwait, hsignal, hearly, hmain⟩ := hp
  refine ⟨?_, ?_, ?_, ?_⟩
  · exact (lastStore_append (hstore _) h).trans hwait
  · exact (lastStore_append (hstore _) h).trans hsignal
  · exact (lastStore_append (hstore _) h).trans hearly
  · exact (lastStore_append (hstore _) h).trans hmain

theorem HighPrios.append (hp : HighPrios e h) (hstore : ∀ p, storeOf (Var.prio p) ev = none) :
    HighPrios e (h ++ [ev]) := by
  obtain ⟨hwait, hsignal, hmain⟩ := hp
  refine ⟨?_, ?_, ?_⟩
  · exact (lastStore_append (hstore _) h).trans hwait
  · exact (lastStore_append (hstore _) h).trans hsignal
  · exact (lastStore_append (hstore _) h).trans hmain

end Append

/-! ### What a party knows by itself -/

section Own

variable {e : Setup w} {b : Low} {v : View w} {ev : Event (sig w)}

/-- The waiting thread after an event that is not a start. -/
theorem OwnWait.append (h : OwnWait e v) (hev : isStart ev = false)
    (hstarts : (advance .wait v.toProgress ev).starts = v.starts)
    (hcounts : WaitCounts e.toConfig (advance .wait v.toProgress ev))
    (hdone : (advance .wait v.toProgress ev).done = true →
      (advance .wait v.toProgress ev).waits = e.runs ∧
        (advance .wait v.toProgress ev).times = e.runs ∧ Timed (v.hist ++ [ev]) v.starts)
    (htimes : (advance .wait v.toProgress ev).times =
      v.times + (storeOf (σ := sig w) Var.stop ev).toList.length) :
    OwnWait e (step .wait v ev) := by
  have hphase : stops (phase (v.hist ++ [ev]) v.starts) =
      stops (phase v.hist v.starts) ++ (storeOf (σ := sig w) Var.stop ev).toList :=
    filterMap_segment_concat v.hist _ hev h.starts
  refine ⟨?_, hcounts, fun hd => ?_, ?_, fun hpos => ?_⟩
  · rw [step_progress, hstarts, step_hist, marks_concat, hev, h.starts]
    rfl
  · rw [step_progress, hstarts]
    exact hdone hd
  · rw [step_progress, hstarts, step_hist, hphase, List.length_append, h.written, htimes]
  · rw [step_progress, hstarts, step_hist, hphase]
    cases hst : storeOf (σ := sig w) Var.stop ev with
    | none =>
      rw [step_progress, htimes, hst] at hpos
      rw [lastStore_append hst, Option.toList_none, List.append_nil, h.last hpos]
    | some t => rw [lastStore_append_of_some hst, Option.toList_some, List.getLast?_concat]

/-- A signaller after an event that is not a start. -/
theorem OwnLow.append {p : Party} (h : OwnLow e b v) (hev : isStart ev = false)
    (hstarts : (advance p v.toProgress ev).starts = v.starts)
    (hcounts : v.starts = 1 → LowCounts e.toConfig (advance p v.toProgress ev))
    (hdone : v.starts = 1 → (advance p v.toProgress ev).done = true →
      (advance p v.toProgress ev).signals = e.runs ∧ (advance p v.toProgress ev).times = e.runs ∧
        RecordedLow e.toConfig b (v.hist ++ [ev]))
    (htimes : v.starts = 1 → (advance p v.toProgress ev).times =
      v.times + (stopOf ev).toList.length)
    (hsignals : v.starts = 1 → (advance p v.toProgress ev).signals =
      v.signals + (signalOf ev).toList.length ∧ signalOf ev ≠ some true) :
    OwnLow e b (step p v ev) := by
  refine ⟨?_, fun hs => ?_, fun hs => ?_, fun hs => ?_, fun hs => ?_⟩
  · rw [step_progress, hstarts, step_hist, marks_concat, hev, h.starts]
    rfl
  all_goals rw [step_progress, hstarts] at hs
  · exact hcounts hs
  · exact hdone hs
  · have hphase : loads (phase (v.hist ++ [ev]) 1) =
        loads (phase v.hist 1) ++ (stopOf ev).toList :=
      filterMap_segment_concat v.hist _ hev (hs.symm.trans h.starts)
    rw [step_hist, hphase, List.length_append, h.read hs, step_progress, htimes hs]
  · have hphase : signals (phase (v.hist ++ [ev]) 1) =
        signals (phase v.hist 1) ++ (signalOf ev).toList :=
      filterMap_segment_concat v.hist _ hev (hs.symm.trans h.starts)
    obtain ⟨heq, hkept⟩ := hsignals hs
    rw [step_hist, hphase, h.sent hs, step_progress, heq, List.replicate_add]
    congr 1
    refine List.eq_replicate_iff.mpr ⟨rfl, fun a ha => ?_⟩
    cases a with
    | false => rfl
    | true => exact absurd (Option.mem_toList.mp ha) hkept

/-- A signaller that has been started again. -/
theorem OwnLow.of_starts {p : Party} (h : OwnLow e b v) (hs : v.starts = 2)
    (hev : isStart ev = false) (hstarts : (advance p v.toProgress ev).starts = v.starts) :
    OwnLow e b (step p v ev) := by
  have hne : v.starts ≠ 1 := by omega
  exact h.append hev hstarts (fun h => absurd h hne) (fun h => absurd h hne)
    (fun h => absurd h hne) fun h => absurd h hne

/-- After a start nothing has been measured. -/
theorem OwnWait.started (h : OwnWait e v) (ℓ : Entry) : OwnWait e (step .wait v (.started ℓ)) := by
  have hphase : phase (v.hist ++ [.started ℓ]) (v.starts + 1) = [] :=
    segment_concat_mark v.hist rfl (congrArg (· + 1) h.starts)
  refine ⟨?_, ⟨le_rfl, Nat.zero_le _, Nat.zero_le _⟩, nofun, ?_, nofun⟩
  · rw [step_hist, marks_concat, ← h.starts]
    rfl
  · exact congrArg (fun l => (stops l).length) hphase

theorem OwnLow.started {p : Party} (hp : p ≠ .main) (h : OwnLow e b v) (ℓ : Entry) :
    OwnLow e b (step p v (.started ℓ)) := by
  have hadv : advance p v.toProgress (.started ℓ : Event (sig w)) =
      { starts := v.starts + 1, active := true } := by
    cases p with
    | main => exact absurd rfl hp
    | wait | signal | signalEarlyProc => rfl
  have hphase : phase (v.hist ++ [.started ℓ]) (v.starts + 1) = [] :=
    segment_concat_mark v.hist rfl (congrArg (· + 1) h.starts)
  refine ⟨?_, fun _ => ?_, fun _ hd => ?_, fun hs => ?_, fun hs => ?_⟩
  · rw [step_progress, hadv, step_hist, marks_concat, ← h.starts]
    rfl
  · rw [step_progress, hadv]
    exact ⟨le_rfl, Nat.zero_le _, Nat.zero_le _⟩
  · rw [step_progress, hadv] at hd
    exact absurd hd nofun
  all_goals
    rw [step_progress, hadv] at hs ⊢
    rw [step_hist, ← hs, hphase]
    rfl

/-- Nothing is measured, signalled or stored in the event. -/
structure Silent (ev : Event (sig w)) : Prop where
  clock : clockOf ev = none
  load : stopOf ev = none
  overhead : overheadOf ev = none
  signal : signalOf ev = none
  store : ∀ x, storeOf x ev = none

/-- The event is not a start either. -/
structure Quiet (ev : Event (sig w)) : Prop extends Silent ev where
  start : isStart ev = false

theorem silent_started (ℓ : Entry) : Silent (.started ℓ : Event (sig w)) :=
  ⟨rfl, rfl, rfl, rfl, fun _ => rfl⟩

theorem quiet_wait (n : Ntfn) (a : Unit) : Quiet (.did (.wait n) a : Event (sig w)) :=
  ⟨⟨rfl, rfl, rfl, rfl, fun _ => rfl⟩, rfl⟩

theorem quiet_send (c : Endpoint) (m : Msg) (n : ℕ) :
    Quiet (.did (.send c m) n : Event (sig w)) :=
  ⟨⟨rfl, rfl, rfl, rfl, fun _ => rfl⟩, rfl⟩

theorem quiet_recv (c : Endpoint) (a : ℕ × Msg) : Quiet (.did (.recv c) a : Event (sig w)) :=
  ⟨⟨rfl, rfl, rfl, rfl, fun _ => rfl⟩, rfl⟩

theorem quiet_start (q : Party) (ℓ : Entry) (a : Unit) :
    Quiet (.did (.start q ℓ) a : Event (sig w)) :=
  ⟨⟨rfl, rfl, rfl, rfl, fun _ => rfl⟩, rfl⟩

theorem quiet_suspend (q : Party) (a : Unit) : Quiet (.did (.suspend q) a : Event (sig w)) :=
  ⟨⟨rfl, rfl, rfl, rfl, fun _ => rfl⟩, rfl⟩

theorem quiet_stopped : Quiet (.stopped : Event (sig w)) :=
  ⟨⟨rfl, rfl, rfl, rfl, fun _ => rfl⟩, rfl⟩

theorem OwnWait.quiet (h : OwnWait e v) (hev : Quiet ev)
    (hstarts : (advance .wait v.toProgress ev).starts = v.starts)
    (htimes : (advance .wait v.toProgress ev).times = v.times)
    (hwaits : (advance .wait v.toProgress ev).waits = v.waits)
    (hdone : (advance .wait v.toProgress ev).done = true →
      v.waits = e.runs ∧ v.times = e.runs ∧ Timed v.hist v.starts) :
    OwnWait e (step .wait v ev) := by
  refine h.append hev.start hstarts ?_ ?_ ?_
  · obtain ⟨hle, hle', hruns⟩ := h.counts
    exact ⟨by rwa [htimes, hwaits], by rwa [htimes, hwaits], by rwa [hwaits]⟩
  · rw [htimes, hwaits]
    exact fun hd => ⟨(hdone hd).1, (hdone hd).2.1, (hdone hd).2.2.append hev.clock (hev.store _)⟩
  · rw [htimes, hev.store]
    rfl

theorem OwnLow.quiet {p : Party} (h : OwnLow e b v) (hev : Quiet ev)
    (hstarts : (advance p v.toProgress ev).starts = v.starts)
    (htimes : (advance p v.toProgress ev).times = v.times)
    (hsignals : (advance p v.toProgress ev).signals = v.signals)
    (hdone : v.starts = 1 → (advance p v.toProgress ev).done = true →
      v.signals = e.runs ∧ v.times = e.runs ∧ RecordedLow e.toConfig b v.hist) :
    OwnLow e b (step p v ev) := by
  refine h.append hev.start hstarts (fun hs => ?_) (fun hs hd => ?_) (fun _ => ?_) fun _ => ?_
  · obtain ⟨hle, hle', hruns⟩ := h.counts hs
    exact ⟨by rwa [htimes, hsignals], by rwa [htimes, hsignals], by rwa [hsignals]⟩
  · obtain ⟨hn, ht, hrec⟩ := hdone hs hd
    rw [htimes, hsignals]
    exact ⟨hn, ht, hrec.append (.inr ⟨hev.clock, hev.load, hev.signal⟩) fun x _ => hev.store x⟩
  · rw [htimes, hev.load]
    rfl
  · rw [hsignals, hev.signal]
    exact ⟨rfl, nofun⟩

theorem OwnHigh.quiet {p : Party} (hev : Quiet ev)
    (hstarts : (advance p v.toProgress ev).starts = v.starts)
    (htimes : (advance p v.toProgress ev).times = v.times)
    (hdone : v.starts = 2 → (advance p v.toProgress ev).done = true →
      v.times = e.total ∧ RecordedHigh e.toConfig v.hist) : OwnHigh e (step p v ev) := by
  intro hs hd
  rw [step_progress, hstarts] at hs
  obtain ⟨ht, hrec⟩ := hdone hs hd
  exact ⟨htimes.trans ht, hrec.append hev.clock fun x _ => hev.store x⟩

/-- A thread that only changes its state of activity. -/
theorem Own.quiet {p : Party} (hp : p ≠ .main) (h : Own e p v) (hev : Quiet ev)
    (hadv : ∃ a, advance p v.toProgress ev = { v.toProgress with active := a }) :
    Own e p (step p v ev) := by
  obtain ⟨a, hadv⟩ := hadv
  have hstarts := congrArg Progress.starts hadv
  have htimes := congrArg Progress.times hadv
  have hsignals := congrArg Progress.signals hadv
  have hwaits := congrArg Progress.waits hadv
  have hdone := congrArg Progress.done hadv
  cases p with
  | main => exact absurd rfl hp
  | wait => exact OwnWait.quiet h hev hstarts htimes hwaits fun hd => h.done (hdone ▸ hd)
  | signal =>
    obtain ⟨hlow, hhigh⟩ := h
    exact ⟨hlow.quiet hev hstarts htimes hsignals fun hs hd => hlow.done hs (hdone ▸ hd),
      OwnHigh.quiet hev hstarts htimes fun hs hd => hhigh hs (hdone ▸ hd)⟩
  | signalEarlyProc =>
    exact OwnLow.quiet h hev hstarts htimes hsignals fun hs hd => h.done hs (hdone ▸ hd)

/-! The progress by the requests. -/

section Advance

variable {p : Party} {v : Progress}

/-- A thread that has sent its done message stays as it is when it waits. -/
theorem advance_wait_of_done (hp : p ≠ .main) (hd : v.done = true) (n : Ntfn) (a : Unit) :
    advance p v (.did (.wait n) a : Event (sig w)) = v := by
  cases p with
  | main => exact absurd rfl hp
  | wait | signal | signalEarlyProc => exact if_pos hd

theorem advance_wait_of_busy (hb : Busy v) (n : Ntfn) (a : Unit) :
    advance .wait v (.did (.wait n) a : Event (sig w)) = { v with waits := v.waits + 1 } :=
  if_neg (by rw [hb.2]; nofun)

@[simp] theorem advance_clock (p : Party) (v : Progress) (t : Ccnt w) :
    advance p v (.did .clock t : Event (sig w)) = v := by cases p <;> rfl

@[simp] theorem advance_signal (b : Low) (v : Progress) (n : Ntfn) (a : Bool) :
    advance b.signaller v (.did (.signal n) a : Event (sig w)) =
      { v with signals := v.signals + 1 } := by cases b <;> rfl

@[simp] theorem advance_send (b : Low) (v : Progress) (c : Endpoint) (m : Msg) (a : ℕ) :
    advance b.signaller v (.did (.send c m) a : Event (sig w)) = { v with done := true } := by
  cases b <;> rfl

@[simp] theorem advance_load_stop (b : Low) (v : Progress) (t : Ccnt w) :
    advance b.signaller v (.did (.load .stop) t : Event (sig w)) =
      { v with times := v.times + 1 } := by cases b <;> rfl

@[simp] theorem advance_load_overhead (p : Party) (v : Progress) (t : Ccnt w) :
    advance p v (.did (.load .overheadMin) t : Event (sig w)) = v := by cases p <;> rfl

/-- Storing a result of a low round is not counted. -/
theorem advance_store_low {b : Low} {x : Var} (hx : resultOf x = (b.signaller, 1))
    (v : Progress) (t : Val w x) (a : Unit) :
    advance b.signaller v (.did (.store x t) a : Event (sig w)) = v := by
  cases b <;> cases x <;> first | rfl | exact absurd hx nofun

/-- Storing a result of the third round is counted. -/
theorem advance_store_high {x : Var} (hx : resultOf x = (.signal, 2)) (v : Progress) (t : Val w x)
    (a : Unit) : advance .signal v (.did (.store x t) a : Event (sig w)) =
      { v with times := v.times + 1 } := by
  cases x <;> first | rfl | exact absurd hx nofun

end Advance

/-- A signaller that works on its first phase. -/
theorem Own.low {b : Low} (h : Own e b.signaller v) : OwnLow e b v := by
  cases b with
  | late => exact h.1
  | early => exact h

/-- What is shown about a signaller in its first phase is all that holds of it. -/
theorem Own.of_low {b : Low} {ev : Event (sig w)} (hs : v.starts = 1)
    (hstarts : (advance b.signaller v.toProgress ev).starts = v.starts)
    (h : OwnLow e b (step b.signaller v ev)) : Own e b.signaller (step b.signaller v ev) := by
  cases b with
  | late =>
    refine ⟨h, fun hs' => ?_⟩
    rw [step_progress, hstarts, hs] at hs'
    exact absurd hs' nofun
  | early => exact h

theorem not_busy_of_done {v : Progress} (hb : Busy v) : v.done ≠ true := by
  rw [hb.2]
  nofun

/-- A busy signaller after an event that its progress does not count. -/
theorem OwnLow.busy {p : Party} (h : OwnLow e b v) (hb : Busy v.toProgress)
    (hev : isStart ev = false) (hadv : advance p v.toProgress ev = v.toProgress)
    (hload : stopOf ev = none) (hsignal : signalOf ev = none) : OwnLow e b (step p v ev) := by
  refine h.append hev (by rw [hadv]) ?_ ?_ (fun _ => ?_) fun _ => ?_
  · rw [hadv]
    exact h.counts
  · rw [hadv]
    exact fun _ hd => absurd hd (not_busy_of_done hb)
  · rw [hadv, hload]
    rfl
  · rw [hadv, hsignal]
    exact ⟨rfl, nofun⟩

/-- `main` after an event that measures and stores nothing. -/
theorem OwnMain.quiet (h : OwnMain e v) (hev : Quiet ev) (hm : Measured e.toConfig v.hist)
    (hlow : (advance .main v.toProgress ev).round < 2 → v.round < 2 ∧ LowPrios e v.hist)
    (hhigh : (advance .main v.toProgress ev).round = 2 →
      0 < (advance .main v.toProgress ev).stage → HighPrios e v.hist) :
    OwnMain e (step .main v ev) where
  measured _ := hm.append hev.clock fun x _ _ => hev.store x
  low hr _ := (hlow hr).2.append fun _ => hev.store _
  high hr hd := (hhigh hr hd).append fun _ => hev.store _
  main hr := (lastStore_append (hev.store _) _).trans (h.main (hlow hr).1)

/-- `main` while it measures the overhead and sets the priorities of the first two rounds. -/
theorem OwnMain.prologue (h : OwnMain e v) (hr : v.round = 0) (hd : v.stage = 0)
    (hadv : advance .main v.toProgress ev = v.toProgress)
    (hstore : storeOf (Var.prio .main) ev = none) : OwnMain e (step .main v ev) := by
  have hnot : ¬(0 < v.round ∨ 0 < v.stage) := by omega
  refine ⟨fun h => ?_, fun _ h => ?_, fun _ h => ?_, fun _ => ?_⟩
  · rw [step_progress, hadv] at h
    exact absurd h hnot
  · rw [step_progress, hadv] at h
    exact absurd h hnot
  · rw [step_progress, hadv, hd] at h
    exact absurd h (lt_irrefl 0)
  · exact (lastStore_append hstore _).trans (h.main (by omega))

theorem OwnMain.lowRound (h : OwnMain e v) (hev : Quiet ev) (hr : v.round < 2) (hd : 0 < v.stage)
    (hround : (advance .main v.toProgress ev).round < 2 ∨
      (advance .main v.toProgress ev).stage = 0) : OwnMain e (step .main v ev) := by
  refine h.quiet hev (h.measured (.inr hd)) (fun _ => ⟨hr, h.low hr (.inr hd)⟩) fun hr' hd' => ?_
  omega

theorem OwnMain.highRound (h : OwnMain e v) (hev : Quiet ev) (hr : v.round = 2) (hd : 0 < v.stage)
    (hround : (advance .main v.toProgress ev).round = 2) : OwnMain e (step .main v ev) := by
  refine h.quiet hev (h.measured (.inr hd)) (fun hr' => ?_) fun _ _ => h.high hr hd
  omega

theorem OwnWait.wait (h : OwnWait e v) (hb : Busy v.toProgress) (ht : v.times = v.waits)
    (hlt : v.waits < e.runs) (a : Unit) : OwnWait e (step .wait v (.did (.wait .ntfn) a)) := by
  have hadv := advance_wait_of_busy (w := w) hb .ntfn a
  refine OwnWait.append h rfl ?_ ?_ ?_ ?_
  · rw [hadv]
  · rw [hadv]
    exact ⟨ht.le.trans (Nat.le_succ _), Nat.succ_le_succ ht.ge, hlt⟩
  · rw [hadv]
    exact fun hd => absurd hd (not_busy_of_done hb)
  · rw [hadv]
    rfl

theorem OwnWait.store (h : OwnWait e v) (hb : Busy v.toProgress) (ht : v.times < v.waits)
    (t : Ccnt w) (a : Unit) : OwnWait e (step .wait v (.did (.store .stop t) a)) := by
  obtain ⟨hle, hle', hruns⟩ := h.counts
  refine h.append rfl rfl ⟨ht, Nat.le_succ_of_le hle', hruns⟩
    (fun hd => absurd hd (not_busy_of_done hb)) ?_
  simp [advance, isTime, storeOf]

/-- A signaller of a low round finds the flag clear. -/
theorem Own.lowSignal {b : Low} (h : Own e b.signaller v) (hb : Busy v.toProgress)
    (hs : v.starts = 1) (ht : v.times = v.signals) (hlt : v.signals < e.runs) :
    Own e b.signaller (step b.signaller v (.did (.signal .ntfn) false)) := by
  refine Own.of_low hs (by rw [advance_signal]) (h.low.append rfl (by rw [advance_signal]) ?_ ?_
    ?_ ?_)
  · rw [advance_signal]
    exact fun _ => ⟨ht.le.trans (Nat.le_succ _), Nat.succ_le_succ ht.ge, hlt⟩
  · rw [advance_signal]
    exact fun _ hd => absurd hd (not_busy_of_done hb)
  · exact fun _ => by rw [advance_signal]; rfl
  · exact fun _ => ⟨by rw [advance_signal]; rfl, fun h => absurd (Option.some.inj h) (by decide)⟩

theorem Own.lowLoad {b : Low} (h : Own e b.signaller v) (hb : Busy v.toProgress)
    (hs : v.starts = 1) (ht : v.times < v.signals) (t : Ccnt w) :
    Own e b.signaller (step b.signaller v (.did (.load .stop) t)) := by
  obtain ⟨hle, hle', hruns⟩ := h.low.counts hs
  refine Own.of_low hs (by rw [advance_load_stop]) (h.low.append rfl (by rw [advance_load_stop])
    ?_ ?_ ?_ ?_)
  · rw [advance_load_stop]
    exact fun _ => ⟨ht, Nat.le_succ_of_le hle', hruns⟩
  · rw [advance_load_stop]
    exact fun _ hd => absurd hd (not_busy_of_done hb)
  · exact fun _ => by rw [advance_load_stop]; rfl
  · exact fun _ => ⟨by rw [advance_load_stop]; rfl, (Option.some_ne_none true).symm⟩

theorem Own.highStore (h : Own e .signal v) (hb : Busy v.toProgress) (hs : v.starts = 2) {x : Var}
    (hx : resultOf x = (.signal, 2)) (t : Val w x) (a : Unit) :
    Own e .signal (step .signal v (.did (.store x t) a)) := by
  have hadv := advance_store_high hx v.toProgress t a
  refine ⟨h.1.of_starts hs rfl (by rw [hadv]), fun _ hd => ?_⟩
  rw [step_progress, hadv] at hd
  exact absurd hd (not_busy_of_done hb)

theorem OwnMain.setPriority (h : OwnMain e v) (hr : v.round = 2) (hd : v.stage = 0) (p : Party)
    (n : ℕ) (a : Unit) : OwnMain e (step .main v (.did (.store (.prio p) n) a)) := by
  have hm := h.measured (.inl (by omega))
  refine ⟨fun _ => hm.append rfl fun x _ hx => storeOf_store_of_ne (σ := sig w) (hx p).symm n a,
    fun hr' => ?_, fun _ hd' => ?_, fun hr' => ?_⟩
  · exact absurd hr' (by change ¬v.round < 2; omega)
  · exact absurd hd' (by change ¬0 < v.stage; omega)
  · exact absurd hr' (by change ¬v.round < 2; omega)

/-- `main` stops a thread in a round that it does not end. -/
theorem advance_suspend_of_ne {v : Progress} (p : Party) (a : Unit) (hd : v.stage ≠ 5) :
    (advance .main v (.did (.suspend p) a : Event (sig w))).round = v.round := by
  simp only [advance]
  rw [if_neg hd]

theorem Own.did {p : Party} {r : Req (sig w)} {a : r.Resp} (h : Own e p v) (hguar : Guar e p v r)
    (hrely : rely p v r a) : Own e p (step p v (.did r a)) := by
  cases hguar with
  | block hp ha hd =>
    exact h.quiet hp (quiet_wait _ _) ⟨v.active, by rw [advance_wait_of_done hp hd]⟩
  | wait hb ht hlt => exact OwnWait.wait h hb ht hlt a
  | waitClock hb ht =>
    exact OwnWait.append h rfl rfl h.counts (fun hd => absurd hd (not_busy_of_done hb)) rfl
  | waitStore hb ht t => exact OwnWait.store h hb ht t a
  | waitSend hb hw ht hrec =>
    exact OwnWait.quiet h (quiet_send _ _ _) rfl rfl rfl fun _ => ⟨hw, ht, hrec⟩
  | @lowClock b v hb hs ht =>
    have hadv := advance_clock b.signaller v.toProgress a
    exact Own.of_low hs (by rw [hadv]) (h.low.busy hb rfl hadv rfl rfl)
  | lowSignal hb hs ht hlt =>
    cases hrely hs
    exact h.lowSignal hb hs ht hlt
  | lowLoad hb hs ht => exact h.lowLoad hb hs ht a
  | loadOverhead hb hs => exact OwnLow.busy h hb rfl rfl rfl rfl
  | lowStore hb hs hx t =>
    have hadv := advance_store_low hx v.toProgress t a
    exact Own.of_low hs (by rw [hadv]) (h.low.busy hb rfl hadv rfl rfl)
  | lowSend hb hs hn ht hrec =>
    exact Own.of_low hs (by rw [advance_send]) (h.low.quiet (quiet_send _ _ _)
      (by rw [advance_send]) (by rw [advance_send]) (by rw [advance_send])
      fun _ _ => ⟨hn, ht, hrec⟩)
  | highClock hb hs ht =>
    exact ⟨h.1.of_starts hs rfl rfl, fun _ hd => absurd hd (not_busy_of_done hb)⟩
  | highSignal hb hs ht =>
    exact ⟨h.1.of_starts hs rfl rfl, fun _ hd => absurd hd (not_busy_of_done hb)⟩
  | highStore hb hs ht hx t => exact h.highStore hb hs hx t a
  | highSend hb hs ht hrec =>
    exact ⟨h.1.of_starts hs rfl rfl,
      OwnHigh.quiet (quiet_send _ _ _) rfl rfl fun _ _ => ⟨ht, hrec⟩⟩
  | mainClock hr hd => exact OwnMain.prologue h hr hd rfl rfl
  | mainLoad hr hd i => exact OwnMain.prologue h hr hd rfl rfl
  | mainStore hr hd hx hp t =>
    exact OwnMain.prologue h hr hd rfl (storeOf_store_of_ne (σ := sig w) hp t a)
  | setPriority hr hd p n => exact OwnMain.setPriority h hr hd p n a
  | @startSignaller b v hr hd hm hp =>
    have hb : b.index < 2 := by cases b <;> decide
    refine OwnMain.quiet h (quiet_start _ _ _) hm (fun _ => ⟨by omega, hp⟩) fun hr' _ => ?_
    exact absurd hr' (by change ¬v.round = 2; omega)
  | startWait hr hd => exact OwnMain.lowRound h (quiet_start _ _ _) hr (by omega) (.inl hr)
  | recvLow hr hd => exact OwnMain.lowRound h (quiet_recv _ _) hr (by omega) (.inl hr)
  | @stopSignaller b v hr hd =>
    have hb : b.index < 2 := by cases b <;> decide
    exact OwnMain.lowRound h (quiet_suspend _ _) (by omega) (by omega)
      (.inl ((advance_suspend_of_ne _ a (by omega)).trans_lt (hr.trans_lt hb)))
  | stopWait hr hd =>
    refine OwnMain.lowRound h (quiet_suspend _ _) hr (by omega) (.inr ?_)
    simp only [advance]
    rw [if_pos hd]
  | startWaitHigh hr hd hp =>
    refine OwnMain.quiet h (quiet_start _ _ _) (OwnMain.measured h (.inl (by omega)))
      (fun hr' => ?_) fun _ _ => hp
    exact absurd hr' (by change ¬v.round < 2; omega)
  | startSignal hr hd => exact OwnMain.highRound h (quiet_start _ _ _) hr (by omega) hr
  | recvHigh hr hd => exact OwnMain.highRound h (quiet_recv _ _) hr (by omega) hr
  | stopWaitHigh hr hd =>
    exact OwnMain.highRound h (quiet_suspend _ _) hr (by omega)
      ((advance_suspend_of_ne _ a (by omega)).trans hr)
  | stopSignal hr hd =>
    exact OwnMain.highRound h (quiet_suspend _ _) hr (by omega)
      ((advance_suspend_of_ne _ a (by omega)).trans hr)

theorem Own.started {p : Party} (h : Own e p v) (ℓ : Entry) : Own e p (step p v (.started ℓ)) := by
  cases p with
  | wait => exact OwnWait.started h ℓ
  | signal =>
    exact ⟨h.1.started (by nofun) ℓ, fun _ hd => absurd hd nofun⟩
  | signalEarlyProc => exact OwnLow.started (by nofun) h ℓ
  | main =>
    refine ⟨fun hm => ?_, fun hr hm => ?_, fun hr hd => ?_, fun hr => ?_⟩
    · exact (OwnMain.measured h hm).append rfl fun _ _ _ => rfl
    · exact (OwnMain.low h hr hm).append fun _ => rfl
    · exact (OwnMain.high h hr hd).append fun _ => rfl
    · exact (lastStore_append rfl _).trans (OwnMain.main h hr)

theorem Own.stopped {p : Party} (h : Own e p v) : Own e p (step p v .stopped) := by
  by_cases hp : p = .main
  · subst hp
    refine ⟨fun hm => ?_, fun hr hm => ?_, fun hr hd => ?_, fun hr => ?_⟩
    · exact (OwnMain.measured h hm).append rfl fun _ _ _ => rfl
    · exact (OwnMain.low h hr hm).append fun _ => rfl
    · exact (OwnMain.high h hr hd).append fun _ => rfl
    · exact (lastStore_append rfl _).trans (OwnMain.main h hr)
  · refine h.quiet hp quiet_stopped ⟨false, ?_⟩
    cases p with
    | main => exact absurd rfl hp
    | wait | signal | signalEarlyProc => rfl

end Own

end Sel4bench.Signal
