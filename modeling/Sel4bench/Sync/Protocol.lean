import Sel4bench.Sync.Threads
import Sel4bench.Lib.Memory
import Sel4bench.Lib.Protocol
import Sel4bench.Lib.Trace

/-!
# The monitor of producer and consumer

The producer is at most one piece of work ahead of the consumer and the consumer never ahead of the
producer, and `fifo_head` is the difference (`Sel4bench.Sync.Related`). Only the thread that holds
the lock changes `fifo_head`. A thread goes to sleep when the other one has to work next, and that
one wakes it before it releases the lock, so no wake-up is lost. When a thread may work, the other
one has released the lock after writing its time, so the times that a thread reads are those that
the other one has written, in the same order (`Sel4bench.Sync.Rel.loads`).

## Main definitions

* `Sel4bench.Sync.Recorded` — what a thread knows at its end.
* `Sel4bench.Sync.Own`, `Sel4bench.Sync.Related`, `Sel4bench.Sync.Rel`, `Sel4bench.Sync.protocol`.

## Main results

* `Sel4bench.Sync.sound` — threads that follow the protocol keep it.
* `Sel4bench.Sync.not_blocked`, `Sel4bench.Sync.progress` — no thread is stuck.
-/

namespace Sel4bench.Sync

open Machine Trace

variable {w : ℕ}

/-! ### Roles -/

/-- The other role. -/
def Role.other : Role → Role
  | .producer => .consumer
  | .consumer => .producer

@[simp] theorem Role.other_other (r : Role) : r.other.other = r := by cases r <;> rfl

theorem Role.other_ne (r : Role) : r.other ≠ r := by cases r <;> nofun

/-- How far a thread may get ahead of the other one. -/
def Role.lead : Role → ℕ
  | .producer => 1
  | .consumer => 0

/-- When a thread has to wait. -/
def condition : Role → ℤ → Bool
  | .producer => (· == fifoSize)
  | .consumer => (· == 0)

/-- What a thread does with `fifo_head`. -/
def work : Role → ℤ → ℤ
  | .producer => (· + 1)
  | .consumer => (· - 1)

def args (b : Bench) : Role → Args
  | .producer => producerArgs b
  | .consumer => consumerArgs b

/-- The series that a thread measures. -/
def series : Role → Series
  | .producer => .consumerToProducer
  | .consumer => .producerToConsumer

/-- The function of a thread. -/
def func : Bench → Role → Func
  | .late, .producer => .producerFunc0 (series .producer)
  | .late, .consumer => .consumerFunc0 (series .consumer)
  | .early, .producer => .producerFuncEp
  | .early, .consumer => .consumerFuncEp

/-- The steps of the driver before a benchmark. -/
def base : Bench → ℕ
  | .late => 0
  | .early => 7

/-- The steps of the driver in a benchmark before it starts a thread. -/
def begin : Role → ℕ
  | .producer => 1
  | .consumer => 2

/-- The party that writes a variable. -/
def writer : CcntVar → Party
  | .producerSignal b => .thread b .consumer
  | .consumerSignal b => .thread b .producer
  | .sample .consumerToProducer _ => .thread .late .producer
  | .sample .producerToConsumer _ => .thread .late .consumer
  | .early .consumerToProducer _ => .thread .early .producer
  | .early .producerToConsumer _ => .thread .early .consumer

/-! ### Histories -/

/-- The value of `*start` that is read in the event. -/
def startOf : Event (sig w) → Option (Ccnt w)
  | .did (.load (.ccnt _)) t => some t
  | _ => none

/-- The time that a thread writes for the other one in the event. -/
def stampOf (b : Bench) (r : Role) : Event (sig w) → Option (Ccnt w) :=
  storeOf (σ := sig w) (.ccnt (args b r).signal)

/-- The values of `*start` that were read. -/
def loads (h : List (Event (sig w))) : List (Ccnt w) := h.filterMap startOf

/-- The times that were written to `*signal`. -/
def stamps (b : Bench) (r : Role) (h : List (Event (sig w))) : List (Ccnt w) :=
  h.filterMap (stampOf b r)

/-- The thread has been started. -/
def Started (h : List (Event (sig w))) : Prop := ∃ ℓ, .started ℓ ∈ h

/-- The done message has been sent. -/
def DoneSent (h : List (Event (sig w))) : Prop := ∃ n, .did (.send .doneEp .empty) n ∈ h

/-! ### The protocol -/

/-- How far a party is. -/
structure Progress where
  started : Bool := false
  /-- How often it has read `*start`. -/
  loads : ℕ := 0
  /-- How often it has written `fifo_head`. -/
  works : ℕ := 0
  /-- How often it has written `*signal`. -/
  stamps : ℕ := 0
  /-- How often it has signalled the condition variable. -/
  wakes : ℕ := 0
  /-- It holds the lock. -/
  holding : Bool := false
  /-- It waits on its condition variable. -/
  asleep : Bool := false
  /-- The value of `fifo_head`, where it is known since the lock was acquired. -/
  seen : Option ℤ := none
  /-- It has sent its done message. -/
  done : Bool := false
  /-- The steps of the driver. -/
  stage : ℕ := 0

/-- What a party knows: how far it is, and its history. -/
structure View (w : ℕ) extends Progress where
  hist : List (Event (sig w)) := []

/-- The progress of a thread by a request. -/
def advanceBy (b : Bench) (r : Role) (v : Progress) : (req : Req (sig w)) → req.Resp → Progress
  | .acquire _, _ => { v with holding := true }
  | .release _, _ => { v with holding := false, seen := none }
  | .sleep _ _, _ => { v with holding := false, seen := none, asleep := true }
  | .asleep _, _ => { v with asleep := false }
  | .wake _, _ => { v with wakes := v.wakes + 1 }
  | .load (.fifoHead _), n => { v with seen := some n }
  | .load (.ccnt _), _ => { v with loads := v.loads + 1 }
  | .store (.fifoHead _) n, _ => { v with works := v.works + 1, seen := some n }
  | .store (.ccnt x) _, _ =>
    if x = (args b r).signal then { v with stamps := v.stamps + 1 } else v
  | .send _ _, _ => { v with done := true }
  | _, _ => v

/-- The progress by an event. -/
def advance : Party → Progress → Event (sig w) → Progress
  | .driver, v, .did _ _ => { v with stage := v.stage + 1 }
  | .thread b r, v, .did req a => advanceBy b r v req a
  | .thread _ _, v, .started _ => { v with started := true }
  | _, v, _ => v

/-- The view after an event. -/
def step (p : Party) (v : View w) (ev : Event (sig w)) : View w where
  toProgress := advance p v.toProgress ev
  hist := v.hist ++ [ev]

@[simp] theorem step_hist (p : Party) (v : View w) (ev : Event (sig w)) :
    (step p v ev).hist = v.hist ++ [ev] := rfl

@[simp] theorem step_progress (p : Party) (v : View w) (ev : Event (sig w)) :
    (step p v ev).toProgress = advance p v.toProgress ev := rfl

/-- The setting: the constants, and the memory that the first benchmark finds. -/
structure Setup (w : ℕ) extends Config where
  mem : ∀ x, Val w x

/-- The results of a thread: the samples, or the sums of early processing. -/
def Results (cfg : Config) (b : Bench) (r : Role) (read : CcntVar → Option (Ccnt w))
    (rd : Readings w) : Prop :=
  match b with
  | .late => ∀ i < cfg.runs, read (.sample (series r) i) = some (rd.stop i - rd.start i)
  | .early =>
    let res := earlyRun cfg.wordBits cfg.runs cfg.ignored rd 0
    read (.early (series r) .sum) = some res.sum ∧ read (.early (series r) .sum2) = some res.sum2 ∧
      read (.early (series r) .num) = some res.num

/-- The history of `c` rounds of a thread: in each it has read the time `stop`, the value `start`
of the other thread, and the time `stamp` that it has written for it. -/
structure Sampled (b : Bench) (r : Role) (c : ℕ) (rd : Readings w) (stamp : ℕ → Ccnt w)
    (h : List (Event (sig w))) : Prop where
  clocks : clocks h = (List.range c).flatMap fun i => [rd.stop i, stamp i]
  loads : loads h = (List.range c).map rd.start
  stamps : stamps b r h = (List.range c).map stamp

section Protocol

variable (e : Setup w)

/-- The value that a thread last stored in a variable. -/
def lastCcnt (h : List (Event (sig w))) (x : CcntVar) : Option (Ccnt w) :=
  lastStore (σ := sig w) (.ccnt x) h

/-- A thread has measured and stored all samples. -/
def Recorded (b : Bench) (r : Role) (h : List (Event (sig w))) : Prop :=
  ∃ rd stamp, Sampled b r e.runs rd stamp h ∧ Results e.toConfig b r (lastCcnt h) rd

/-- The first `i` samples have been stored or added up. -/
def Kept (b : Bench) (r : Role) (i : ℕ) (acc : Sums w) (rd : Readings w)
    (h : List (Event (sig w))) : Prop :=
  match b with
  | .late => ∀ j < i, lastCcnt h (.sample (series r) j) = some (rd.stop j - rd.start j)
  | .early => acc = datacollectLoop e.wordBits i e.ignored rd.start rd.stop 0

/-- The first `i` samples have been measured and kept. -/
def Collected (b : Bench) (r : Role) (i : ℕ) (acc : Sums w) (h : List (Event (sig w))) : Prop :=
  ∃ rd stamp, Sampled b r i rd stamp h ∧ Kept e b r i acc rd h

/-- The thread has been started, does not sleep and has not sent its done message. -/
structure Busy (v : Progress) : Prop where
  started : v.started = true
  awake : v.asleep = false
  unfinished : v.done = false

/-- The thread is busy and holds the lock. -/
structure Holding (v : Progress) : Prop extends Busy v where
  holding : v.holding = true

/-- The thread has done as many things as it has completed rounds. -/
structure At (i : ℕ) (v : Progress) : Prop where
  loads : v.loads = i
  works : v.works = i
  stamps : v.stamps = i
  wakes : v.wakes = i

/-- The requests that a thread may make. -/
def guarThread (b : Bench) (r : Role) (v : View w) : Req (sig w) → Prop
  | .clock => Holding v.toProgress
  | .acquire _ => Busy v.toProgress ∧ v.holding = false ∧ v.wakes < e.runs
  | .release _ => Holding v.toProgress ∧ At v.wakes v.toProgress
  | .sleep _ c => Holding v.toProgress ∧ c = (args b r).waitCv ∧ At v.wakes v.toProgress ∧
    v.wakes < e.runs ∧ ∃ n, v.seen = some n ∧ condition r n = true
  | .asleep c => c = (args b r).waitCv ∧ v.asleep = true
  | .wake c => Holding v.toProgress ∧ c = (args b r).signalCv ∧ v.loads = v.wakes + 1 ∧
    v.works = v.wakes + 1 ∧ v.stamps = v.wakes + 1
  | .load (.fifoHead b') => Holding v.toProgress ∧ b' = b
  | .load (.ccnt x) => Holding v.toProgress ∧ x = (args b r).start ∧ At v.wakes v.toProgress ∧
    v.wakes < e.runs ∧ ∃ n, v.seen = some n ∧ condition r n = false
  | .store (.fifoHead b') n => Holding v.toProgress ∧ b' = b ∧ v.works = v.wakes ∧
    v.stamps = v.wakes ∧ v.loads = v.wakes + 1 ∧
    ∃ m, v.seen = some m ∧ condition r m = false ∧ n = work r m
  | .store (.ccnt x) _ => Busy v.toProgress ∧ writer x = .thread b r ∧
    (x = (args b r).signal → v.holding = true ∧ v.stamps = v.wakes ∧ v.works = v.wakes + 1)
  | .send c m => Busy v.toProgress ∧ c = .doneEp ∧ m = .empty ∧ v.holding = false ∧
    v.wakes = e.runs ∧ Recorded e b r v.hist
  | .recv c => v.done = true ∧ c = .blockEp
  | _ => False

/-- The entry point of a thread. -/
def entry (b : Bench) (r : Role) : Label w := ⟨func b r, args b r, .forLoop 0 ⟨0, 0⟩⟩

/-- The requests that the driver may make. -/
def guarDriver (v : View w) : Req (sig w) → Prop
  | .store (.fifoHead b) n => v.stage = base b ∧ n = 0
  | .start (.thread b r) ℓ => v.stage = base b + begin r ∧ ℓ = entry b r
  | .recv c => c = .doneEp ∧ ∃ b, v.stage = base b + 3 ∨ v.stage = base b + 4
  | .suspend (.thread b r) => v.stage = base b + 4 + begin r
  | _ => False

/-- The requests that a party may make. -/
def guar : Party → View w → Req (sig w) → Prop
  | .thread b r => guarThread e b r
  | .driver => guarDriver

/-- The answers that a party counts on: while it holds the lock `fifo_head` does not change, only
done messages are received, and nobody sends on `block_ep`. -/
def rely : View w → (req : Req (sig w)) → req.Resp → Prop
  | v, .load (.fifoHead _), n => ∀ m, v.seen = some m → n = m
  | _, .recv .doneEp, a => a.2 = .empty
  | _, .recv .blockEp, _ => False
  | _, _, _ => True

/-- The views in which a party may be at rest. -/
def rest : Party → View w → Prop
  | .thread _ _, v => v.started = false ∨ v.done = true
  | .driver, v => v.stage = 14

/-- The views at the loop heads. -/
def atLabel : Party → Label w → View w → Prop
  | .thread b r, ⟨f, a, pt⟩, v => f = func b r ∧ a = args b r ∧ Busy v.toProgress ∧
    match pt with
    | .forLoop i acc => v.holding = false ∧ At i v.toProgress ∧ i ≤ e.runs ∧
      Collected e b r i acc v.hist
    | .whileLoop i acc => v.holding = true ∧ At i v.toProgress ∧ i < e.runs ∧
      Collected e b r i acc v.hist
  | .driver, _, _ => False

/-- How far a thread can be. -/
structure Counts (v : Progress) : Prop where
  wakes_le : v.wakes ≤ v.stamps
  stamps_le : v.stamps ≤ v.works
  works_le : v.works ≤ v.loads
  loads_le : v.loads ≤ v.wakes + 1
  loads_le_runs : v.loads ≤ e.runs
  /-- A round is completed before the lock is released. -/
  released : v.holding = false → v.loads = v.wakes
  holding : v.holding = true → Holding v
  asleep : v.asleep = true →
    v.holding = false ∧ v.started = true ∧ v.done = false ∧ v.wakes < e.runs
  seen : v.seen ≠ none → v.holding = true
  done : v.done = true → v.started = true ∧ v.holding = false ∧ v.wakes = e.runs
  fresh : v.started = false → v.wakes = 0

/-- The progress counts the events of the history. -/
structure Traces (b : Bench) (r : Role) (v : View w) : Prop where
  started : v.started = true ↔ Started v.hist
  done : v.done = true ↔ DoneSent v.hist
  loads : (loads v.hist).length = v.loads
  stamps : (stamps b r v.hist).length = v.stamps
  clocks : v.started = false → clocks v.hist = []
  recorded : v.done = true → Recorded e b r v.hist

/-- What holds of the view of a party by itself. -/
def Own : Party → View w → Prop
  | .thread b r, v => Counts e v.toProgress ∧ Traces e b r v
  | .driver, v => v.holding = false

omit e in
/-- The value of `fifo_head`. -/
def fifoHead (κ : Kernel (sig w)) (b : Bench) : ℤ := κ.mem (.fifoHead b)

omit e in
/-- How the progress of the parties, the lock and `fifo_head` are related. -/
structure Related (κ : Kernel (sig w)) (g : Party → Progress) : Prop where
  lock : ∀ p, (g p).holding = true ↔ κ.owner .lock = some p
  started : ∀ b r, (g (.thread b r)).started = true ↔ base b + begin r < (g .driver).stage
  done : ∀ b, min ((g .driver).stage - (base b + 3)) 2 =
    (g (.thread b .producer)).done.toNat + (g (.thread b .consumer)).done.toNat
  order : ∀ b r, (g (.thread b r)).works ≤ (g (.thread b r.other)).works + r.lead
  fifo : ∀ b, base b < (g .driver).stage → fifoHead κ b =
    ((g (.thread b .producer)).works : ℤ) - (g (.thread b .consumer)).works
  seen : ∀ b r n, (g (.thread b r)).seen = some n → fifoHead κ b = n
  asleep : ∀ b r, (g (.thread b r)).asleep = true →
    (g (.thread b r)).works = (g (.thread b r.other)).wakes + r.lead

/-- The value that the producer finds in `*start` before the consumer has written it. -/
def before (b : Bench) : Role → List (Ccnt w)
  | .producer => [e.mem (.ccnt (args b .producer).start)]
  | .consumer => []

/-- How the views of the parties are related. -/
structure Rel (κ : Kernel (sig w)) (g : Party → View w) : Prop where
  related : Related κ fun p => (g p).toProgress
  mem : ∀ x, κ.mem (.ccnt x) = stored (σ := sig w) e.mem (.ccnt x) (g (writer x)).hist
  loads : ∀ b r, loads (g (.thread b r)).hist <+:
    before e b r ++ stamps b r.other (g (.thread b r.other)).hist

/-- The protocol of the threads. -/
def protocol : Protocol (sig w) (View w) where
  spec p :=
    { init := {}
      step := step p
      guar := guar e p
      rely := rely
      rest := rest p
      atLabel := atLabel e p }
  own := Own e
  rel := Rel e

end Protocol

/-! ### What a party knows by itself -/

section Append

variable (h : List (Event (sig w))) (ev : Event (sig w))

theorem loads_append : loads (h ++ [ev]) = loads h ++ (startOf ev).toList :=
  filterMap_concat startOf h ev

theorem stamps_append (b : Bench) (r : Role) :
    stamps b r (h ++ [ev]) = stamps b r h ++ (stampOf b r ev).toList :=
  filterMap_concat (stampOf b r) h ev

theorem started_append : Started (h ++ [ev]) ↔ Started h ∨ ∃ ℓ, ev = .started ℓ :=
  exists_mem_concat

theorem doneSent_append :
    DoneSent (h ++ [ev]) ↔ DoneSent h ∨ ∃ n, ev = .did (.send .doneEp .empty) n :=
  exists_mem_concat

end Append

section Own

variable {e : Setup w} {b : Bench} {r : Role} {v : View w}

/-- A thread that is at the begin or the end of a round. -/
theorem Counts.at_of_released {v : Progress} (h : Counts e v) (hv : v.loads = v.wakes) :
    At v.wakes v := by
  obtain ⟨h₁, h₂, h₃, -⟩ := h
  exact ⟨hv, by omega, by omega, rfl⟩

/-- The requests of a thread are made in the order of a round. -/
theorem Counts.did {req : Req (sig w)} {a : req.Resp} (h : Counts e v.toProgress)
    (hguar : guarThread e b r v req) : Counts e (advanceBy b r v.toProgress req a) := by
  have hseen : (none : Option ℤ) ≠ none → false = true := fun hn => absurd rfl hn
  cases req with
  | clock => exact h
  | acquire l =>
    obtain ⟨hbusy, hfree, -⟩ := hguar
    exact ⟨h.wakes_le, h.stamps_le, h.works_le, h.loads_le, h.loads_le_runs, nofun,
      fun _ => ⟨⟨hbusy.started, hbusy.awake, hbusy.unfinished⟩, rfl⟩,
      fun ha => absurd (hbusy.awake.symm.trans ha) nofun, fun _ => rfl,
      fun hd => absurd (hbusy.unfinished.symm.trans hd) nofun, h.fresh⟩
  | release l =>
    obtain ⟨hhold, hat⟩ := hguar
    exact ⟨h.wakes_le, h.stamps_le, h.works_le, h.loads_le, h.loads_le_runs, fun _ => hat.loads,
      nofun, fun ha => absurd (hhold.awake.symm.trans ha) nofun, hseen,
      fun hd => absurd (hhold.unfinished.symm.trans hd) nofun, h.fresh⟩
  | sleep l c =>
    obtain ⟨hhold, -, hat, hlt, -⟩ := hguar
    exact ⟨h.wakes_le, h.stamps_le, h.works_le, h.loads_le, h.loads_le_runs, fun _ => hat.loads,
      nofun, fun _ => ⟨rfl, hhold.started, hhold.unfinished, hlt⟩, hseen,
      fun hd => absurd (hhold.unfinished.symm.trans hd) nofun, h.fresh⟩
  | asleep c =>
    have hfree := (h.asleep hguar.2).1
    exact ⟨h.wakes_le, h.stamps_le, h.works_le, h.loads_le, h.loads_le_runs, h.released,
      fun hh => absurd (hfree.symm.trans hh) nofun, nofun, h.seen, h.done, h.fresh⟩
  | wake c =>
    obtain ⟨hhold, -, hl, hw, hs⟩ := hguar
    exact ⟨hs.ge, h.stamps_le, h.works_le, h.loads_le.trans (Nat.le_succ _), h.loads_le_runs,
      fun _ => hl, fun _ => ⟨⟨hhold.started, hhold.awake, hhold.unfinished⟩, hhold.holding⟩,
      fun ha => absurd (hhold.awake.symm.trans ha) nofun, h.seen,
      fun hd => absurd (hhold.unfinished.symm.trans hd) nofun,
      fun hf => absurd (hf.symm.trans hhold.started) nofun⟩
  | load x =>
    cases x with
    | fifoHead b' =>
      obtain ⟨hhold, -⟩ := hguar
      exact ⟨h.wakes_le, h.stamps_le, h.works_le, h.loads_le, h.loads_le_runs, h.released,
        fun _ => ⟨⟨hhold.started, hhold.awake, hhold.unfinished⟩, hhold.holding⟩, h.asleep,
        fun _ => hhold.holding, h.done, h.fresh⟩
    | ccnt x =>
      obtain ⟨hhold, -, hat, hlt, -⟩ := hguar
      exact ⟨h.wakes_le, h.stamps_le, h.works_le.trans (Nat.le_succ _),
        Nat.succ_le_succ hat.loads.le, Nat.succ_le_of_lt (hat.loads.trans_lt hlt),
        fun hf => absurd (hf.symm.trans hhold.holding) nofun,
        fun _ => ⟨⟨hhold.started, hhold.awake, hhold.unfinished⟩, hhold.holding⟩, h.asleep, h.seen,
        h.done, h.fresh⟩
  | store x t =>
    cases x with
    | fifoHead b' =>
      obtain ⟨hhold, -, hw, hs, hl, -⟩ := hguar
      exact ⟨h.wakes_le, h.stamps_le.trans (Nat.le_succ _), (congrArg (· + 1) hw).le.trans hl.ge,
        h.loads_le, h.loads_le_runs, h.released,
        fun _ => ⟨⟨hhold.started, hhold.awake, hhold.unfinished⟩, hhold.holding⟩, h.asleep,
        fun _ => hhold.holding, h.done, h.fresh⟩
    | ccnt x =>
      obtain ⟨hbusy, -, hsignal⟩ := hguar
      by_cases hx : x = (args b r).signal
      · obtain ⟨hheld, hs, hw⟩ := hsignal hx
        simp only [advanceBy, if_pos hx]
        exact ⟨h.wakes_le.trans (Nat.le_succ _), (congrArg (· + 1) hs).le.trans hw.ge, h.works_le,
          h.loads_le, h.loads_le_runs, h.released,
          fun _ => ⟨⟨hbusy.started, hbusy.awake, hbusy.unfinished⟩, hheld⟩, h.asleep, h.seen,
          h.done, h.fresh⟩
      · simpa only [advanceBy, if_neg hx] using h
  | send c m =>
    obtain ⟨hbusy, -, -, hfree, hruns, -⟩ := hguar
    exact ⟨h.wakes_le, h.stamps_le, h.works_le, h.loads_le, h.loads_le_runs, h.released,
      fun hh => absurd (hfree.symm.trans hh) nofun,
      fun ha => absurd (hbusy.awake.symm.trans ha) nofun, h.seen,
      fun _ => ⟨hbusy.started, hfree, hruns⟩, h.fresh⟩
  | recv c => exact h
  | _ => exact hguar.elim

theorem Sampled.append {c : ℕ} {rd : Readings w} {stamp : ℕ → Ccnt w} {h : List (Event (sig w))}
    {ev : Event (sig w)} (hs : Sampled b r c rd stamp h) (hclock : clockOf ev = none)
    (hload : startOf ev = none) (hstamp : stampOf b r ev = none) :
    Sampled b r c rd stamp (h ++ [ev]) := by
  refine ⟨?_, ?_, ?_⟩
  · rw [clocks_append_of_none _ hclock, hs.clocks]
  · rw [loads_append, hload, Option.toList_none, List.append_nil, hs.loads]
  · rw [stamps_append, hstamp, Option.toList_none, List.append_nil, hs.stamps]

/-- An event after which the samples are still recorded. -/
theorem Recorded.append {h : List (Event (sig w))} {ev : Event (sig w)} (hrec : Recorded e b r h)
    (hclock : clockOf ev = none) (hload : startOf ev = none)
    (hstore : ∀ x, storeOf (σ := sig w) (.ccnt x) ev = none) : Recorded e b r (h ++ [ev]) := by
  obtain ⟨rd, stamp, hs, hres⟩ := hrec
  refine ⟨rd, stamp, hs.append hclock hload (hstore _), ?_⟩
  have hlast : lastCcnt (h ++ [ev]) = lastCcnt h := funext fun x => lastStore_append (hstore x) _
  rwa [hlast]

/-- An event that is counted by the progress. -/
theorem Traces.append {ev : Event (sig w)} (h : Traces e b r v)
    (hstarted : (advance (.thread b r) v.toProgress ev).started = true ↔
      v.started = true ∨ ∃ ℓ, ev = .started ℓ)
    (hdone : (advance (.thread b r) v.toProgress ev).done = true ↔
      v.done = true ∨ ∃ n, ev = .did (.send .doneEp .empty) n)
    (hloads : (advance (.thread b r) v.toProgress ev).loads = v.loads + (startOf ev).toList.length)
    (hstamps : (advance (.thread b r) v.toProgress ev).stamps =
      v.stamps + (stampOf b r ev).toList.length)
    (hclock : clockOf ev = none ∨ v.started = true)
    (hrec : (advance (.thread b r) v.toProgress ev).done = true →
      Recorded e b r (v.hist ++ [ev])) : Traces e b r (step (.thread b r) v ev) := by
  refine ⟨?_, ?_, ?_, ?_, fun hf => ?_, hrec⟩
  · rw [step_progress, step_hist, hstarted, started_append, h.started]
  · rw [step_progress, step_hist, hdone, doneSent_append, h.done]
  · rw [step_hist, loads_append, List.length_append, h.loads, step_progress, hloads]
  · rw [step_hist, stamps_append, List.length_append, h.stamps, step_progress, hstamps]
  · have hf' : v.started = false := by
      cases hv : v.started with
      | false => rfl
      | true => exact absurd (hf.symm.trans (hstarted.mpr (.inl hv))) nofun
    obtain hclock | hclock := hclock
    · rw [step_hist, clocks_append_of_none _ hclock, h.clocks hf']
    · exact absurd (hf'.symm.trans hclock) nofun

/-- The requests of a thread are counted by its progress. -/
theorem Traces.did {req : Req (sig w)} {a : req.Resp} (h : Traces e b r v)
    (hcounts : Counts e v.toProgress) (hguar : guarThread e b r v req) (hrely : rely v req a) :
    Traces e b r (step (.thread b r) v (.did req a)) := by
  have hnot : ∀ {P : Prop}, v.done = false → v.done = true → P := fun hf ht =>
    absurd (hf.symm.trans ht) nofun
  have hstart : v.started = true ↔
      v.started = true ∨ ∃ ℓ, (.did req a : Event (sig w)) = .started ℓ :=
    (or_iff_left fun ⟨_, h⟩ => nomatch h).symm
  cases req with
  | clock =>
    exact h.append hstart (or_iff_left nofun).symm rfl rfl (.inr hguar.started)
      (hnot hguar.unfinished)
  | acquire l =>
    exact h.append hstart (or_iff_left nofun).symm rfl rfl (.inl rfl)
      (hnot hguar.1.unfinished)
  | release l =>
    exact h.append hstart (or_iff_left nofun).symm rfl rfl (.inl rfl)
      (hnot hguar.1.unfinished)
  | sleep l c =>
    exact h.append hstart (or_iff_left nofun).symm rfl rfl (.inl rfl)
      (hnot hguar.1.unfinished)
  | asleep c =>
    exact h.append hstart (or_iff_left nofun).symm rfl rfl (.inl rfl)
      (hnot (hcounts.asleep hguar.2).2.2.1)
  | wake c =>
    exact h.append hstart (or_iff_left nofun).symm rfl rfl (.inl rfl)
      (hnot hguar.1.unfinished)
  | load x =>
    cases x with
    | fifoHead b' | ccnt x =>
      exact h.append hstart (or_iff_left nofun).symm rfl rfl (.inl rfl)
        (hnot hguar.1.unfinished)
  | store x t =>
    cases x with
    | fifoHead b' =>
      exact h.append hstart (or_iff_left nofun).symm rfl rfl (.inl rfl)
        (hnot hguar.1.unfinished)
    | ccnt x =>
      have hsame : ∀ {v' : Progress}, v' = advanceBy b r v.toProgress (.store (.ccnt x) t) a →
          v'.started = v.started ∧ v'.done = v.done ∧ v'.loads = v.loads := by
        rintro v' rfl
        simp only [advanceBy]
        split <;> exact ⟨rfl, rfl, rfl⟩
      obtain ⟨hs, hd, hl⟩ := hsame rfl
      refine h.append ?_ ?_ hl ?_ (.inl rfl) fun hdone => ?_
      · exact (hs ▸ Iff.rfl : _ ↔ v.started = true).trans hstart
      · exact (hd ▸ Iff.rfl : _ ↔ v.done = true).trans (or_iff_left nofun).symm
      · by_cases hx : x = (args b r).signal
        · subst hx
          simp [advance, advanceBy, stampOf, storeOf]
        · have hne : Var.ccnt x ≠ Var.ccnt (args b r).signal := fun heq => hx (Var.ccnt.inj heq)
          simp [advance, advanceBy, stampOf, storeOf, hx]
      · exact hnot hguar.1.unfinished (hd ▸ hdone)
  | send c m =>
    obtain ⟨-, rfl, rfl, -, -, hrec⟩ := hguar
    exact h.append hstart (iff_of_true rfl (.inr ⟨a, rfl⟩)) rfl rfl (.inl rfl)
      fun _ => hrec.append rfl rfl fun _ => rfl
  | recv c =>
    obtain ⟨-, rfl⟩ := hguar
    exact hrely.elim
  | _ => exact hguar.elim

theorem Own.did {p : Party} {req : Req (sig w)} {a : req.Resp} (h : Own e p v)
    (hguar : guar e p v req) (hrely : rely v req a) : Own e p (step p v (.did req a)) := by
  cases p with
  | driver => exact h
  | thread b r => exact ⟨h.1.did hguar, h.2.did h.1 hguar hrely⟩

theorem Own.started {p : Party} (h : Own e p v) (ℓ : Label w) :
    Own e p (step p v (.started ℓ)) := by
  cases p with
  | driver => exact h
  | thread b r =>
    obtain ⟨hc, ht⟩ := h
    refine ⟨⟨hc.wakes_le, hc.stamps_le, hc.works_le, hc.loads_le, hc.loads_le_runs, hc.released,
      fun hh => ⟨⟨rfl, (hc.holding hh).awake, (hc.holding hh).unfinished⟩, hh⟩,
      fun ha => ⟨(hc.asleep ha).1, rfl, (hc.asleep ha).2.2⟩, hc.seen,
      fun hd => ⟨rfl, (hc.done hd).2⟩, nofun⟩, ?_⟩
    exact ht.append (iff_of_true rfl (.inr ⟨ℓ, rfl⟩)) (or_iff_left nofun).symm rfl rfl (.inl rfl)
      fun hd => (ht.recorded hd).append rfl rfl fun _ => rfl

theorem Own.stopped {p : Party} (h : Own e p v) : Own e p (step p v .stopped) := by
  cases p with
  | driver => exact h
  | thread b r =>
    have hstart : ¬∃ ℓ, (.stopped : Event (sig w)) = .started ℓ := fun ⟨_, h⟩ => nomatch h
    exact ⟨h.1, h.2.append (or_iff_left hstart).symm (or_iff_left nofun).symm rfl rfl (.inl rfl)
      fun hd => (h.2.recorded hd).append rfl rfl fun _ => rfl⟩

end Own

/-! ### How the progress is related -/

section Related

variable {κ κ' : Kernel (sig w)} {g : Party → Progress} {b b' : Bench} {r r' : Role}

/-- A thread that has been started and is not done belongs to the benchmark that is running. -/
theorem Related.stage_le (h : Related κ g) (hdone : (g (.thread b r)).done = false) :
    (g .driver).stage ≤ base b + 4 := by
  have hdones := h.done b
  by_contra hlt
  have hmin : min ((g .driver).stage - (base b + 3)) 2 = 2 := by omega
  have hprod := (g (.thread b .producer)).done.toNat_le
  have hcons := (g (.thread b .consumer)).done.toNat_le
  have hzero : (g (.thread b r)).done.toNat = 0 := by rw [hdone, Bool.toNat_false]
  cases r <;> omega

theorem Related.done_of_stage (h : Related κ g) (hle : base b + 5 ≤ (g .driver).stage) (r : Role) :
    (g (.thread b r)).done = true := by
  cases hd : (g (.thread b r)).done with
  | true => rfl
  | false =>
    have hstage := h.stage_le hd
    omega

/-- Only one benchmark is running. -/
theorem Related.bench_eq (h : Related κ g) (hs : (g (.thread b r)).started = true)
    (hd : (g (.thread b r)).done = false) (hs' : (g (.thread b' r')).started = true)
    (hd' : (g (.thread b' r')).done = false) : b' = b := by
  have hlt := (h.started b r).mp hs
  have hlt' := (h.started b' r').mp hs'
  have hle := h.stage_le hd
  have hle' := h.stage_le hd'
  cases b <;> cases b' <;> simp only [base] at * <;> omega

/-- A thread has to wait when it is ahead of the other one. -/
theorem Related.condition_iff (h : Related κ g) (hb : base b < (g .driver).stage) {n : ℤ}
    (hn : fifoHead κ b = n) : condition r n = true ↔
      (g (.thread b r)).works = (g (.thread b r.other)).works + r.lead := by
  have hfifo := h.fifo b hb
  rw [hn] at hfifo
  have hprod : (g (.thread b .producer)).works ≤ (g (.thread b .consumer)).works + 1 :=
    h.order b .producer
  have hcons : (g (.thread b .consumer)).works ≤ (g (.thread b .producer)).works :=
    h.order b .consumer
  cases r with
  | producer =>
    simp only [condition, fifoSize, beq_iff_eq, Role.other, Role.lead]
    omega
  | consumer =>
    simp only [condition, beq_iff_eq, Role.other, Role.lead]
    omega

/-- `fifo_head` is between zero and its bound. -/
theorem Related.fifo_bounds (h : Related κ g) (hb : base b < (g .driver).stage) :
    0 ≤ fifoHead κ b ∧ fifoHead κ b ≤ fifoSize := by
  have hprod : (g (.thread b .producer)).works ≤ (g (.thread b .consumer)).works + 1 :=
    h.order b .producer
  have hcons : (g (.thread b .consumer)).works ≤ (g (.thread b .producer)).works :=
    h.order b .consumer
  rw [h.fifo b hb, fifoSize]
  omega

theorem fifoHead_update (κ : Kernel (sig w)) (b b' : Bench) (n : ℤ) :
    fifoHead { κ with mem := Function.update κ.mem (.fifoHead b) n } b' =
      if b' = b then n else fifoHead κ b' := by
  by_cases hbb : b' = b
  · subst hbb
    simp [fifoHead]
  · have hne : Var.fifoHead b' ≠ Var.fifoHead b := fun heq => hbb (Var.fifoHead.inj heq)
    rw [if_neg hbb]
    exact Function.update_of_ne hne n κ.mem

theorem update_field {α : Type} (f : Progress → α) {p : Party} {v : Progress}
    (h : f v = f (g p)) (q : Party) : f (Function.update g p v q) = f (g q) := by
  by_cases hq : q = p
  · subst hq
    rwa [Function.update_self]
  · rw [Function.update_of_ne hq]

/-- A thread goes on in its round, without working or waking. -/
theorem Related.update {v : Progress} (h : Related κ g)
    (hlock : ∀ q, (Function.update g (.thread b r) v q).holding = true ↔ κ'.owner .lock = some q)
    (hmem : fifoHead κ' = fifoHead κ) (hstarted : v.started = (g (.thread b r)).started)
    (hdone : v.done = (g (.thread b r)).done) (hworks : v.works = (g (.thread b r)).works)
    (hwakes : v.wakes = (g (.thread b r)).wakes)
    (hseen : ∀ n, v.seen = some n → fifoHead κ b = n)
    (hasleep : v.asleep = true →
      (g (.thread b r)).works = (g (.thread b r.other)).wakes + r.lead) :
    Related κ' (Function.update g (.thread b r) v) := by
  have hdriver : Function.update g (.thread b r) v .driver = g .driver :=
    Function.update_of_ne (by nofun) _ _
  refine ⟨hlock, fun b' r' => ?_, fun b' => ?_, fun b' r' => ?_, fun b' hb' => ?_,
    fun b' r' n hn => ?_, fun b' r' ha => ?_⟩
  · rw [update_field Progress.started hstarted, hdriver, h.started]
  · rw [update_field Progress.done hdone, update_field Progress.done hdone, hdriver, h.done]
  · rw [update_field Progress.works hworks, update_field Progress.works hworks]
    exact h.order b' r'
  · rw [hdriver] at hb'
    rw [update_field Progress.works hworks, update_field Progress.works hworks, hmem, h.fifo b' hb']
  · rw [hmem]
    by_cases hq : Party.thread b' r' = .thread b r
    · obtain ⟨rfl, rfl⟩ := Party.thread.inj hq
      rw [Function.update_self] at hn
      exact hseen n hn
    · rw [Function.update_of_ne hq] at hn
      exact h.seen b' r' n hn
  · rw [update_field Progress.works hworks, update_field Progress.wakes hwakes]
    by_cases hq : Party.thread b' r' = .thread b r
    · obtain ⟨rfl, rfl⟩ := Party.thread.inj hq
      rw [Function.update_self] at ha
      exact hasleep ha
    · rw [Function.update_of_ne hq] at ha
      exact h.asleep b' r' ha

theorem Related.of_kernel (h : Related κ g) (howner : κ'.owner = κ.owner)
    (hmem : fifoHead κ' = fifoHead κ) : Related κ' g := by
  obtain ⟨hlock, hstarted, hdone, horder, hfifo, hseen, hasleep⟩ := h
  exact ⟨howner ▸ hlock, hstarted, hdone, horder, hmem ▸ hfifo, hmem ▸ hseen, hasleep⟩

theorem Related.lock_update {v : Progress} (h : Related κ g) {p : Party}
    (hv : v.holding = (g p).holding) (q : Party) :
    (Function.update g p v q).holding = true ↔ κ.owner .lock = some q := by
  rw [update_field Progress.holding hv]
  exact h.lock q

theorem Related.acquire (h : Related κ g) (hfree : κ.owner .lock = none)
    (hseen : (g (.thread b r)).seen = none) (hawake : (g (.thread b r)).asleep = false) :
    Related { κ with owner := Function.update κ.owner .lock (some (.thread b r)) }
      (Function.update g (.thread b r) { g (.thread b r) with holding := true }) := by
  refine h.update (fun q => ?_) rfl rfl rfl rfl rfl
    (fun n hn => absurd (hseen.symm.trans hn) nofun) fun ha => absurd (hawake.symm.trans ha) nofun
  by_cases hq : q = .thread b r
  · subst hq
    simp
  · have hnot : (g q).holding ≠ true := fun hh => absurd (hfree.symm.trans ((h.lock q).mp hh)) nofun
    simp [hq, hnot, Ne.symm hq]

theorem Related.lock_release {v : Progress} (h : Related κ g)
    (hhold : (g (.thread b r)).holding = true) (hv : v.holding = false) (q : Party) :
    (Function.update g (.thread b r) v q).holding = true ↔
      Function.update κ.owner .lock none .lock = some q := by
  have howner := (h.lock _).mp hhold
  by_cases hq : q = .thread b r
  · subst hq
    simp [hv]
  · have hnot : (g q).holding ≠ true := fun hh =>
      hq (Option.some_inj.mp (((h.lock q).mp hh).symm.trans howner))
    simp [hq, hnot]

/-- A thread works: it may do so only when it does not have to wait. -/
theorem Related.work {v : Progress} (h : Related κ g) (hawake : v.asleep = false)
    (hb : base b < (g .driver).stage) (hother : (g (.thread b r.other)).seen = none) {m n : ℤ}
    (hm : (g (.thread b r)).seen = some m) (hcond : condition r m = false) (hn : n = work r m)
    (hmem : ∀ b', fifoHead κ' b' = if b' = b then n else fifoHead κ b')
    (howner : κ'.owner = κ.owner) (hholding : v.holding = (g (.thread b r)).holding)
    (hstarted : v.started = (g (.thread b r)).started) (hdone : v.done = (g (.thread b r)).done)
    (hwakes : v.wakes = (g (.thread b r)).wakes) (hworks : v.works = (g (.thread b r)).works + 1)
    (hseen : v.seen = some n) : Related κ' (Function.update g (.thread b r) v) := by
  have hfifo := h.fifo b hb
  rw [h.seen b r m hm] at hfifo
  have hahead := mt (h.condition_iff (r := r) hb (h.seen b r m hm)).mpr (by simp [hcond])
  have hdriver : Function.update g (.thread b r) v .driver = g .driver :=
    Function.update_of_ne (by nofun) _ _
  have hself : ∀ {b' r'}, Party.thread b' r' ≠ .thread b r → b' = b → r' = r.other := by
    rintro b' r' hne rfl
    cases r <;> cases r' <;> first | exact absurd rfl hne | rfl
  have hne : Party.thread b r.other ≠ .thread b r := fun heq => r.other_ne (Party.thread.inj heq).2
  have hprod : (g (.thread b .producer)).works ≤ (g (.thread b .consumer)).works + 1 :=
    h.order b .producer
  have hcons : (g (.thread b .consumer)).works ≤ (g (.thread b .producer)).works :=
    h.order b .consumer
  refine ⟨fun q => ?_, fun b' r' => ?_, fun b' => ?_, fun b' r' => ?_, fun b' hb' => ?_,
    fun b' r' k hk => ?_, fun b' r' ha => ?_⟩
  · rw [howner]
    exact h.lock_update hholding q
  · rw [update_field Progress.started hstarted, hdriver, h.started]
  · rw [update_field Progress.done hdone, update_field Progress.done hdone, hdriver, h.done]
  · by_cases hbb : b' = b
    · subst hbb
      cases r <;> cases r' <;> simp [Role.other, Role.lead] at * <;> omega
    · have hne : ∀ u, Party.thread b' u ≠ .thread b r := fun u heq => hbb (Party.thread.inj heq).1
      rw [Function.update_of_ne (hne _), Function.update_of_ne (hne _)]
      exact h.order b' r'
  · rw [hdriver] at hb'
    rw [hmem]
    by_cases hbb : b' = b
    · subst hbb
      rw [if_pos rfl, hn]
      cases r <;> simp [Sync.work, hworks] <;> omega
    · have hne : ∀ u, Party.thread b' u ≠ .thread b r := fun u heq => hbb (Party.thread.inj heq).1
      rw [if_neg hbb, Function.update_of_ne (hne _), Function.update_of_ne (hne _), h.fifo b' hb']
  · rw [hmem]
    by_cases hq : Party.thread b' r' = .thread b r
    · obtain ⟨rfl, rfl⟩ := Party.thread.inj hq
      rw [Function.update_self, hseen] at hk
      rw [if_pos rfl, Option.some_inj.mp hk]
    · rw [Function.update_of_ne hq] at hk
      by_cases hbb : b' = b
      · rw [hself hq hbb, hbb, hother] at hk
        exact absurd hk nofun
      · rw [if_neg hbb]
        exact h.seen b' r' k hk
  · by_cases hq : Party.thread b' r' = .thread b r
    · rw [hq, Function.update_self] at ha
      exact absurd (hawake.symm.trans ha) nofun
    · rw [Function.update_of_ne hq] at ha ⊢
      rw [update_field Progress.wakes hwakes]
      exact h.asleep b' r' ha

/-- A thread has signalled its condition variable, and the other one is awake. -/
theorem Related.wake {v : Progress} (h : Related κ g)
    (hother : (g (.thread b r.other)).asleep = false)
    (hholding : v.holding = (g (.thread b r)).holding)
    (hstarted : v.started = (g (.thread b r)).started) (hdone : v.done = (g (.thread b r)).done)
    (hworks : v.works = (g (.thread b r)).works) (hseen : v.seen = (g (.thread b r)).seen)
    (hasleep : v.asleep = (g (.thread b r)).asleep) :
    Related κ (Function.update g (.thread b r) v) := by
  have hdriver : Function.update g (.thread b r) v .driver = g .driver :=
    Function.update_of_ne (by nofun) _ _
  refine ⟨h.lock_update hholding, fun b' r' => ?_, fun b' => ?_, fun b' r' => ?_,
    fun b' hb' => ?_, fun b' r' n hn => ?_, fun b' r' ha => ?_⟩
  · rw [update_field Progress.started hstarted, hdriver, h.started]
  · rw [update_field Progress.done hdone, update_field Progress.done hdone, hdriver, h.done]
  · rw [update_field Progress.works hworks, update_field Progress.works hworks]
    exact h.order b' r'
  · rw [hdriver] at hb'
    rw [update_field Progress.works hworks, update_field Progress.works hworks, h.fifo b' hb']
  · rw [update_field Progress.seen hseen] at hn
    exact h.seen b' r' n hn
  · rw [update_field Progress.asleep hasleep] at ha
    rw [update_field Progress.works hworks]
    -- The sleeper is not the other thread, so it waits for somebody else.
    have hne : Party.thread b' r'.other ≠ .thread b r := by
      intro heq
      obtain ⟨rfl, rfl⟩ := Party.thread.inj heq
      rw [Role.other_other, ha] at hother
      exact absurd hother nofun
    rw [Function.update_of_ne hne]
    exact h.asleep b' r' ha

/-- What the driver does not change. -/
structure Same (v v' : Progress) : Prop where
  holding : v'.holding = v.holding
  works : v'.works = v.works
  wakes : v'.wakes = v.wakes
  asleep : v'.asleep = v.asleep
  seen : v'.seen = v.seen

theorem same_update {p : Party} {v : Progress} (h : Same (g p) v) (q : Party) :
    Same (g q) (Function.update g p v q) :=
  ⟨update_field Progress.holding h.holding q, update_field Progress.works h.works q,
    update_field Progress.wakes h.wakes q, update_field Progress.asleep h.asleep q,
    update_field Progress.seen h.seen q⟩

theorem same_update_two {p p' : Party} {v v' : Progress} (hp : p' ≠ p) (h : Same (g p) v)
    (h' : Same (g p') v') (q : Party) :
    Same (g q) (Function.update (Function.update g p v) p' v' q) := by
  by_cases hq : q = p'
  · subst hq
    rwa [Function.update_self]
  · rw [Function.update_of_ne hq]
    exact same_update h q

theorem Related.driver {g' : Party → Progress} (h : Related κ g) (hsame : ∀ q, Same (g q) (g' q))
    (howner : κ'.owner = κ.owner)
    (hstarted : ∀ b r, (g' (.thread b r)).started = true ↔ base b + begin r < (g' .driver).stage)
    (hdone : ∀ b, min ((g' .driver).stage - (base b + 3)) 2 =
      (g' (.thread b .producer)).done.toNat + (g' (.thread b .consumer)).done.toNat)
    (hfifo : ∀ b, base b < (g' .driver).stage → fifoHead κ' b =
      ((g (.thread b .producer)).works : ℤ) - (g (.thread b .consumer)).works)
    (hseen : ∀ b r n, (g (.thread b r)).seen = some n → fifoHead κ' b = n) : Related κ' g' := by
  refine ⟨fun p => ?_, hstarted, hdone, fun b r => ?_, fun b hb => ?_, fun b r n hn => ?_,
    fun b r ha => ?_⟩
  · rw [(hsame p).holding, howner]
    exact h.lock p
  · rw [(hsame _).works, (hsame _).works]
    exact h.order b r
  · rw [(hsame _).works, (hsame _).works]
    exact hfifo b hb
  · rw [(hsame _).seen] at hn
    exact hseen b r n hn
  · rw [(hsame _).asleep] at ha
    rw [(hsame _).works, (hsame _).wakes]
    exact h.asleep b r ha

/-- A step of the driver leaves the threads alone. -/
theorem update_driver_thread (v : Progress) (b : Bench) (r : Role) :
    Function.update g .driver v (.thread b r) = g (.thread b r) :=
  Function.update_of_ne (by nofun) _ _

/-- Starting a thread begins no benchmark. -/
theorem base_lt_of_begin {b b' : Bench} {r : Role} (h : base b' < base b + begin r + 1) :
    base b' < base b + begin r := by
  cases b <;> cases r <;> cases b' <;> simp_all [base, begin]

/-- Suspending a thread begins no benchmark. -/
theorem base_lt_of_end {b b' : Bench} {r : Role} (h : base b' < base b + 4 + begin r + 1) :
    base b' < base b + 4 + begin r := by
  cases b <;> cases r <;> cases b' <;> simp_all [base, begin]

/-- The driver sets `fifo_head` of a benchmark before it starts the threads. -/
theorem Related.init_fifo (h : Related κ g) (hstage : (g .driver).stage = base b)
    (hworks : ∀ r, (g (.thread b r)).works = 0) (hseen : ∀ r, (g (.thread b r)).seen = none)
    (howner : κ'.owner = κ.owner)
    (hmem : ∀ b', fifoHead κ' b' = if b' = b then 0 else fifoHead κ b') :
    Related κ' (Function.update g .driver { g .driver with stage := (g .driver).stage + 1 }) := by
  refine h.driver (same_update ⟨rfl, rfl, rfl, rfl, rfl⟩) howner (fun b' r' => ?_) (fun b' => ?_)
    (fun b' hb' => ?_) fun b' r' n hn => ?_
  · rw [update_driver_thread, h.started, Function.update_self, hstage]
    cases b <;> cases b' <;> cases r' <;> simp [base, begin]
  · rw [update_driver_thread, update_driver_thread, ← h.done, Function.update_self, hstage]
    cases b <;> cases b' <;> rfl
  · rw [hmem]
    by_cases hbb : b' = b
    · rw [if_pos hbb, hbb, hworks, hworks, Int.sub_self]
    · rw [Function.update_self, hstage] at hb'
      rw [if_neg hbb]
      refine h.fifo b' ?_
      rw [hstage]
      cases b <;> cases b' <;> first | exact absurd rfl hbb | simp_all [base]
  · rw [hmem]
    by_cases hbb : b' = b
    · rw [hbb, hseen] at hn
      exact absurd hn nofun
    · rw [if_neg hbb]
      exact h.seen b' r' n hn

theorem Related.start (h : Related κ g) (hstage : (g .driver).stage = base b + begin r)
    (howner : κ'.owner = κ.owner) (hmem : fifoHead κ' = fifoHead κ) :
    Related κ' (Function.update (Function.update g .driver
      { g .driver with stage := (g .driver).stage + 1 }) (.thread b r)
      { g (.thread b r) with started := true }) := by
  have hdriver : Function.update (Function.update g .driver
      { g .driver with stage := (g .driver).stage + 1 }) (.thread b r)
      { g (.thread b r) with started := true } .driver =
        { g .driver with stage := (g .driver).stage + 1 } := by
    rw [Function.update_of_ne (by nofun), Function.update_self]
  have hdone : ∀ q, (Function.update (Function.update g .driver
      { g .driver with stage := (g .driver).stage + 1 }) (.thread b r)
      { g (.thread b r) with started := true } q).done = (g q).done := by
    intro q
    by_cases hq : q = .thread b r
    · subst hq
      rw [Function.update_self]
    · rw [Function.update_of_ne hq]
      exact update_field Progress.done (by rfl) q
  refine h.driver (same_update_two (by nofun) ⟨rfl, rfl, rfl, rfl, rfl⟩ ⟨rfl, rfl, rfl, rfl, rfl⟩)
    howner (fun b' r' => ?_) (fun b' => ?_) (fun b' hb' => ?_) fun b' r' n hn => ?_
  · rw [hdriver, hstage]
    by_cases hq : Party.thread b' r' = .thread b r
    · obtain ⟨rfl, rfl⟩ := Party.thread.inj hq
      simp
    · rw [Function.update_of_ne hq, Function.update_of_ne (by nofun), h.started, hstage]
      cases b <;> cases r <;> cases b' <;> cases r' <;>
        first | exact absurd rfl hq | simp [base, begin]
  · rw [hdone, hdone, ← h.done, hdriver, hstage]
    cases b <;> cases r <;> cases b' <;> rfl
  · rw [hdriver, hstage] at hb'
    rw [hmem]
    exact h.fifo b' (hstage ▸ base_lt_of_begin hb')
  · rw [hmem]
    exact h.seen b' r' n hn

theorem Related.suspend (h : Related κ g) (hstage : (g .driver).stage = base b + 4 + begin r)
    (howner : κ'.owner = κ.owner) (hmem : fifoHead κ' = fifoHead κ) :
    Related κ' (Function.update (Function.update g .driver
      { g .driver with stage := (g .driver).stage + 1 }) (.thread b r) (g (.thread b r))) := by
  have hself : Function.update (Function.update g .driver
      { g .driver with stage := (g .driver).stage + 1 }) (.thread b r) (g (.thread b r)) =
      Function.update g .driver { g .driver with stage := (g .driver).stage + 1 } :=
    Function.update_eq_iff.mpr ⟨(Function.update_of_ne (by nofun) _ _).symm, fun _ _ => rfl⟩
  rw [hself]
  refine h.driver (same_update ⟨rfl, rfl, rfl, rfl, rfl⟩) howner (fun b' r' => ?_) (fun b' => ?_)
    (fun b' hb' => ?_) fun b' r' n hn => ?_
  · rw [update_driver_thread, h.started, Function.update_self, hstage]
    cases b <;> cases r <;> cases b' <;> cases r' <;> simp [base, begin]
  · rw [update_driver_thread, update_driver_thread, ← h.done, Function.update_self, hstage]
    cases b <;> cases r <;> cases b' <;> rfl
  · rw [Function.update_self, hstage] at hb'
    rw [hmem]
    exact h.fifo b' (hstage ▸ base_lt_of_end hb')
  · rw [hmem]
    exact h.seen b' r' n hn

theorem Related.sendDone {v : Progress} (h : Related κ g)
    (hstarted : (g (.thread b r)).started = true) (hdone : (g (.thread b r)).done = false)
    (hstage : ∃ b', (g .driver).stage = base b' + 3 ∨ (g .driver).stage = base b' + 4)
    (hv : v = { g (.thread b r) with done := true }) (howner : κ'.owner = κ.owner)
    (hmem : fifoHead κ' = fifoHead κ) :
    Related κ' (Function.update (Function.update g (.thread b r) v) .driver
      { g .driver with stage := (g .driver).stage + 1 }) := by
  subst hv
  have hlt := (h.started b r).mp hstarted
  have hle := h.stage_le hdone
  have hthread : ∀ b' r', Function.update (Function.update g (.thread b r)
      { g (.thread b r) with done := true }) .driver
      { g .driver with stage := (g .driver).stage + 1 } (.thread b' r') =
      Function.update g (.thread b r) { g (.thread b r) with done := true } (.thread b' r') :=
    fun _ _ => Function.update_of_ne (by nofun) _ _
  have hkept : ∀ q,
      (Function.update g (.thread b r) { g (.thread b r) with done := true } q).started =
      (g q).started := update_field Progress.started rfl
  -- The driver waits for the done messages of the same benchmark.
  have hstage' : (g .driver).stage = base b + 3 ∨ (g .driver).stage = base b + 4 := by
    obtain ⟨b', hb'⟩ := hstage
    cases b <;> cases b' <;> simp only [base] at * <;> omega
  refine h.driver (same_update_two (by nofun) ⟨rfl, rfl, rfl, rfl, rfl⟩ ⟨rfl, rfl, rfl, rfl, rfl⟩)
    howner (fun b' r' => ?_) (fun b' => ?_) (fun b' hb' => ?_) fun b' r' n hn => ?_
  · rw [hthread, hkept, h.started, Function.update_self]
    cases b <;> cases b' <;> cases r' <;> simp only [base, begin] at * <;> omega
  · have hdones := h.done b'
    rw [hthread, hthread, Function.update_self]
    by_cases hbb : b' = b
    · subst hbb
      have hzero : (g (.thread b' r)).done.toNat = 0 := by rw [hdone, Bool.toNat_false]
      cases r <;> simp [hdone] at * <;> omega
    · have hne : ∀ u, Party.thread b' u ≠ .thread b r := fun u heq => hbb (Party.thread.inj heq).1
      rw [Function.update_of_ne (hne _), Function.update_of_ne (hne _), ← hdones]
      cases b <;> cases b' <;> first | exact absurd rfl hbb | (simp only [base] at *; omega)
  · rw [Function.update_self] at hb'
    rw [hmem]
    refine h.fifo b' ?_
    cases b <;> cases b' <;> simp only [base] at * <;> omega
  · rw [hmem]
    exact h.seen b' r' n hn

end Related

/-! ### How the views are related -/

/-- The views after an event. -/
abbrev next (e : Setup w) (g : Party → View w) (p : Party) (ev : Event (sig w)) : Party → View w :=
  (protocol e).next g p ev

section Rel

variable {e : Setup w} {κ κ' : Kernel (sig w)} {g : Party → View w} {p q : Party}
  {ev ev' : Event (sig w)} {b : Bench} {r : Role}

theorem tracks_progress : (protocol e).Tracks View.toProgress advance := fun _ _ _ => rfl

theorem records_hist : (protocol e).Records View.hist where
  init _ := rfl
  step _ _ _ := rfl

/-- The event stores no counter value. -/
def Silent (ev : Event (sig w)) : Prop := ∀ x, storeOf (σ := sig w) (.ccnt x) ev = none

/-- An event that reads no counter value keeps the order of the values. -/
theorem loads_next (h : ∀ b r, loads (g (.thread b r)).hist <+:
      before e b r ++ stamps b r.other (g (.thread b r.other)).hist) (hload : startOf ev = none)
    (b : Bench) (r : Role) : loads (next e g p ev (.thread b r)).hist <+:
      before e b r ++ stamps b r.other (next e g p ev (.thread b r.other)).hist := by
  have hloads : loads (next e g p ev (.thread b r)).hist = loads (g (.thread b r)).hist := by
    by_cases hq : Party.thread b r = p
    · subst hq
      simp [next, protocol, loads_append, hload]
    · simp [next, hq]
  have hstamps : stamps b r.other (g (.thread b r.other)).hist <+:
      stamps b r.other (next e g p ev (.thread b r.other)).hist := by
    by_cases hq : Party.thread b r.other = p
    · subst hq
      simp [next, protocol, stamps_append]
    · simp [next, hq]
  rw [hloads]
  exact (h b r).trans ((List.prefix_append_right_inj _).mpr hstamps)

/-- An event of one party that neither reads nor writes counter values. -/
theorem Rel.event (h : Rel e κ g) (hload : startOf ev = none) (hev : Silent ev)
    (hmem : ∀ x, κ'.mem (.ccnt x) = κ.mem (.ccnt x))
    (hrel : Related κ' (Function.update (fun q => (g q).toProgress) p
      (advance p (g p).toProgress ev))) : Rel e κ' (next e g p ev) :=
  ⟨tracks_progress.next ▸ hrel,
    fun x => records_hist.mem_next ((hmem x).trans (h.mem x)) (hev x),
    loads_next h.loads hload⟩

/-- Events of two parties that neither read nor write counter values. -/
theorem Rel.event_two (h : Rel e κ g) (hpq : q ≠ p) (hload : startOf ev = none)
    (hload' : startOf ev' = none) (hev : Silent ev) (hev' : Silent ev')
    (hmem : ∀ x, κ'.mem (.ccnt x) = κ.mem (.ccnt x))
    (hrel : Related κ' (Function.update (Function.update (fun u => (g u).toProgress) p
      (advance p (g p).toProgress ev)) q (advance q (g q).toProgress ev'))) :
    Rel e κ' (next e (next e g p ev) q ev') :=
  ⟨tracks_progress.next_two hpq ▸ hrel, fun x =>
    records_hist.mem_next (records_hist.mem_next ((hmem x).trans (h.mem x)) (hev x)) (hev' x),
    loads_next (loads_next h.loads hload) hload'⟩

theorem Rel.store (h : Rel e κ g) {x : CcntVar} (hx : writer x = .thread b r) (t : Ccnt w) :
    Rel e { κ with mem := Function.update κ.mem (.ccnt x) t }
      (next e g (.thread b r) (.did (.store (.ccnt x) t) ())) := by
  refine ⟨?_, fun y => ?_, loads_next h.loads rfl⟩
  · have hfifo : fifoHead { κ with mem := Function.update κ.mem (.ccnt x) t } = fifoHead κ :=
      funext fun b => Function.update_of_ne (nofun : Var.fifoHead b ≠ .ccnt x) t κ.mem
    have hrel : Related { κ with mem := Function.update κ.mem (.ccnt x) t } _ :=
      h.related.of_kernel rfl hfifo
    rw [tracks_progress.next]
    simp only [advance, advanceBy]
    split
    · exact hrel.update (hrel.lock_update rfl) rfl rfl rfl rfl rfl (hrel.seen b r) (hrel.asleep b r)
    · rwa [Function.update_eq_self]
  · exact records_hist.mem_next_store (x := .ccnt x) t (h.mem y) fun heq => Var.ccnt.inj heq ▸ hx

/-- The lock is held by one thread only. -/
theorem Related.free_of_holding {g : Party → Progress} (h : Related κ g) (hp : (g p).holding = true)
    (hq : q ≠ p) : (g q).holding = false := by
  cases hv : (g q).holding with
  | false => rfl
  | true =>
    have heq := ((h.lock q).mp hv).symm.trans ((h.lock p).mp hp)
    exact absurd (Option.some_inj.mp heq) hq

theorem thread_other_ne (b : Bench) (r : Role) : Party.thread b r.other ≠ .thread b r := fun heq =>
  r.other_ne (Party.thread.inj heq).2

/-- The last of the times that a thread may have read. -/
theorem Rel.getLast_stamps (h : Rel e κ g)
    (hpos : 0 < (before e b r ++ stamps b r.other (g (.thread b r.other)).hist).length) :
    (before e b r ++ stamps b r.other (g (.thread b r.other)).hist).getLast? =
      some (κ.mem (.ccnt (args b r).start)) := by
  have hwriter : writer (args b r).start = .thread b r.other := by cases r <;> rfl
  have hcross : (args b r).start = (args b r.other).signal := by cases r <;> rfl
  have hlast : lastStore (σ := sig w) (.ccnt (args b r).start) (g (.thread b r.other)).hist =
      (stamps b r.other (g (.thread b r.other)).hist).getLast? := by
    rw [hcross]
    rfl
  rw [h.mem, hwriter, stored, hlast, List.getLast?_append]
  cases hs : (stamps b r.other (g (.thread b r.other)).hist).getLast? with
  | some t => rfl
  | none =>
    rw [List.getLast?_eq_none_iff.mp hs, List.append_nil] at hpos
    cases r with
    | producer => rfl
    | consumer => exact absurd hpos (lt_irrefl 0)

/-- A thread that may work reads the time that the other one has written last, and has not read it
before. -/
theorem Rel.load_prefix (h : Rel e κ g) (hown : ∀ q, Own e q (g q))
    (hhold : Holding (g (.thread b r)).toProgress)
    (hat : (g (.thread b r)).loads = (g (.thread b r)).works) {n : ℤ}
    (hseen : (g (.thread b r)).seen = some n) (hcond : condition r n = false) :
    Sync.loads (g (.thread b r)).hist ++ [κ.mem (.ccnt (args b r).start)] <+:
      before e b r ++ stamps b r.other (g (.thread b r.other)).hist := by
  have hrel := h.related
  have hstage := (hrel.started b r).mp hhold.started
  have hahead := mt (hrel.condition_iff (r := r) (by omega) (hrel.seen b r n hseen)).mpr
    (by simp [hcond])
  have hfree := hrel.free_of_holding hhold.holding (thread_other_ne b r)
  obtain ⟨hcounts, htraces⟩ := hown (.thread b r.other)
  have hother := hcounts.at_of_released (hcounts.released hfree)
  have hloads := (hown (.thread b r)).2.loads
  have hprod : (g (.thread b .producer)).works ≤ (g (.thread b .consumer)).works + 1 :=
    hrel.order b .producer
  have hcons : (g (.thread b .consumer)).works ≤ (g (.thread b .producer)).works :=
    hrel.order b .consumer
  have hlen : (before e b r ++ stamps b r.other (g (.thread b r.other)).hist).length =
      (Sync.loads (g (.thread b r)).hist).length + 1 := by
    rw [List.length_append, htraces.stamps, hloads, hat, hother.stamps, ← hother.works]
    cases r with
    | producer =>
      simp only [Role.other, Role.lead] at hahead
      simp only [before, List.length_singleton, Role.other]
      omega
    | consumer =>
      simp only [Role.other, Role.lead] at hahead
      simp only [before, List.length_nil, Role.other]
      omega
  exact concat_prefix_of_getLast (h.loads b r) hlen (h.getLast_stamps (by omega))

theorem Rel.load (h : Rel e κ g)
    (hloads : Sync.loads (g (.thread b r)).hist ++ [κ.mem (.ccnt (args b r).start)] <+:
      before e b r ++ stamps b r.other (g (.thread b r.other)).hist) :
    Rel e κ (next e g (.thread b r)
      (.did (.load (.ccnt (args b r).start)) (κ.mem (.ccnt (args b r).start)))) := by
  refine ⟨?_, fun x => records_hist.mem_next (h.mem x) rfl, fun b' r' => ?_⟩
  · rw [tracks_progress.next]
    exact h.related.update (h.related.lock_update rfl) rfl rfl rfl rfl rfl (h.related.seen b r)
      (h.related.asleep b r)
  · have hstamps : stamps b' r'.other (next e g (.thread b r) (.did (.load (.ccnt (args b r).start))
        (κ.mem (.ccnt (args b r).start))) (.thread b' r'.other)).hist =
        stamps b' r'.other (g (.thread b' r'.other)).hist := by
      by_cases hq : Party.thread b' r'.other = .thread b r
      · rw [hq]
        simp only [next, Protocol.next_self, protocol, step_hist, stamps_append]
        exact List.append_nil _
      · simp [next, hq]
    rw [hstamps]
    by_cases hq : Party.thread b' r' = .thread b r
    · obtain ⟨rfl, rfl⟩ := Party.thread.inj hq
      simp only [next, Protocol.next_self, protocol, step_hist, loads_append]
      exact hloads
    · simp only [next, ne_eq, hq, not_false_eq_true, Protocol.next_of_ne]
      exact h.loads b' r'

end Rel

/-! ### Soundness -/

section Sound

variable {e : Setup w} {F : Label w → Prog (sig w)} {s : State (sig w)} {b b' : Bench}
  {r r' : Role}

/-- A thread that sleeps waits on its condition variable. -/
theorem thread_of_asleep (hinv : (protocol e).Inv s)
    (ha : ((protocol e).view s.log (.thread b r)).asleep = true) :
    ∃ k, s.thread (.thread b r) = .op (.asleep (args b r).waitCv) k := by
  obtain ⟨hfree, hstarted, hdone, -⟩ := (hinv.own (.thread b r)).1.asleep ha
  have hsafe := hinv.safe (.thread b r)
  have hnot : ∀ {v : Progress}, v.asleep = true → ¬Busy v := fun ha hbusy =>
    absurd (hbusy.awake.symm.trans ha) nofun
  cases ht : s.thread (.thread b r) with
  | halt =>
    rw [ht] at hsafe
    obtain hs | hd := hsafe
    · exact absurd (hs.symm.trans hstarted) nofun
    · exact absurd (hdone.symm.trans hd) nofun
  | jump ℓ =>
    rw [ht] at hsafe
    exact absurd hsafe.2.2.1 (hnot ha)
  | op req k =>
    have hguar := hinv.guar ht
    cases req with
    | asleep c =>
      obtain ⟨rfl, -⟩ := hguar
      exact ⟨k, rfl⟩
    | clock => exact absurd hguar.toBusy (hnot ha)
    | acquire l => exact absurd hguar.1 (hnot ha)
    | release l => exact absurd hguar.1.toBusy (hnot ha)
    | sleep l c => exact absurd hguar.1.toBusy (hnot ha)
    | wake c => exact absurd hguar.1.toBusy (hnot ha)
    | load x => cases x <;> exact absurd hguar.1.toBusy (hnot ha)
    | store x t =>
      cases x with
      | fifoHead b' => exact absurd hguar.1.toBusy (hnot ha)
      | ccnt x => exact absurd hguar.1 (hnot ha)
    | send c m => exact absurd hguar.1 (hnot ha)
    | recv c => exact absurd (hdone.symm.trans hguar.1) nofun
    | _ => exact hguar.elim

/-- A thread signals the condition variable that the other one waits on. -/
theorem signalCv_eq_iff : (args b r).signalCv = (args b' r').waitCv ↔ r' = r.other := by
  cases r <;> cases r' <;> simp [args, producerArgs, consumerArgs, Role.other]

theorem related_wake (hinv : (protocol e).Inv s)
    (hp : guarThread e b r ((protocol e).view s.log (.thread b r)) (.wake (args b r).signalCv))
    {c : Cond} (hc : c = (args b r).signalCv)
    (hq : guarThread e b' r' ((protocol e).view s.log (.thread b' r')) (.asleep c)) :
    Related s.kernel (Function.update (Function.update
      (fun u => ((protocol e).view s.log u).toProgress) (.thread b r)
      (advance (.thread b r) ((protocol e).view s.log (.thread b r)).toProgress
        (.did (.wake c) (some (.thread b' r')) : Event (sig w)))) (.thread b' r')
      (advance (.thread b' r') ((protocol e).view s.log (.thread b' r')).toProgress
        (.did (.asleep c) () : Event (sig w)))) := by
  have hrel := hinv.rel.related
  obtain ⟨-, hstarted, hdone, -⟩ := (hinv.own (.thread b' r')).1.asleep hq.2
  obtain rfl := hrel.bench_eq hp.1.started hp.1.unfinished hstarted hdone
  obtain rfl : r' = r.other := signalCv_eq_iff.mp (hc.symm.trans hq.1)
  have hne := thread_other_ne b' r
  -- First the other thread is woken, then the signal is counted.
  rw [Function.update_comm hne.symm]
  have hwoken : Related s.kernel (Function.update (fun u => ((protocol e).view s.log u).toProgress)
      (.thread b' r.other) (advance (.thread b' r.other)
        ((protocol e).view s.log (.thread b' r.other)).toProgress
        (.did (.asleep c) () : Event (sig w)))) :=
    hrel.update (hrel.lock_update rfl) rfl rfl rfl rfl rfl (hrel.seen b' r.other) nofun
  have hself : Function.update (fun u => ((protocol e).view s.log u).toProgress)
      (.thread b' r.other) (advance (.thread b' r.other)
        ((protocol e).view s.log (.thread b' r.other)).toProgress
        (.did (.asleep c) () : Event (sig w))) (.thread b' r) =
      ((protocol e).view s.log (.thread b' r)).toProgress := Function.update_of_ne hne.symm _ _
  refine hwoken.wake ?_ ?_ ?_ ?_ ?_ ?_ ?_
  · rw [Function.update_self]
    rfl
  all_goals
    rw [hself]
    rfl

/-- A thread that has not been started holds no lock and has done nothing. -/
theorem fresh_of_stage (hinv : (protocol e).Inv s)
    (hstage : ((protocol e).view s.log .driver).stage ≤ base b + begin r) :
    let v := (protocol e).view s.log (.thread b r)
    v.started = false ∧ v.holding = false ∧ v.asleep = false ∧ v.done = false ∧ v.seen = none ∧
      At 0 v.toProgress := by
  intro v
  have hcounts : Counts e v.toProgress := (hinv.own (.thread b r)).1
  have hstarted : v.started = false := by
    cases hs : v.started with
    | false => rfl
    | true =>
      have hlt := (hinv.rel.related.started b r).mp hs
      omega
  have hnot : ∀ {P : Prop}, v.started = true → P := fun hs => absurd (hstarted.symm.trans hs) nofun
  have hfree : v.holding = false := by
    cases hh : v.holding with
    | false => rfl
    | true => exact hnot (hcounts.holding hh).started
  refine ⟨hstarted, hfree, ?_, ?_, ?_, ?_⟩
  · cases ha : v.asleep with
    | false => rfl
    | true => exact hnot (hcounts.asleep ha).2.1
  · cases hd : v.done with
    | false => rfl
    | true => exact hnot (hcounts.done hd).1
  · by_contra hne
    exact absurd (hfree.symm.trans (hcounts.seen hne)) nofun
  · have hat := hcounts.at_of_released (hcounts.released hfree)
    rwa [hcounts.fresh hstarted] at hat

theorem effect_thread (hinv : (protocol e).Inv s) {req : Req (sig w)} {a : req.Resp}
    {κ : Kernel (sig w)} (hguar : guarThread e b r ((protocol e).view s.log (.thread b r)) req)
    (heff : Effect s (.thread b r) req a κ) :
    rely ((protocol e).view s.log (.thread b r)) req a ∧
      Rel e κ (next e ((protocol e).view s.log) (.thread b r) (.did req a)) := by
  have hrel := hinv.rel
  have hrelated := hrel.related
  have hcounts := (hinv.own (.thread b r)).1
  cases heff with
  | clock t =>
    refine ⟨trivial, hrel.event rfl (fun _ => rfl) (fun _ => rfl) ?_⟩
    rwa [show advance (.thread b r) ((protocol e).view s.log (.thread b r)).toProgress
      (.did .clock t : Event (sig w)) = ((protocol e).view s.log (.thread b r)).toProgress from rfl,
      Function.update_eq_self (.thread b r) fun u => ((protocol e).view s.log u).toProgress]
  | load x =>
    cases x with
    | fifoHead b' =>
      obtain ⟨hhold, rfl⟩ := hguar
      refine ⟨hrelated.seen b' r, hrel.event rfl (fun _ => rfl) (fun _ => rfl) ?_⟩
      exact hrelated.update (hrelated.lock_update rfl) rfl rfl rfl rfl rfl
        (fun n hn => Option.some_inj.mp hn) (hrelated.asleep b' r)
    | ccnt x =>
      obtain ⟨hhold, rfl, hat, -, n, hseen, hcond⟩ := hguar
      exact ⟨trivial, hrel.load (hrel.load_prefix hinv.own hhold (hat.loads.trans hat.works.symm)
        hseen hcond)⟩
  | store x t =>
    cases x with
    | fifoHead b' =>
      obtain ⟨hhold, rfl, -, -, -, m, hm, hcond, hn⟩ := hguar
      refine ⟨trivial, hrel.event rfl (fun _ => rfl) (fun _ => rfl) ?_⟩
      have hstage := (hrelated.started b' r).mp hhold.started
      have hfree := hrelated.free_of_holding hhold.holding (thread_other_ne b' r)
      have hother : ((protocol e).view s.log (.thread b' r.other)).seen = none := by
        by_contra hne
        exact absurd (hfree.symm.trans ((hinv.own (.thread b' r.other)).1.seen hne)) nofun
      exact hrelated.work hhold.awake (by omega) hother hm hcond hn (fifoHead_update _ _ · _)
        rfl rfl rfl rfl rfl rfl rfl
    | ccnt x => exact ⟨trivial, hrel.store hguar.2.1 t⟩
  | replyNone m => exact hguar.elim
  | signal n | wait n => exact n.elim
  | acquire l hl =>
    obtain ⟨hbusy, hfree, -⟩ := hguar
    refine ⟨trivial, hrel.event rfl (fun _ => rfl) (fun _ => rfl)
      (hrelated.acquire hl ?_ hbusy.awake)⟩
    by_contra hne
    exact absurd (hfree.symm.trans (hcounts.seen hne)) nofun
  | release l =>
    obtain ⟨hhold, -⟩ := hguar
    refine ⟨trivial, hrel.event rfl (fun _ => rfl) (fun _ => rfl) ?_⟩
    exact hrelated.update (hrelated.lock_release hhold.holding rfl) rfl rfl rfl rfl rfl nofun
      fun ha => absurd (hhold.awake.symm.trans ha) nofun
  | sleep l c =>
    obtain ⟨hhold, -, hat, -, n, hseen, hcond⟩ := hguar
    refine ⟨trivial, hrel.event rfl (fun _ => rfl) (fun _ => rfl) ?_⟩
    refine hrelated.update (hrelated.lock_release hhold.holding rfl) rfl rfl rfl rfl rfl nofun
      fun _ => ?_
    have hstage := (hrelated.started b r).mp hhold.started
    have hahead := (hrelated.condition_iff (r := r) (by omega) (hrelated.seen b r n hseen)).mp hcond
    have hfree := hrelated.free_of_holding hhold.holding (thread_other_ne b r)
    have hother := (hinv.own (.thread b r.other)).1
    exact hahead.trans (congrArg (· + r.lead) (hother.at_of_released (hother.released hfree)).works)
  | wakeNone c hnone =>
    obtain ⟨hhold, rfl, -⟩ := hguar
    refine ⟨trivial, hrel.event rfl (fun _ => rfl) (fun _ => rfl) ?_⟩
    refine hrelated.wake ?_ rfl rfl rfl rfl rfl rfl
    cases ha : ((protocol e).view s.log (.thread b r.other)).asleep with
    | false => rfl
    | true =>
      obtain ⟨k, hk⟩ := thread_of_asleep hinv ha
      rw [← signalCv_eq_iff.mpr rfl] at hk
      exact absurd hk (hnone _ k)

theorem effect_driver (hinv : (protocol e).Inv s) {req : Req (sig w)} {a : req.Resp}
    {κ : Kernel (sig w)} (hguar : guarDriver ((protocol e).view s.log .driver) req)
    (heff : Effect s .driver req a κ) :
    rely ((protocol e).view s.log .driver) req a ∧
      Rel e κ (next e ((protocol e).view s.log) .driver (.did req a)) := by
  have hrel := hinv.rel
  have hrelated := hrel.related
  cases heff with
  | store x t =>
    cases x with
    | ccnt x => exact hguar.elim
    | fifoHead b =>
      obtain ⟨hstage, rfl⟩ := hguar
      refine ⟨trivial, hrel.event rfl (fun _ => rfl) (fun _ => rfl) ?_⟩
      have hfresh := fun r => fresh_of_stage (r := r) hinv (hstage.trans_le (Nat.le_add_right _ _))
      refine hrelated.init_fifo hstage (fun r => ?_) (fun r => ?_) rfl (fifoHead_update _ _ · _)
      · obtain ⟨-, -, -, -, -, hat⟩ := hfresh r
        exact hat.works
      · obtain ⟨-, -, -, -, hseen, -⟩ := hfresh r
        exact hseen
  | signal n | wait n => exact n.elim
  | load x => cases x <;> exact hguar.elim
  | clock | replyNone | acquire | release | sleep | wakeNone => exact hguar.elim

/-- A thread that is started begins with its first round. -/
theorem atLabel_entry (hinv : (protocol e).Inv s)
    (hstage : ((protocol e).view s.log .driver).stage = base b + begin r) :
    atLabel e (.thread b r) (entry b r)
      (step (.thread b r) ((protocol e).view s.log (.thread b r)) (.started (entry b r))) := by
  obtain ⟨hstarted, hfree, hawake, hdone, -, hat⟩ := fresh_of_stage (r := r) hinv hstage.le
  have htraces := (hinv.own (.thread b r)).2
  refine ⟨rfl, rfl, ⟨rfl, hawake, hdone⟩, hfree, ⟨hat.loads, hat.works, hat.stamps, hat.wakes⟩,
    Nat.zero_le _, ⟨0, 0⟩, 0, ⟨?_, ?_, ?_⟩, ?_⟩
  · rw [step_hist, clocks_append, htraces.clocks hstarted]
    rfl
  · have hlen := htraces.loads
    rw [hat.loads, List.length_eq_zero_iff] at hlen
    rw [step_hist, loads_append, hlen]
    rfl
  · have hlen := htraces.stamps
    rw [hat.stamps, List.length_eq_zero_iff] at hlen
    rw [step_hist, stamps_append, hlen]
    rfl
  · cases b with
    | late => exact nofun
    | early => rfl

theorem sound (hlabel : ∀ p ℓ v, atLabel e p ℓ v → ((protocol e).spec p).Safe (F ℓ) v) :
    (protocol e).Sound F fun _ _ => True where
  label := hlabel
  own := Own.did
  own_started h := h.started _
  own_stopped h := h.stopped
  effect {s p req a κ} hinv _ hguar heff := by
    cases p with
    | thread b r => exact effect_thread hinv hguar heff
    | driver => exact effect_driver hinv hguar heff
  exchange {s p q req a req' a' κ} hinv _ hpq hp hq hex := by
    have hrel := hinv.rel
    have hrelated := hrel.related
    cases p with
    | driver => cases hex <;> exact hp.elim
    | thread b r =>
      cases hex with
      | send c m =>
        obtain ⟨hbusy, rfl, rfl, -⟩ := hp
        cases q with
        | thread b' r' => exact absurd hq.2 nofun
        | driver =>
          exact ⟨trivial, rfl, hrel.event_two nofun rfl rfl (fun _ => rfl) (fun _ => rfl)
            (fun _ => rfl) (hrelated.sendDone hbusy.started hbusy.unfinished hq.2 rfl rfl rfl)⟩
      | call c m => exact hp.elim
      | reply m hcaller => exact hp.elim
      | wake c =>
        obtain ⟨hhold, rfl, hrest⟩ := hp
        cases q with
        | driver => exact hq.elim
        | thread b' r' =>
          exact ⟨trivial, trivial, hrel.event_two hpq.symm rfl rfl (fun _ => rfl) (fun _ => rfl)
            (fun _ => rfl) (related_wake hinv ⟨hhold, rfl, hrest⟩ rfl hq)⟩
  start {s p q ℓ} hinv _ hpq hguar := by
    have hrel := hinv.rel
    cases p with
    | thread b r => exact hguar.elim
    | driver =>
      cases q with
      | driver => exact absurd rfl hpq
      | thread b r =>
        obtain ⟨hstage, rfl⟩ := hguar
        exact ⟨trivial, atLabel_entry hinv hstage, hrel.event_two nofun rfl rfl (fun _ => rfl)
          (fun _ => rfl) (fun _ => rfl) (hrel.related.start hstage rfl rfl)⟩
  suspend {s p q} hinv _ hpq hguar := by
    have hrel := hinv.rel
    cases p with
    | thread b r => exact hguar.elim
    | driver =>
      cases q with
      | driver => exact absurd rfl hpq
      | thread b r =>
        have hstage : ((protocol e).view s.log .driver).stage = base b + 4 + begin r := hguar
        have hbegin : 1 ≤ begin r := by cases r <;> decide
        refine ⟨trivial, .inr (hrel.related.done_of_stage (by omega) r), ?_⟩
        exact hrel.event_two nofun rfl rfl (fun _ => rfl) (fun _ => rfl) (fun _ => rfl)
          (hrel.related.suspend hstage rfl rfl)

end Sound

/-! ### Progress -/

section Progress

variable {e : Setup w} {F : Label w → Prog (sig w)} {s : State (sig w)} {b : Bench} {r : Role}

/-- A thread that holds the lock can take a step. -/
theorem not_blocked_of_holding (hinv : (protocol e).Inv s)
    (hhold : ((protocol e).view s.log (.thread b r)).holding = true) :
    ¬Blocked F s (.thread b r) := by
  intro hblocked
  have hbusy := (hinv.own (.thread b r)).1.holding hhold
  have hact : ∀ {req : Req (sig w)} {k : req.Resp → Prog (sig w)} {a : req.Resp}
      {κ : Kernel (sig w)}, s.thread (.thread b r) = .op req k → Effect s (.thread b r) req a κ →
      False := fun hp heff => hblocked _ _ (List.mem_singleton_self _) (.act hp heff)
  have hsafe := hinv.safe (.thread b r)
  cases ht : s.thread (.thread b r) with
  | halt =>
    rw [ht] at hsafe
    obtain hs | hd := hsafe
    · exact absurd (hs.symm.trans hbusy.started) nofun
    · exact absurd (hbusy.unfinished.symm.trans hd) nofun
  | jump ℓ => exact hblocked _ _ (List.mem_singleton_self _) (.jump ht)
  | op req k =>
    have hguar := hinv.guar ht
    cases req with
    | clock => exact hact ht (.clock (0 : Ccnt w))
    | load x => exact hact ht (.load x)
    | store x t => exact hact ht (.store x t)
    | release l => exact hact ht (.release l)
    | sleep l c => exact hact ht (.sleep l c)
    | wake c =>
      by_cases hsleeper : ∃ q k, s.thread q = .op (.asleep c) k
      · obtain ⟨q, k', hq⟩ := hsleeper
        have hne : Party.thread b r ≠ q := by
          rintro rfl
          exact absurd (ht.symm.trans hq) nofun
        exact hblocked _ _ List.mem_cons_self (.exchange hne ht hq (.wake c))
      · exact hact ht (.wakeNone c fun q k' hq => hsleeper ⟨q, k', hq⟩)
    | acquire l => exact absurd (hguar.2.1.symm.trans hhold) nofun
    | asleep c => exact absurd (hbusy.awake.symm.trans hguar.2) nofun
    | send c m => exact absurd (hguar.2.2.2.1.symm.trans hhold) nofun
    | recv c => exact absurd (hbusy.unfinished.symm.trans hguar.1) nofun
    | _ => exact hguar.elim

/-- Where the driver is while both threads of a benchmark are running. -/
theorem driver_recv (hinv : (protocol e).Inv s)
    (hlt : base b + 2 < ((protocol e).view s.log .driver).stage)
    (hle : ((protocol e).view s.log .driver).stage ≤ base b + 4) :
    ∃ k, s.thread .driver = .op (.recv .doneEp) k := by
  have hsafe := hinv.safe .driver
  cases hd : s.thread .driver with
  | halt =>
    rw [hd] at hsafe
    have hstage : ((protocol e).view s.log .driver).stage = 14 := hsafe
    cases b <;> simp only [base] at * <;> omega
  | jump ℓ =>
    rw [hd] at hsafe
    exact hsafe.elim
  | op req k =>
    have hguar := hinv.guar hd
    cases req with
    | recv c =>
      obtain ⟨rfl, -⟩ := hguar
      exact ⟨k, rfl⟩
    | store x t =>
      cases x with
      | ccnt x => exact hguar.elim
      | fifoHead b' =>
        have hstage : ((protocol e).view s.log .driver).stage = base b' := hguar.1
        cases b <;> cases b' <;> simp only [base] at * <;> omega
    | start q ℓ =>
      cases q with
      | driver => exact hguar.elim
      | thread b' r' =>
        have hstage : ((protocol e).view s.log .driver).stage = base b' + begin r' := hguar.1
        cases b <;> cases b' <;> cases r' <;> simp only [base, begin] at * <;> omega
    | suspend q =>
      cases q with
      | driver => exact hguar.elim
      | thread b' r' =>
        have hstage : ((protocol e).view s.log .driver).stage = base b' + 4 + begin r' := hguar
        cases b <;> cases b' <;> cases r' <;> simp only [base, begin] at * <;> omega
    | _ => exact hguar.elim

/-- A running thread that is blocked sleeps, waits for the lock, or has sent its done message. -/
theorem thread_blocked (hinv : (protocol e).Inv s)
    (hdriver : ∃ k, s.thread .driver = .op (.recv .doneEp) k)
    (hstarted : ((protocol e).view s.log (.thread b r)).started = true)
    (hblocked : Blocked F s (.thread b r)) :
    let v := (protocol e).view s.log (.thread b r)
    v.asleep = true ∨ v.done = true ∨ ∃ q, s.kernel.owner .lock = some q := by
  intro v
  obtain ⟨kd, hd⟩ := hdriver
  have hfree : v.holding = false := by
    cases hh : v.holding with
    | false => rfl
    | true => exact absurd hblocked (not_blocked_of_holding hinv hh)
  have hnot : ∀ {P : Prop}, Holding v.toProgress → P := fun hh =>
    absurd (hfree.symm.trans hh.holding) nofun
  have hsafe := hinv.safe (.thread b r)
  cases ht : s.thread (.thread b r) with
  | halt =>
    rw [ht] at hsafe
    obtain hs | hdone := hsafe
    · exact absurd (hs.symm.trans hstarted) nofun
    · exact .inr (.inl hdone)
  | jump ℓ => exact absurd (Step.jump ht) (hblocked _ _ (List.mem_singleton_self _))
  | op req k =>
    have hguar := hinv.guar ht
    cases req with
    | asleep c => exact .inl hguar.2
    | recv c => exact .inr (.inl hguar.1)
    | acquire l =>
      cases ho : s.kernel.owner .lock with
      | some q => exact .inr (.inr ⟨q, rfl⟩)
      | none =>
        exact absurd (Step.act ht (.acquire l ho)) (hblocked _ _ (List.mem_singleton_self _))
    | send c m =>
      obtain ⟨-, rfl, -⟩ := hguar
      exact absurd (Step.exchange (by nofun) ht hd (.send _ m)) (hblocked _ _ List.mem_cons_self)
    | store x t =>
      exact absurd (Step.act ht (.store x t)) (hblocked _ _ (List.mem_singleton_self _))
    | clock => exact hnot hguar
    | release l => exact hnot hguar.1
    | sleep l c => exact hnot hguar.1
    | wake c => exact hnot hguar.1
    | load x => cases x <;> exact hnot hguar.1
    | _ => exact hguar.elim

/-- While both threads are running one of them can take a step. -/
theorem not_blocked (hinv : (protocol e).Inv s)
    (hlt : base b + 2 < ((protocol e).view s.log .driver).stage)
    (hle : ((protocol e).view s.log .driver).stage ≤ base b + 4) :
    ∃ r, ¬Blocked F s (.thread b r) := by
  by_contra hall
  have hblocked : ∀ r, Blocked F s (.thread b r) := fun r => by
    by_contra hnot
    exact hall ⟨r, hnot⟩
  have hrelated := hinv.rel.related
  have hdriver := driver_recv hinv hlt hle
  have hstarted : ∀ r, ((protocol e).view s.log (.thread b r)).started = true := fun r =>
    (hrelated.started b r).mpr (by cases r <;> simp only [begin] <;> omega)
  -- The lock is free: a thread that holds it is not blocked.
  have hfree : ∀ q, s.kernel.owner .lock ≠ some q := by
    intro q hq
    have hhold := (hrelated.lock q).mpr hq
    cases q with
    | driver =>
      have hnot : ((protocol e).view s.log .driver).holding = false := hinv.own .driver
      exact absurd (hnot.symm.trans hhold) nofun
    | thread b' r' =>
      have hbusy := (hinv.own (.thread b' r')).1.holding hhold
      have hlt' := (hrelated.started b' r').mp hbusy.started
      have hle' := hrelated.stage_le hbusy.unfinished
      have hbb : b' = b := by
        cases b <;> cases b' <;> simp only [base] at * <;> omega
      subst hbb
      exact not_blocked_of_holding hinv hhold (hblocked r')
  have hcase : ∀ r, ((protocol e).view s.log (.thread b r)).asleep = true ∨
      ((protocol e).view s.log (.thread b r)).done = true := fun r => by
    obtain ha | hd | ⟨q, hq⟩ := thread_blocked hinv hdriver (hstarted r) (hblocked r)
    · exact .inl ha
    · exact .inr hd
    · exact absurd hq (hfree q)
  have hcounts := fun r => (hinv.own (.thread b r)).1
  have hat : ∀ r, At ((protocol e).view s.log (.thread b r)).wakes
      ((protocol e).view s.log (.thread b r)).toProgress := fun r => by
    refine (hcounts r).at_of_released ((hcounts r).released ?_)
    obtain ha | hd := hcase r
    · exact ((hcounts r).asleep ha).1
    · exact ((hcounts r).done hd).2.1
  have hasleep : ∀ r, ((protocol e).view s.log (.thread b r)).asleep = true →
      ((protocol e).view s.log (.thread b r)).wakes =
        ((protocol e).view s.log (.thread b r.other)).wakes + r.lead ∧
      ((protocol e).view s.log (.thread b r)).wakes < e.runs := fun r ha =>
    ⟨(hat r).works.symm.trans (hrelated.asleep b r ha), ((hcounts r).asleep ha).2.2.2⟩
  have hdone : ∀ r, ((protocol e).view s.log (.thread b r)).done = true →
      ((protocol e).view s.log (.thread b r)).wakes = e.runs := fun r hd =>
    ((hcounts r).done hd).2.2
  have hp := hasleep .producer
  have hc := hasleep .consumer
  simp only [Role.other, Role.lead] at hp hc
  obtain hpa | hpd := hcase .producer <;> obtain hca | hcd := hcase .consumer
  · have := hp hpa
    have := hc hca
    omega
  · have := hp hpa
    have := hdone .consumer hcd
    omega
  · have := hdone .producer hpd
    have := hc hca
    omega
  · have hdones := hrelated.done b
    simp only [hpd, hcd, Bool.toNat_true] at hdones
    omega

/-- Some step is possible until the driver ends. -/
theorem progress (hinv : (protocol e).Inv s) (hfin : s.thread .driver ≠ .halt) : CanStep F s := by
  cases hd : s.thread .driver with
  | halt => exact absurd hd hfin
  | jump ℓ => exact .jump hd
  | op req k =>
    have hguar := hinv.guar hd
    cases req with
    | store x t => exact .act hd (.store x t)
    | start q ℓ =>
      cases q with
      | driver => exact hguar.elim
      | thread b r => exact .start hd nofun
    | suspend q =>
      cases q with
      | driver => exact hguar.elim
      | thread b r => exact .suspend hd nofun
    | recv c =>
      obtain ⟨-, b, hb⟩ := hguar
      obtain ⟨r, hr⟩ := not_blocked (F := F) (b := b) hinv (by omega) (by omega)
      by_contra hstuck
      exact hr fun ps s' _ hstep => hstuck ⟨ps, s', hstep⟩
    | _ => exact hguar.elim

end Progress

end Sel4bench.Sync
