import Sel4bench.Scheduler.Threads
import Sel4bench.Lib.Memory
import Sel4bench.Lib.Protocol
import Sel4bench.Lib.Trace

/-!
# The handshake of the scheduler benchmark

A single token moves between `high` and `low`: it is with one of the two threads, or it is the
pending flag of one of the two notifications (`Sel4bench.Scheduler.Sync.token`). Between two levels
both flags are clear, and threads that have sent their done message block on `produce` until they
are restarted. Under the fixed-priority rule the values of `start` that `low` has read are those
that `high` has written, in the same order (`Sel4bench.Scheduler.Rel.loads`).

## Main definitions

* `Sel4bench.Scheduler.Recorded` — what `low` knows at the end of a level.
* `Sel4bench.Scheduler.Own`, `Sel4bench.Scheduler.Rel`, `Sel4bench.Scheduler.protocol`.

## Main results

* `Sel4bench.Scheduler.sound` — threads that follow the protocol keep it.
* `Sel4bench.Scheduler.progress` — no state before the driver has ended is stuck.
-/

namespace Sel4bench.Scheduler

open Machine Trace

variable {w : ℕ}

/-! ### Histories -/

/-- The events since the last start. -/
def current (h : List (Event (sig w))) : List (Event (sig w)) :=
  h.foldl (fun cur ev => match ev with
    | .started _ => []
    | ev => cur ++ [ev]) []

/-- The entry point of the last start. -/
def lastEntry (h : List (Event (sig w))) : Option (Entry w) :=
  h.foldl (fun entry ev => match ev with
    | .started ℓ => some ℓ
    | _ => entry) none

/-- For a signal on `n`, whether the flag was already set. -/
def signalOf (n : Ntfn) : Event (sig w) → Option Bool
  | .did (.signal m) a => if m = n then some a else none
  | _ => none

/-- The event is a wait on `n`. -/
def isWait (n : Ntfn) : Event (sig w) → Bool
  | .did (.wait m) _ => m = n
  | _ => false

/-- The value of `start` that is read in the event. -/
def startOf : Event (sig w) → Option (Ccnt w) := loadOf (σ := sig w) .start

/-- The signals on `n`, with whether each found the flag already set. -/
def signals (n : Ntfn) (h : List (Event (sig w))) : List Bool := h.filterMap (signalOf n)

/-- The number of waits on `n`. -/
def waits (n : Ntfn) (h : List (Event (sig w))) : ℕ := h.countP (isWait n)

/-- The values of `start` that were read. -/
def loads (h : List (Event (sig w))) : List (Ccnt w) := h.filterMap startOf

/-- The values that were written to `start`. -/
def starts (h : List (Event (sig w))) : List (Ccnt w) :=
  h.filterMap (storeOf (σ := sig w) Var.start)

/-- The done message has been sent. -/
def DoneSent (h : List (Event (sig w))) : Prop := ∃ n, .did (.send .ep .empty) n ∈ h

/-! ### The protocol -/

/-- How far a party is since it was started. -/
structure Progress where
  active : Bool := false
  /-- The signals that it has sent. -/
  signals : ℕ := 0
  /-- The waits that have returned. -/
  waits : ℕ := 0
  /-- How often it has written or read `start`. -/
  times : ℕ := 0
  /-- It has sent its done message. -/
  done : Bool := false
  /-- The level of the driver. -/
  level : ℕ := 0
  /-- Where the driver is in a level: it has started none, `low`, both threads, or received one done
  message; in the end it has suspended `high` and `low`. -/
  stage : ℕ := 0

/-- What a party knows: how far it is, its history, the part of it since it was started, and the
entry point at which it was started. -/
structure View (w : ℕ) extends Progress where
  hist : List (Event (sig w)) := []
  cur : List (Event (sig w)) := []
  entry : Option (Entry w) := none

/-- The progress by an event. -/
def advance (p : Party) (v : Progress) (ev : Event (sig w)) : Progress :=
  match p, ev with
  | .driver, .did (.start .low _) _ => { v with stage := 1 }
  | .driver, .did (.start .high _) _ => { v with stage := 2 }
  | .driver, .did (.recv _) _ =>
    if v.stage = 2 then { v with stage := 3 } else { v with stage := 0, level := v.level + 1 }
  | .driver, .did (.suspend .high) _ => { v with stage := 4 }
  | .driver, .did (.suspend .low) _ => { v with stage := 5 }
  | .driver, _ => v
  | _, .started _ => { active := true }
  | _, .stopped => { v with active := false }
  | _, .did (.signal _) _ => { v with signals := v.signals + 1 }
  | _, .did (.wait _) _ => { v with waits := v.waits + 1 }
  | .high, .did (.store _ _) _ => { v with times := v.times + 1 }
  | .low, .did (.load _) _ => { v with times := v.times + 1 }
  | _, .did (.send _ _) _ => { v with done := true }
  | _, _ => v

/-- The view after an event. -/
def step (p : Party) (v : View w) (ev : Event (sig w)) : View w where
  toProgress := advance p v.toProgress ev
  hist := v.hist ++ [ev]
  cur := match ev with
    | .started _ => []
    | ev => v.cur ++ [ev]
  entry := match ev with
    | .started ℓ => some ℓ
    | _ => v.entry

@[simp] theorem step_hist (p : Party) (v : View w) (ev : Event (sig w)) :
    (step p v ev).hist = v.hist ++ [ev] := rfl

@[simp] theorem step_progress (p : Party) (v : View w) (ev : Event (sig w)) :
    (step p v ev).toProgress = advance p v.toProgress ev := rfl

/-- The setting of a benchmark: its constants, the memory that it finds, and whether the threads
are scheduled by fixed priorities. -/
structure Setup (w : ℕ) extends Config where
  mem : Var → Ccnt w
  bm : Benchmark w
  prio : Prop

/-- The party that writes a variable. -/
def writer : Var → Party
  | .start => .high
  | .result _ _ | .early _ _ => .low

/-- The notification that a thread signals, and the one that it waits for. -/
def out : Party → Ntfn
  | .high => .produce
  | .low | .driver => .consume

@[inherit_doc out]
def inn : Party → Ntfn
  | .high => .consume
  | .low | .driver => .produce

/-- The results of a level: the samples, or the sums of early processing. -/
def Results (cfg : Config) (bm : Benchmark w) (level : ℕ) (read : Var → Option (Ccnt w))
    (r : Readings w) : Prop :=
  match bm with
  | .late => ∀ i < cfg.runs, read (.result level i) = some (r.stop i - r.start i)
  | .early overheadCcntMin =>
    let res := earlyRun cfg.wordBits cfg.runs cfg.ignored r (wordArg cfg.wordBits overheadCcntMin)
    read (.early level .sum) = some res.sum ∧ read (.early level .sum2) = some res.sum2 ∧
      read (.early level .num) = some res.num

section Protocol

variable (e : Setup w)

omit e in
/-- `low` has been started at `ℓ` and has measured the first `c` samples. -/
structure Sampled (ℓ : Entry w) (c : ℕ) (r : Readings w) (v : View w) : Prop where
  entry : v.entry = some ℓ
  loads : loads v.cur = (List.range c).map r.start
  clocks : clocks v.cur = (List.range c).map r.stop

/-- `low` has measured and stored all samples of its level. -/
def Recorded (v : View w) : Prop :=
  ∃ (level : ℕ) (r : Readings w), Sampled (e.bm.low e.toConfig level) e.runs r v ∧
    Results e.toConfig e.bm level (fun x => lastStore x v.hist) r

/-- The thread has been started and has not sent its done message. -/
def Busy (v : Progress) : Prop := v.active = true ∧ v.done = false

/-- The thread has not been started, or has sent its done message. -/
def Idle (v : Progress) : Prop := v.active = false ∨ v.done = true

/-- The requests that a party may make. -/
def guar : Party → View w → Req (sig w) → Prop
  | .high, v, .signal .produce => Busy v.toProgress ∧ v.signals = v.waits ∧ v.signals < e.runs
  | .high, v, .clock => Busy v.toProgress ∧ v.times < v.signals
  | .high, v, .store .start _ => Busy v.toProgress ∧ v.times < v.signals
  | .high, v, .wait .consume => Busy v.toProgress ∧ v.waits < v.signals ∧ v.times = v.signals
  | .high, v, .wait .produce => v.active = true ∧ v.done = true
  | .high, v, .send .ep m =>
    Busy v.toProgress ∧ v.signals = e.runs ∧ v.waits = e.runs ∧ m = .empty
  | .low, v, .wait .produce =>
    v.active = true ∧ (v.done = false → v.signals = v.waits ∧ v.waits < e.runs)
  | .low, v, .clock => Busy v.toProgress ∧ v.signals < v.waits
  | .low, v, .load .start => Busy v.toProgress ∧ v.signals < v.waits ∧ v.times < v.waits
  | .low, v, .store x _ => Busy v.toProgress ∧ x ≠ .start
  | .low, v, .signal .consume => Busy v.toProgress ∧ v.signals < v.waits ∧ v.times = v.waits
  | .low, v, .send .ep m =>
    Busy v.toProgress ∧ v.signals = e.runs ∧ v.waits = e.runs ∧ m = .empty ∧ Recorded e v
  | .driver, v, .start .low ℓ =>
    v.stage = 0 ∧ v.level < e.prios ∧ ℓ = e.bm.low e.toConfig v.level
  | .driver, v, .start .high ℓ => v.stage = 1 ∧ ℓ = .highFn
  | .driver, v, .recv .ep => v.stage = 2 ∨ v.stage = 3
  | .driver, v, .suspend .high => v.stage = 0 ∧ v.level = e.prios
  | .driver, v, .suspend .low => v.stage = 4 ∧ v.level = e.prios
  | _, _, _ => False

/-- The answers that a party counts on: no signal is lost, and a thread that has sent its done
message does not come back from waiting. -/
def rely : Party → View w → (r : Req (sig w)) → r.Resp → Prop
  | _, _, .signal _, a => a = false
  | _, v, .wait _, _ => v.done = false
  | _, _, .recv .ep, a => a.2 = .empty
  | _, _, _, _ => True

/-- The views in which a party may be at rest. -/
def rest : Party → View w → Prop
  | .driver, v => v.stage = 5 ∧ v.level = e.prios
  | _, v => Idle v.toProgress

/-- A thread that has just been started. -/
structure Fresh (v : Progress) : Prop where
  active : v.active = true
  signals : v.signals = 0
  waits : v.waits = 0
  times : v.times = 0
  done : v.done = false

/-- The view at an entry point. -/
def atEntry (p : Party) (ℓ : Entry w) (v : View w) : Prop :=
  Fresh v.toProgress ∧ v.cur = [] ∧ v.entry = some ℓ ∧
    (p = .high ∧ ℓ = .highFn ∨ p = .low ∧ ∃ level, ℓ = e.bm.low e.toConfig level)

/-- The order of the events in a round, and what has been done in the end. -/
def Counts : Party → Progress → Prop
  | .high, v => v.waits ≤ v.times ∧ v.times ≤ v.signals ∧ v.signals ≤ v.waits + 1 ∧
    v.signals ≤ e.runs ∧ (v.done = true → v.signals = e.runs ∧ v.waits = e.runs)
  | .low, v => v.signals ≤ v.times ∧ v.times ≤ v.waits ∧ v.waits ≤ v.signals + 1 ∧
    v.waits ≤ e.runs ∧ (v.done = true → v.signals = e.runs ∧ v.waits = e.runs)
  | .driver, v => v.signals = 0 ∧ v.waits = 0 ∧ v.times = 0 ∧ v.done = false

omit e in
/-- The progress counts the events of the history. -/
structure Traces (p : Party) (v : View w) : Prop where
  kept : ∀ n, ∀ a ∈ signals n v.hist, a = false
  signals : signals (out p) v.cur = List.replicate v.signals false
  waits : waits (inn p) v.cur = v.waits
  starts : p = .high → (starts v.cur).length = v.times
  last : p = .high → 0 < v.times → lastStore Var.start v.hist = (Scheduler.starts v.cur).getLast?
  loads : p = .low → (loads v.cur).length = v.times
  done : p ≠ .driver → (v.done = true ↔ DoneSent v.cur)

/-- What holds of the view of a party by itself. -/
structure Own (p : Party) (v : View w) : Prop where
  counts : Counts e p v.toProgress
  traces : Traces p v
  recorded : p = .low → v.done = true → Recorded e v

omit e in
/-- Both threads of a level have been started. -/
def Running (v : Progress) : Prop := v.stage = 2 ∨ v.stage = 3

omit e in
/-- How the progress of the parties and the notifications are related. -/
structure Sync (κ : Kernel (sig w)) (g : Party → Progress) : Prop where
  token : Running (g .driver) →
    (g .high).signals = (g .low).waits + (κ.pending .produce).toNat ∧
    (g .low).signals = (g .high).waits + (κ.pending .consume).toNat
  active : Running (g .driver) → (g .high).active = true ∧ (g .low).active = true ∧
    (g .driver).stage = 2 + ((g .high).done.toNat + (g .low).done.toNat)
  clear : ¬Running (g .driver) →
    κ.pending .produce = false ∧ κ.pending .consume = false ∧ Idle (g .high)
  fresh : (g .driver).stage = 1 → Fresh (g .low)
  idle : ¬Running (g .driver) → (g .driver).stage ≠ 1 → Idle (g .low)
  done : ¬Running (g .driver) → (g .driver).stage ≠ 1 → 0 < (g .driver).level →
    (g .high).done = true ∧ (g .low).done = true

/-- How the views of the parties are related. -/
structure Rel (κ : Kernel (sig w)) (g : Party → View w) : Prop where
  sync : Sync κ fun p => (g p).toProgress
  mem : ∀ x, κ.mem x = stored e.mem x (g (writer x)).hist
  loads : e.prio → loads (g .low).cur <+: starts (g .high).cur

/-- The protocol of the two threads. -/
def protocol : Protocol (sig w) (View w) where
  spec p :=
    { init := {}
      step := step p
      guar := guar e p
      rely := rely p
      rest := rest e p
      atLabel := atEntry e p }
  own := Own e
  rel := Rel e

end Protocol

/-! ### What a party knows by itself -/

section Append

variable (n : Ntfn) (h : List (Event (sig w))) (ev : Event (sig w))

theorem signals_append : signals n (h ++ [ev]) = signals n h ++ (signalOf n ev).toList :=
  filterMap_concat (signalOf n) h ev

theorem waits_append : waits n (h ++ [ev]) = waits n h + (isWait n ev).toNat :=
  countP_concat (isWait n) h ev

theorem loads_append : loads (h ++ [ev]) = loads h ++ (startOf ev).toList :=
  filterMap_concat startOf h ev

theorem starts_append :
    starts (h ++ [ev]) = starts h ++ (storeOf (σ := sig w) Var.start ev).toList :=
  filterMap_concat _ h ev

theorem doneSent_append :
    DoneSent (h ++ [ev]) ↔ DoneSent h ∨ ∃ n, ev = .did (.send .ep .empty) n :=
  exists_mem_concat

end Append

section Own

variable {e : Setup w} {p : Party} {v : View w}

/-- An event that is no measurement. -/
theorem Sampled.append {ℓ : Entry w} {c : ℕ} {r : Readings w} {ev : Event (sig w)}
    (h : Sampled ℓ c r v) (p : Party) (hstart : ∀ ℓ, ev ≠ .started ℓ) (hclock : clockOf ev = none)
    (hload : startOf ev = none) : Sampled ℓ c r (step p v ev) := by
  have hcur : (step p v ev).cur = v.cur ++ [ev] ∧ (step p v ev).entry = v.entry := by
    cases ev with
    | started ℓ => exact absurd rfl (hstart ℓ)
    | did r a | stopped => exact ⟨rfl, rfl⟩
  refine ⟨hcur.2.trans h.entry, ?_, ?_⟩
  · rw [hcur.1, loads_append, hload, Option.toList_none, List.append_nil, h.loads]
  · rw [hcur.1, clocks_append_of_none _ hclock, h.clocks]

/-- A request after which the samples of `low` are still recorded. -/
theorem Recorded.append {ev : Event (sig w)} (h : Recorded e v) (p : Party)
    (hstart : ∀ ℓ, ev ≠ .started ℓ) (hclock : clockOf ev = none) (hload : startOf ev = none)
    (hstore : ∀ x, storeOf x ev = none) : Recorded e (step p v ev) := by
  obtain ⟨level, r, hr, hres⟩ := h
  refine ⟨level, r, hr.append p hstart hclock hload, ?_⟩
  have hlast : (fun x => lastStore x (step p v ev).hist) = fun x => lastStore x v.hist :=
    funext fun x => lastStore_append (hstore x) _
  rwa [hlast]

theorem Traces.started (h : Traces p v) (hcounts : Counts e p v.toProgress) (ℓ : Entry w) :
    Traces p (step p v (.started ℓ)) := by
  have hkept : ∀ n, ∀ a ∈ Scheduler.signals n (v.hist ++ [.started ℓ]), a = false := fun n => by
    rw [signals_append, show signalOf n (.started ℓ) = none from rfl, Option.toList_none,
      List.append_nil]
    exact h.kept n
  have hdone : ¬DoneSent ([] : List (Event (sig w))) := fun ⟨_, hn⟩ => absurd hn List.not_mem_nil
  cases p with
  | high =>
    exact ⟨hkept, rfl, rfl, fun _ => rfl, nofun, nofun, fun _ => ⟨nofun, fun h => absurd h hdone⟩⟩
  | low =>
    exact ⟨hkept, rfl, rfl, nofun, nofun, fun _ => rfl, fun _ => ⟨nofun, fun h => absurd h hdone⟩⟩
  | driver =>
    refine ⟨hkept, ?_, hcounts.2.1.symm, nofun, nofun, nofun, fun hp => absurd rfl hp⟩
    exact congrArg (List.replicate · false) hcounts.1.symm

/-- An event that is counted by the progress. -/
theorem Traces.append {ev : Event (sig w)} (h : Traces p v) (hev : ∀ ℓ, ev ≠ .started ℓ)
    (hkept : ∀ n, signalOf n ev ≠ some true)
    (hsignals : (advance p v.toProgress ev).signals =
      v.signals + (signalOf (out p) ev).toList.length)
    (hwaits : (advance p v.toProgress ev).waits = v.waits + (isWait (inn p) ev).toNat)
    (hstarts : p = .high → (advance p v.toProgress ev).times =
      v.times + (storeOf (σ := sig w) Var.start ev).toList.length)
    (hloads : p = .low →
      (advance p v.toProgress ev).times = v.times + (startOf ev).toList.length)
    (hdone : p ≠ .driver → ((advance p v.toProgress ev).done = true ↔
      v.done = true ∨ ∃ n, ev = .did (.send .ep .empty) n)) : Traces p (step p v ev) := by
  have hcur : (step p v ev).cur = v.cur ++ [ev] := by
    cases ev with
    | started ℓ => exact absurd rfl (hev ℓ)
    | did r a | stopped => rfl
  have hfalse : ∀ n, ∀ a ∈ (signalOf n ev).toList, a = false := by
    intro n a ha
    cases a with
    | false => rfl
    | true => exact absurd (Option.mem_toList.mp ha) (hkept n)
  refine ⟨fun n a ha => ?_, ?_, ?_, fun hp => ?_, fun hp hpos => ?_, fun hp => ?_, fun hp => ?_⟩
  · rw [step_hist, signals_append] at ha
    exact (List.mem_append.mp ha).elim (h.kept n a) (hfalse n a)
  · rw [hcur, signals_append, h.signals, step_progress, hsignals, List.replicate_add]
    congr 1
    exact List.eq_replicate_iff.mpr ⟨rfl, hfalse _⟩
  · rw [hcur, waits_append, h.waits, step_progress, hwaits]
  · rw [hcur, starts_append, List.length_append, h.starts hp, step_progress, hstarts hp]
  · rw [hcur, starts_append, step_hist]
    cases hst : storeOf (σ := sig w) Var.start ev with
    | none =>
      rw [step_progress, hstarts hp, hst] at hpos
      rw [lastStore_append hst, Option.toList_none, List.append_nil, h.last hp hpos]
    | some t => rw [lastStore_append_of_some hst, Option.toList_some, List.getLast?_concat]
  · rw [hcur, loads_append, List.length_append, h.loads hp, step_progress, hloads hp]
  · rw [hcur, doneSent_append, step_progress, hdone hp, h.done hp]

/-- The driver counts no signal and no wait when it receives. -/
theorem advance_recv (v : Progress) (c : Endpoint) (a : (Req.recv c : Req (sig w)).Resp) :
    (advance .driver v (.did (.recv c) a)).signals = v.signals ∧
      (advance .driver v (.did (.recv c) a)).waits = v.waits := by
  simp only [advance]
  split <;> exact ⟨rfl, rfl⟩

/-- The high thread counts the times that it stores. -/
theorem advance_store_start (v : Progress) (t : Ccnt w)
    (a : (Req.store .start t : Req (sig w)).Resp) :
    (advance .high v (.did (.store .start t) a)).times =
      v.times + (storeOf (σ := sig w) Var.start (.did (.store .start t) a)).toList.length := by
  simp [advance, storeOf]

/-- The requests of a party are counted by its progress. -/
theorem Traces.did {r : Req (sig w)} {a : r.Resp} (h : Traces p v) (hguar : guar e p v r)
    (hrely : rely p v r a) : Traces p (step p v (.did r a)) := by
  cases p with
  | driver =>
    cases r with
    | start q ℓ =>
      cases q with
      | driver => exact hguar.elim
      | high | low => exact h.append nofun nofun rfl rfl nofun nofun fun hp => absurd rfl hp
    | suspend q =>
      cases q with
      | driver => exact hguar.elim
      | high | low => exact h.append nofun nofun rfl rfl nofun nofun fun hp => absurd rfl hp
    | recv c =>
      obtain ⟨hsignals, hwaits⟩ := advance_recv v.toProgress c a
      exact h.append nofun nofun hsignals hwaits nofun nofun fun hp => absurd rfl hp
    | _ => exact hguar.elim
  | high =>
    cases r with
    | clock =>
      exact h.append nofun nofun rfl rfl (fun _ => rfl) nofun fun _ => (or_iff_left nofun).symm
    | signal n =>
      cases n with
      | consume => exact hguar.elim
      | produce =>
        cases (hrely : a = false)
        refine h.append nofun (fun n => ?_) rfl rfl (fun _ => rfl) nofun fun _ =>
          (or_iff_left nofun).symm
        cases n <;> nofun
    | store x t =>
      cases x with
      | start =>
        exact h.append nofun nofun rfl rfl (fun _ => advance_store_start v.toProgress t a) nofun
          fun _ => (or_iff_left nofun).symm
      | result l i | early l f => exact hguar.elim
    | wait n =>
      cases n with
      | consume =>
        exact h.append nofun nofun rfl rfl (fun _ => rfl) nofun fun _ => (or_iff_left nofun).symm
      | produce => exact absurd (hguar.2.symm.trans hrely) nofun
    | send c m =>
      obtain ⟨-, -, -, rfl⟩ := hguar
      exact h.append nofun nofun rfl rfl (fun _ => rfl) nofun fun _ =>
        iff_of_true rfl (.inr ⟨a, rfl⟩)
    | _ => exact hguar.elim
  | low =>
    cases r with
    | clock =>
      exact h.append nofun nofun rfl rfl nofun (fun _ => rfl) fun _ => (or_iff_left nofun).symm
    | signal n =>
      cases n with
      | produce => exact hguar.elim
      | consume =>
        cases (hrely : a = false)
        refine h.append nofun (fun n => ?_) rfl rfl nofun (fun _ => rfl) fun _ =>
          (or_iff_left nofun).symm
        cases n <;> nofun
    | load x =>
      cases x with
      | start =>
        exact h.append nofun nofun rfl rfl nofun (fun _ => rfl) fun _ => (or_iff_left nofun).symm
      | result l i | early l f => exact hguar.elim
    | store x t =>
      exact h.append nofun nofun rfl rfl nofun (fun _ => rfl) fun _ => (or_iff_left nofun).symm
    | wait n =>
      cases n with
      | produce =>
        exact h.append nofun nofun rfl rfl nofun (fun _ => rfl) fun _ => (or_iff_left nofun).symm
      | consume => exact hguar.elim
    | send c m =>
      obtain ⟨-, -, -, rfl, -⟩ := hguar
      exact h.append nofun nofun rfl rfl nofun (fun _ => rfl) fun _ =>
        iff_of_true rfl (.inr ⟨a, rfl⟩)
    | _ => exact hguar.elim

/-- The requests of a party are made in the order of a round. -/
theorem Counts.did {r : Req (sig w)} {a : r.Resp} (h : Counts e p v.toProgress)
    (hguar : guar e p v r) (hrely : rely p v r a) :
    Counts e p (advance p v.toProgress (.did r a)) := by
  cases p with
  | driver =>
    cases r with
    | start q ℓ => cases q <;> exact h
    | suspend q => cases q <;> exact h
    | recv c =>
      simp only [advance]
      split <;> exact h
    | _ => exact hguar.elim
  | high =>
    obtain ⟨h₁, h₂, h₃, h₄, h₅⟩ := h
    cases r with
    | clock => exact ⟨h₁, h₂, h₃, h₄, h₅⟩
    | signal n =>
      cases n with
      | consume => exact hguar.elim
      | produce =>
        obtain ⟨hbusy, heq, hlt⟩ := hguar
        refine ⟨h₁, h₂.trans (Nat.le_succ _), ?_, hlt,
          fun hd => absurd (hbusy.2.symm.trans hd) nofun⟩
        exact Nat.succ_le_succ heq.le
    | store x t =>
      cases x with
      | start =>
        obtain ⟨hbusy, hlt⟩ := hguar
        exact ⟨h₁.trans (Nat.le_succ _), hlt, h₃, h₄, h₅⟩
      | result l i | early l f => exact hguar.elim
    | wait n =>
      cases n with
      | produce => exact absurd (hguar.2.symm.trans hrely) nofun
      | consume =>
        obtain ⟨hbusy, hlt, heq⟩ := hguar
        refine ⟨?_, h₂, h₃.trans (Nat.le_succ _), h₄,
          fun hd => absurd (hbusy.2.symm.trans hd) nofun⟩
        exact heq.symm ▸ hlt
    | send c m => exact ⟨h₁, h₂, h₃, h₄, fun _ => ⟨hguar.2.1, hguar.2.2.1⟩⟩
    | _ => exact hguar.elim
  | low =>
    obtain ⟨h₁, h₂, h₃, h₄, h₅⟩ := h
    cases r with
    | clock => exact ⟨h₁, h₂, h₃, h₄, h₅⟩
    | signal n =>
      cases n with
      | produce => exact hguar.elim
      | consume =>
        obtain ⟨hbusy, hlt, heq⟩ := hguar
        refine ⟨?_, h₂, h₃.trans (Nat.le_succ _), h₄,
          fun hd => absurd (hbusy.2.symm.trans hd) nofun⟩
        exact heq.symm ▸ hlt
    | load x =>
      cases x with
      | start => exact ⟨h₁.trans (Nat.le_succ _), hguar.2.2, h₃, h₄, h₅⟩
      | result l i | early l f => exact hguar.elim
    | store x t => exact ⟨h₁, h₂, h₃, h₄, h₅⟩
    | wait n =>
      cases n with
      | consume => exact hguar.elim
      | produce =>
        obtain ⟨heq, hlt⟩ := hguar.2 hrely
        refine ⟨h₁, h₂.trans (Nat.le_succ _), ?_, hlt, fun hd => ?_⟩
        · exact Nat.succ_le_succ heq.ge
        · exact absurd (Eq.symm hrely |>.trans hd) nofun
    | send c m => exact ⟨h₁, h₂, h₃, h₄, fun _ => ⟨hguar.2.1, hguar.2.2.1⟩⟩
    | _ => exact hguar.elim

theorem Own.did {r : Req (sig w)} {a : r.Resp} (h : Own e p v) (hguar : guar e p v r)
    (hrely : rely p v r a) : Own e p (step p v (.did r a)) := by
  refine ⟨h.counts.did hguar hrely, h.traces.did hguar hrely, ?_⟩
  rintro rfl hdone
  cases r with
  | send c m =>
    obtain ⟨-, -, -, -, hrec⟩ := hguar
    exact hrec.append .low nofun rfl rfl fun _ => rfl
  | wait n =>
    have hdone' : v.done = true := by cases n <;> exact hdone
    exact absurd (Eq.trans (Eq.symm hrely) hdone') nofun
  | clock => exact absurd (hguar.1.2.symm.trans hdone) nofun
  | load x =>
    cases x with
    | start => exact absurd (hguar.1.2.symm.trans hdone) nofun
    | result l i | early l f => exact hguar.elim
  | store x t => exact absurd (hguar.1.2.symm.trans hdone) nofun
  | signal n =>
    cases n with
    | produce => exact hguar.elim
    | consume => exact absurd (hguar.1.2.symm.trans hdone) nofun
  | _ => exact hguar.elim

theorem Own.started (h : Own e p v) (ℓ : Entry w) : Own e p (step p v (.started ℓ)) := by
  refine ⟨?_, h.traces.started h.counts ℓ, ?_⟩
  · cases p with
    | high | low => exact ⟨le_rfl, le_rfl, Nat.zero_le _, Nat.zero_le _, nofun⟩
    | driver => exact h.counts
  · rintro rfl hdone
    exact absurd hdone nofun

theorem Own.stopped (h : Own e p v) : Own e p (step p v .stopped) := by
  refine ⟨?_, ?_, ?_⟩
  · cases p <;> exact h.counts
  · cases p with
    | high =>
      exact h.traces.append nofun nofun rfl rfl (fun _ => rfl) nofun fun _ =>
        (or_iff_left nofun).symm
    | low =>
      exact h.traces.append nofun nofun rfl rfl nofun (fun _ => rfl) fun _ =>
        (or_iff_left nofun).symm
    | driver =>
      exact h.traces.append nofun nofun rfl rfl nofun nofun fun hp => absurd rfl hp
  · rintro rfl hdone
    exact (h.recorded rfl hdone).append .low nofun rfl rfl fun _ => rfl

end Own

/-! ### How the progress is related -/

section Sync

variable {e : Setup w} {κ : Kernel (sig w)} {g : Party → Progress}

theorem not_idle_of_busy {v : Progress} (h : Busy v) : ¬Idle v := by
  rintro (hi | hi)
  · exact absurd (hi.symm.trans h.1) nofun
  · exact absurd (h.2.symm.trans hi) nofun

/-- While `high` works both threads are running. -/
theorem Sync.running_high (h : Sync κ g) (hbusy : Busy (g .high)) : Running (g .driver) := by
  by_contra hnot
  exact not_idle_of_busy hbusy (h.clear hnot).2.2

/-- When `low` works on a round both threads are running. -/
theorem Sync.running_low (h : Sync κ g) (hbusy : Busy (g .low)) (hpos : 0 < (g .low).waits) :
    Running (g .driver) := by
  by_contra hnot
  by_cases hstage : (g .driver).stage = 1
  · exact absurd (h.fresh hstage).waits hpos.ne'
  · exact not_idle_of_busy hbusy (h.idle hnot hstage)

/-- The flag of a notification is only set while both threads are running. -/
theorem Sync.running_pending (h : Sync κ g) {n : Ntfn} (hn : κ.pending n = true) :
    Running (g .driver) := by
  by_contra hnot
  obtain ⟨hp, hc, -⟩ := h.clear hnot
  cases n
  · exact absurd (hp.symm.trans hn) nofun
  · exact absurd (hc.symm.trans hn) nofun

/-- When `high` signals `produce` the flag is clear. -/
theorem Sync.produce_clear (h : Sync κ g) (hlow : Counts e .low (g .low)) (hbusy : Busy (g .high))
    (heq : (g .high).signals = (g .high).waits) : κ.pending .produce = false := by
  obtain ⟨hp, hc⟩ := h.token (h.running_high hbusy)
  obtain ⟨h₁, h₂, h₃, -⟩ := hlow
  cases hpend : κ.pending .produce with
  | false => rfl
  | true =>
    rw [hpend, Bool.toNat_true] at hp
    omega

/-- When `low` signals `consume` the flag is clear. -/
theorem Sync.consume_clear (h : Sync κ g) (hhigh : Counts e .high (g .high)) (hbusy : Busy (g .low))
    (hlt : (g .low).signals < (g .low).waits) : κ.pending .consume = false := by
  obtain ⟨hp, hc⟩ := h.token (h.running_low hbusy (by omega))
  obtain ⟨h₁, h₂, h₃, -⟩ := hhigh
  cases hpend : κ.pending .consume with
  | false => rfl
  | true =>
    rw [hpend, Bool.toNat_true] at hc
    omega

/-- A thread that has sent its done message finds `produce` clear. -/
theorem Sync.unfinished_of_produce (h : Sync κ g) (hhigh : Counts e .high (g .high))
    (hlow : Counts e .low (g .low)) (hpend : κ.pending .produce = true) :
    (g .high).done = false ∧ (g .low).done = false := by
  obtain ⟨hp, hc⟩ := h.token (h.running_pending hpend)
  obtain ⟨h₁, h₂, h₃, h₄, h₅⟩ := hhigh
  obtain ⟨l₁, l₂, l₃, l₄, l₅⟩ := hlow
  rw [hpend, Bool.toNat_true] at hp
  constructor
  · cases hd : (g .high).done with
    | false => rfl
    | true =>
      have := h₅ hd
      omega
  · cases hd : (g .low).done with
    | false => rfl
    | true =>
      have := l₅ hd
      omega

theorem Sync.signal_produce (h : Sync κ g) (hbusy : Busy (g .high))
    (hclear : κ.pending .produce = false) :
    Sync { κ with pending := Function.update κ.pending .produce true }
      (Function.update g .high { g .high with signals := (g .high).signals + 1 }) := by
  have hrun := h.running_high hbusy
  obtain ⟨hp, hc⟩ := h.token hrun
  rw [hclear, Bool.toNat_false, Nat.add_zero] at hp
  exact ⟨fun _ => ⟨congrArg (· + 1) hp, hc⟩, h.active, fun hnot => absurd hrun hnot, h.fresh,
    h.idle, fun hnot => absurd hrun hnot⟩

theorem Sync.signal_consume (h : Sync κ g) (hbusy : Busy (g .low)) (hpos : 0 < (g .low).waits)
    (hclear : κ.pending .consume = false) :
    Sync { κ with pending := Function.update κ.pending .consume true }
      (Function.update g .low { g .low with signals := (g .low).signals + 1 }) := by
  have hrun := h.running_low hbusy hpos
  obtain ⟨hp, hc⟩ := h.token hrun
  rw [hclear, Bool.toNat_false, Nat.add_zero] at hc
  refine ⟨fun _ => ⟨hp, congrArg (· + 1) hc⟩, h.active, fun hnot => absurd hrun hnot, fun hs => ?_,
    fun hnot => absurd hrun hnot, fun hnot => absurd hrun hnot⟩
  exact absurd (h.fresh hs).waits hpos.ne'

theorem Sync.wait_produce (h : Sync κ g) (hpend : κ.pending .produce = true) :
    Sync { κ with pending := Function.update κ.pending .produce false }
      (Function.update g .low { g .low with waits := (g .low).waits + 1 }) := by
  have hrun := h.running_pending hpend
  obtain ⟨hp, hc⟩ := h.token hrun
  rw [hpend] at hp
  refine ⟨fun _ => ⟨hp, hc⟩, h.active, fun hnot => absurd hrun hnot, fun hs => ?_,
    fun hnot => absurd hrun hnot, fun hnot => absurd hrun hnot⟩
  exact absurd hs (by rcases hrun with hr | hr <;> (simp only [Function.update] at hs ⊢; simp [hr]))

theorem Sync.wait_consume (h : Sync κ g) (hpend : κ.pending .consume = true) :
    Sync { κ with pending := Function.update κ.pending .consume false }
      (Function.update g .high { g .high with waits := (g .high).waits + 1 }) := by
  have hrun := h.running_pending hpend
  obtain ⟨hp, hc⟩ := h.token hrun
  rw [hpend] at hc
  exact ⟨fun _ => ⟨hp, hc⟩, h.active, fun hnot => absurd hrun hnot, h.fresh, h.idle,
    fun hnot => absurd hrun hnot⟩

/-- Both flags are clear when both threads have gone through all rounds. -/
theorem Sync.clear_of_finished (h : Sync κ g) (hrun : Running (g .driver)) {n : ℕ}
    (hhigh : (g .high).signals = n ∧ (g .high).waits = n)
    (hlow : (g .low).signals = n ∧ (g .low).waits = n) :
    κ.pending .produce = false ∧ κ.pending .consume = false := by
  obtain ⟨hp, hc⟩ := h.token hrun
  constructor
  · cases hpend : κ.pending .produce with
    | false => rfl
    | true =>
      rw [hpend, Bool.toNat_true] at hp
      omega
  · cases hpend : κ.pending .consume with
    | false => rfl
    | true =>
      rw [hpend, Bool.toNat_true] at hc
      omega

/-- Whether the other thread has sent its done message when one of them does. -/
theorem done_of_stage {done : Bool} {stage : ℕ} (h : stage = 2 + done.toNat) :
    done = decide (stage ≠ 2) := by
  subst h
  cases done <;> rfl

theorem Sync.sendDone_high (h : Sync κ g) (hlow : Counts e .low (g .low))
    (hdone : (g .high).done = false) (hrun : Running (g .driver))
    (hfin : (g .high).signals = e.runs ∧ (g .high).waits = e.runs) {κ' : Kernel (sig w)}
    (hκ : κ'.pending = κ.pending) :
    Sync κ' (Function.update (Function.update g .high { g .high with done := true }) .driver
      (if (g .driver).stage = 2 then { g .driver with stage := 3 }
        else { g .driver with stage := 0, level := (g .driver).level + 1 })) := by
  obtain ⟨hh, hl, hstage⟩ := h.active hrun
  rw [hdone, Bool.toNat_false, Nat.zero_add] at hstage
  by_cases htwo : (g .driver).stage = 2
  · have hld : (g .low).done = false := (done_of_stage hstage).trans (decide_eq_false (by omega))
    rw [if_pos htwo]
    refine ⟨fun _ => hκ ▸ h.token hrun, fun _ => ⟨hh, hl, ?_⟩, fun hnot => absurd (.inr rfl) hnot,
      nofun, fun hnot => absurd (.inr rfl) hnot, fun hnot => absurd (.inr rfl) hnot⟩
    exact congrArg (fun d : Bool => 2 + (1 + d.toNat)) hld.symm
  · have hld : (g .low).done = true := (done_of_stage hstage).trans (decide_eq_true htwo)
    rw [if_neg htwo]
    obtain ⟨hp, hc⟩ := h.clear_of_finished hrun hfin (hlow.2.2.2.2 hld)
    exact ⟨nofun, nofun, fun _ => ⟨hκ ▸ hp, hκ ▸ hc, .inr rfl⟩, nofun, fun _ _ => .inr hld,
      fun _ _ _ => ⟨rfl, hld⟩⟩

theorem Sync.sendDone_low (h : Sync κ g) (hhigh : Counts e .high (g .high))
    (hdone : (g .low).done = false) (hrun : Running (g .driver))
    (hfin : (g .low).signals = e.runs ∧ (g .low).waits = e.runs) {κ' : Kernel (sig w)}
    (hκ : κ'.pending = κ.pending) :
    Sync κ' (Function.update (Function.update g .low { g .low with done := true }) .driver
      (if (g .driver).stage = 2 then { g .driver with stage := 3 }
        else { g .driver with stage := 0, level := (g .driver).level + 1 })) := by
  obtain ⟨hh, hl, hstage⟩ := h.active hrun
  rw [hdone, Bool.toNat_false, Nat.add_zero] at hstage
  by_cases htwo : (g .driver).stage = 2
  · have hhd : (g .high).done = false := (done_of_stage hstage).trans (decide_eq_false (by omega))
    rw [if_pos htwo]
    refine ⟨fun _ => hκ ▸ h.token hrun, fun _ => ⟨hh, hl, ?_⟩, fun hnot => absurd (.inr rfl) hnot,
      nofun, fun hnot => absurd (.inr rfl) hnot, fun hnot => absurd (.inr rfl) hnot⟩
    exact congrArg (fun d : Bool => 2 + (d.toNat + 1)) hhd.symm
  · have hhd : (g .high).done = true := (done_of_stage hstage).trans (decide_eq_true htwo)
    rw [if_neg htwo]
    obtain ⟨hp, hc⟩ := h.clear_of_finished hrun (hhigh.2.2.2.2 hhd) hfin
    exact ⟨nofun, nofun, fun _ => ⟨hκ ▸ hp, hκ ▸ hc, .inr hhd⟩, nofun, fun _ _ => .inr rfl,
      fun _ _ _ => ⟨hhd, rfl⟩⟩

/-- The driver starts `low`, when both threads are idle. -/
theorem Sync.start_low (h : Sync κ g) (hstage : (g .driver).stage = 0) :
    Sync (κ.cancel .low) (Function.update (Function.update g .driver
      { g .driver with stage := 1 }) .low { active := true }) := by
  have hnot : ¬Running (g .driver) := by
    unfold Running
    omega
  exact ⟨nofun, nofun, fun _ => h.clear hnot, fun _ => ⟨rfl, rfl, rfl, rfl, rfl⟩,
    fun _ hne => absurd rfl hne, fun _ hne => absurd rfl hne⟩

/-- The driver starts `high`, after `low`. -/
theorem Sync.start_high (h : Sync κ g) (hstage : (g .driver).stage = 1) :
    Sync (κ.cancel .high) (Function.update (Function.update g .driver
      { g .driver with stage := 2 }) .high { active := true }) := by
  have hnot : ¬Running (g .driver) := by
    unfold Running
    omega
  obtain ⟨hp, hc, -⟩ := h.clear hnot
  obtain ⟨hactive, hs, hw, -, hd⟩ := h.fresh hstage
  refine ⟨fun _ => ⟨?_, ?_⟩, fun _ => ⟨rfl, hactive, ?_⟩, fun hnot => absurd (.inl rfl) hnot, nofun,
    fun hnot => absurd (.inl rfl) hnot, fun hnot => absurd (.inl rfl) hnot⟩
  · change 0 = (g .low).waits + (κ.pending .produce).toNat
    rw [hw, hp]
    rfl
  · change (g .low).signals = 0 + (κ.pending .consume).toNat
    rw [hs, hc]
    rfl
  · change 2 = 2 + (0 + (g .low).done.toNat)
    rw [hd]
    rfl

/-- The driver suspends a thread after the last level. -/
theorem Sync.suspend (h : Sync κ g) {n : ℕ} (hn : 4 ≤ n) {q : Party} (hq : q ≠ .driver)
    (hstage : (g .driver).stage = 0 ∨ (g .driver).stage = 4) :
    Sync (κ.cancel q) (Function.update (Function.update g .driver
      { g .driver with stage := n }) q { g q with active := false }) := by
  have hnot : ¬Running (g .driver) := by
    unfold Running
    omega
  have hnot' : ¬Running { g .driver with stage := n } := by
    unfold Running
    simp only
    omega
  have hne : n ≠ 1 := by omega
  obtain ⟨hp, hc, hh⟩ := h.clear hnot
  have hl := h.idle hnot (by omega)
  have hd := h.done hnot (by omega)
  cases q with
  | driver => exact absurd rfl hq
  | high =>
    exact ⟨fun hr => absurd hr hnot', fun hr => absurd hr hnot', fun _ => ⟨hp, hc, .inl rfl⟩,
      fun h1 => absurd h1 hne, fun _ _ => hl, fun _ _ => hd⟩
  | low =>
    exact ⟨fun hr => absurd hr hnot', fun hr => absurd hr hnot', fun _ => ⟨hp, hc, hh⟩,
      fun h1 => absurd h1 hne, fun _ _ => .inl rfl, fun _ _ => hd⟩

end Sync

/-! ### How the views are related -/

section Rel

variable {e : Setup w} {κ κ' : Kernel (sig w)} {g : Party → View w} {p q : Party}
  {ev ev' : Event (sig w)}

/-- The views after an event of `p`. -/
abbrev next (e : Setup w) (g : Party → View w) (p : Party) (ev : Event (sig w)) : Party → View w :=
  (protocol e).next g p ev

theorem tracks_progress : (protocol e).Tracks View.toProgress advance := fun _ _ _ => rfl

theorem records_hist : (protocol e).Records View.hist where
  init _ := rfl
  step _ _ _ := rfl

/-- The events since the start, after an event that is not a start. -/
theorem cur_next (hev : ∀ ℓ, ev ≠ .started ℓ) : (next e g p ev p).cur = (g p).cur ++ [ev] := by
  cases ev with
  | started ℓ => exact absurd rfl (hev ℓ)
  | did r a | stopped => simp [next, protocol, step]

theorem cur_next_of_ne (hq : q ≠ p) : (next e g p ev q).cur = (g q).cur := by
  simp [next, hq]

/-- An event that neither reads nor writes `start` keeps the values that were read and written. -/
theorem loads_next (h : loads (g .low).cur <+: starts (g .high).cur) (hev : ∀ ℓ, ev ≠ .started ℓ)
    (hload : startOf ev = none) :
    loads (next e g p ev .low).cur <+: starts (next e g p ev .high).cur := by
  have hlow : loads (next e g p ev .low).cur = loads (g .low).cur := by
    by_cases hp : Party.low = p
    · subst hp
      rw [cur_next hev, loads_append, hload, Option.toList_none, List.append_nil]
    · rw [cur_next_of_ne hp]
  have hhigh : starts (g .high).cur <+: starts (next e g p ev .high).cur := by
    by_cases hp : Party.high = p
    · subst hp
      rw [cur_next hev, starts_append]
      exact List.prefix_append _ _
    · rw [cur_next_of_ne hp]
  exact hlow ▸ h.trans hhigh

/-- An event of one party that touches no memory. -/
theorem Rel.event (h : Rel e κ g) (hev : ∀ ℓ, ev ≠ .started ℓ) (hload : startOf ev = none)
    (hstore : ∀ x, storeOf x ev = none) (hmem : κ'.mem = κ.mem)
    (hsync : Sync κ' (Function.update (fun q => (g q).toProgress) p
      (advance p (g p).toProgress ev))) : Rel e κ' (next e g p ev) :=
  ⟨tracks_progress.next ▸ hsync,
    hmem ▸ fun x => records_hist.mem_next (h.mem x) (hstore x),
    fun hprio => loads_next (h.loads hprio) hev hload⟩

/-- Events of two parties that touch no memory. -/
theorem Rel.event_two (h : Rel e κ g) (hpq : p ≠ q) (hev : ∀ ℓ, ev ≠ .started ℓ)
    (hev' : ∀ ℓ, ev' ≠ .started ℓ) (hload : startOf ev = none) (hload' : startOf ev' = none)
    (hstore : ∀ x, storeOf x ev = none) (hstore' : ∀ x, storeOf x ev' = none)
    (hmem : κ'.mem = κ.mem)
    (hsync : Sync κ' (Function.update (Function.update (fun u => (g u).toProgress) p
      (advance p (g p).toProgress ev)) q (advance q (g q).toProgress ev'))) :
    Rel e κ' (next e (next e g p ev) q ev') :=
  ⟨tracks_progress.next_two hpq.symm ▸ hsync,
    hmem ▸ fun x => records_hist.mem_next (records_hist.mem_next (h.mem x) (hstore x)) (hstore' x),
    fun hprio => loads_next (loads_next (h.loads hprio) hev hload) hev' hload'⟩

theorem Rel.store_start (h : Rel e κ g) (t : Ccnt w) :
    Rel e { κ with mem := Function.update κ.mem .start t }
      (next e g .high (.did (.store .start t) ())) := by
  refine ⟨?_, fun y => records_hist.mem_next_store t (h.mem y) fun heq => heq ▸ rfl,
    fun hprio => loads_next (h.loads hprio) nofun rfl⟩
  rw [tracks_progress.next]
  exact ⟨h.sync.token, h.sync.active, h.sync.clear, h.sync.fresh, h.sync.idle, h.sync.done⟩

theorem Rel.store_low (h : Rel e κ g) {x : Var} (hx : x ≠ .start) (t : Ccnt w) :
    Rel e { κ with mem := Function.update κ.mem x t } (next e g .low (.did (.store x t) ())) := by
  have hwriter : writer x = .low := by
    cases x with
    | start => exact absurd rfl hx
    | result l i | early l f => rfl
  refine ⟨?_, fun y => records_hist.mem_next_store t (h.mem y) fun heq => heq ▸ hwriter,
    fun hprio => loads_next (h.loads hprio) nofun rfl⟩
  rw [tracks_progress.next]
  have hsame : advance .low (g .low).toProgress (.did (.store x t) () : Event (sig w)) =
      (g .low).toProgress := rfl
  rw [hsame, Function.update_eq_self]
  exact ⟨h.sync.token, h.sync.active, h.sync.clear, h.sync.fresh, h.sync.idle, h.sync.done⟩

theorem Rel.load_start (h : Rel e κ g) (hpos : 0 < (g .low).waits)
    (hloads : e.prio →
      Scheduler.loads (g .low).cur ++ [κ.mem .start] <+: starts (g .high).cur) :
    Rel e κ (next e g .low (.did (.load .start) (κ.mem .start))) := by
  refine ⟨?_, fun x => records_hist.mem_next (h.mem x) rfl, fun hprio => ?_⟩
  · rw [tracks_progress.next]
    exact ⟨h.sync.token, h.sync.active, h.sync.clear,
      fun hs => absurd (h.sync.fresh hs).waits hpos.ne', h.sync.idle, h.sync.done⟩
  · have hcur : (next e g .low (.did (.load .start) (κ.mem .start)) .low).cur =
        (g .low).cur ++ [.did (.load .start) (κ.mem .start)] := cur_next nofun
    rw [hcur, cur_next_of_ne (p := .low) (q := .high) nofun, loads_append]
    exact hloads hprio

theorem Rel.start_low (h : Rel e κ g) (hstage : (g .driver).stage = 0) (ℓ ℓ' : Entry w) :
    Rel e (κ.cancel .low)
      (next e (next e g .driver (.did (.start .low ℓ) ())) .low (.started ℓ')) := by
  refine ⟨?_, fun x => records_hist.mem_next (records_hist.mem_next (h.mem x) rfl) rfl, fun _ => ?_⟩
  · rw [tracks_progress.next_two (nofun : Party.low ≠ .driver)]
    exact h.sync.start_low hstage
  · have hcur : (next e (next e g .driver (.did (.start .low ℓ) ())) .low (.started ℓ') .low).cur =
        [] := by simp [next, protocol, step]
    rw [hcur]
    exact List.nil_prefix

theorem Rel.start_high (h : Rel e κ g) (hstage : (g .driver).stage = 1)
    (hloads : Scheduler.loads (g .low).cur = []) (ℓ ℓ' : Entry w) :
    Rel e (κ.cancel .high)
      (next e (next e g .driver (.did (.start .high ℓ) ())) .high (.started ℓ')) := by
  refine ⟨?_, fun x => records_hist.mem_next (records_hist.mem_next (h.mem x) rfl) rfl, fun _ => ?_⟩
  · rw [tracks_progress.next_two (nofun : Party.high ≠ .driver)]
    exact h.sync.start_high hstage
  · rw [cur_next_of_ne (p := .high) (q := .low) nofun,
      cur_next_of_ne (p := .driver) (q := .low) nofun, hloads]
    exact List.nil_prefix

end Rel

section Priority

variable {e : Setup w} {F : Entry w → Prog (sig w)} {s : State (sig w)}

/-- When `high` is blocked it has written `start` in the round that it is in. -/
theorem times_of_blocked (hinv : (protocol e).Inv s) (hblocked : Blocked F s .high)
    (hactive : ((protocol e).view s.log .high).active = true) :
    ((protocol e).view s.log .high).times = ((protocol e).view s.log .high).signals := by
  obtain ⟨h₁, h₂, h₃, h₄, h₅⟩ := (hinv.own .high).counts
  have hsafe := hinv.safe .high
  cases hh : s.thread .high with
  | halt =>
    rw [hh] at hsafe
    obtain hi | hd := hsafe
    · exact absurd (hi.symm.trans hactive) nofun
    · have := h₅ hd
      omega
  | jump ℓ => exact absurd (Step.jump hh) (hblocked _ _ (List.mem_singleton_self _))
  | op r k =>
    have hguar := hinv.guar hh
    cases r with
    | clock =>
      exact absurd (Step.act hh (.clock (0 : Ccnt w))) (hblocked _ _ (List.mem_singleton_self _))
    | store x t =>
      exact absurd (Step.act hh (.store x t)) (hblocked _ _ (List.mem_singleton_self _))
    | signal n =>
      exact absurd (Step.act hh (.signal n)) (hblocked _ _ (List.mem_singleton_self _))
    | wait n =>
      cases n with
      | consume => exact hguar.2.2
      | produce =>
        have := h₅ hguar.2
        omega
    | send c m =>
      obtain ⟨-, hs, hw, -⟩ := hguar
      omega
    | _ => exact hguar.elim

/-- Under the fixed-priority rule, the value that `low` reads is the next one that `high` has
written. -/
theorem loads_of_blocked (hinv : (protocol e).Inv s) (hblocked : e.prio → Blocked F s .high)
    (hguar : guar e .low ((protocol e).view s.log .low) (.load .start)) (hprio : e.prio) :
    loads ((protocol e).view s.log .low).cur ++ [s.kernel.mem .start] <+:
      starts ((protocol e).view s.log .high).cur := by
  have hsync := hinv.rel.sync
  obtain ⟨hbusy, hlt, htimes⟩ := hguar
  have hrun := hsync.running_low hbusy (by omega)
  obtain ⟨hp, hc⟩ := hsync.token hrun
  have hblock := times_of_blocked hinv (hblocked hprio) (hsync.active hrun).1
  obtain ⟨h₁, h₂, h₃, -⟩ := (hinv.own .high).counts
  obtain ⟨l₁, l₂, l₃, -⟩ := (hinv.own .low).counts
  have htraces := (hinv.own .high).traces
  have hlen := (hinv.own .low).traces.loads rfl
  -- Both threads are in the same round: `high` has written one value more than `low` has read.
  have hstarts : (starts ((protocol e).view s.log .high).cur).length =
      (loads ((protocol e).view s.log .low).cur).length + 1 := by
    rw [htraces.starts rfl, hlen]
    omega
  have hmem : (starts ((protocol e).view s.log .high).cur).getLast? =
      some (s.kernel.mem .start) := by
    have hlast := htraces.last rfl (by omega)
    cases hl : (starts ((protocol e).view s.log .high).cur).getLast? with
    | none =>
      rw [List.getLast?_eq_none_iff.mp hl] at hstarts
      exact absurd hstarts nofun
    | some t =>
      have hm := hinv.rel.mem .start
      rw [writer, stored, hlast, hl, Option.getD_some] at hm
      rw [hm]
  exact concat_prefix_of_getLast (hinv.rel.loads hprio) hstarts hmem

end Priority

/-! ### The steps of the system -/

section Sound

variable {e : Setup w} {F : Entry w → Prog (sig w)} {s : State (sig w)} {p q : Party}
  (hinv : (protocol e).Inv s)

include hinv

theorem rel_load {x : Var} (hok : e.prio → .low ∈ [p] → Blocked F s .high)
    (hguar : guar e p ((protocol e).view s.log p) (.load x)) :
    Rel e s.kernel (next e ((protocol e).view s.log) p (.did (.load x) (s.kernel.mem x))) := by
  cases x with
  | start =>
    cases p with
    | low =>
      refine hinv.rel.load_start (Nat.zero_lt_of_lt hguar.2.1) ?_
      exact loads_of_blocked hinv (fun hprio => hok hprio (List.mem_singleton_self _)) hguar
    | high | driver => exact hguar.elim
  | result l i | early l f => cases p <;> exact hguar.elim

theorem rel_store {x : Var} {t : Ccnt w}
    (hguar : guar e p ((protocol e).view s.log p) (.store x t)) :
    Rel e { s.kernel with mem := Function.update s.kernel.mem x t }
      (next e ((protocol e).view s.log) p (.did (.store x t) ())) := by
  cases p with
  | high =>
    cases x with
    | start => exact hinv.rel.store_start t
    | result l i | early l f => exact hguar.elim
  | low => exact hinv.rel.store_low hguar.2 t
  | driver => exact hguar.elim

/-- A thread that signals finds the flag clear. -/
theorem rel_signal {n : Ntfn} (hguar : guar e p ((protocol e).view s.log p) (.signal n)) :
    s.kernel.pending n = false ∧
      Rel e { s.kernel with pending := Function.update s.kernel.pending n true }
        (next e ((protocol e).view s.log) p (.did (.signal n) (s.kernel.pending n))) := by
  have hsync := hinv.rel.sync
  have hhigh := (hinv.own .high).counts
  have hlow := (hinv.own .low).counts
  cases n with
  | produce =>
    cases p with
    | high =>
      have hclear := hsync.produce_clear hlow hguar.1 hguar.2.1
      exact ⟨hclear, hinv.rel.event nofun rfl (fun _ => rfl) rfl
        (hsync.signal_produce hguar.1 hclear)⟩
    | low | driver => exact hguar.elim
  | consume =>
    cases p with
    | low =>
      have hclear := hsync.consume_clear hhigh hguar.1 hguar.2.1
      have hpos : 0 < ((protocol e).view s.log .low).waits := Nat.zero_lt_of_lt hguar.2.1
      exact ⟨hclear, hinv.rel.event nofun rfl (fun _ => rfl) rfl
        (hsync.signal_consume hguar.1 hpos hclear)⟩
    | high | driver => exact hguar.elim

/-- A thread that is woken is not done. -/
theorem rel_wait {n : Ntfn} (hguar : guar e p ((protocol e).view s.log p) (.wait n))
    (hpend : s.kernel.pending n = true) : rely p ((protocol e).view s.log p) (.wait n) () ∧
      Rel e { s.kernel with pending := Function.update s.kernel.pending n false }
        (next e ((protocol e).view s.log) p (.did (.wait n) ())) := by
  have hrel := hinv.rel
  have hsync := hrel.sync
  cases n with
  | produce =>
    obtain ⟨hhd, hld⟩ :=
      hsync.unfinished_of_produce (hinv.own .high).counts (hinv.own .low).counts hpend
    cases p with
    | low => exact ⟨hld, hrel.event nofun rfl (fun _ => rfl) rfl (hsync.wait_produce hpend)⟩
    | high => exact absurd (hhd.symm.trans hguar.2) nofun
    | driver => exact hguar.elim
  | consume =>
    cases p with
    | high =>
      exact ⟨hguar.1.2, hrel.event nofun rfl (fun _ => rfl) rfl (hsync.wait_consume hpend)⟩
    | low | driver => exact hguar.elim

theorem rel_effect {r : Req (sig w)} {a : r.Resp} {κ : Kernel (sig w)}
    (hok : e.prio → .low ∈ [p] → Blocked F s .high)
    (hguar : guar e p ((protocol e).view s.log p) r) (heff : Effect s p r a κ) :
    rely p ((protocol e).view s.log p) r a ∧
      Rel e κ (next e ((protocol e).view s.log) p (.did r a)) := by
  have hsync := hinv.rel.sync
  cases heff with
  | clock t =>
    cases p with
    | high | low =>
      exact ⟨trivial, hinv.rel.event nofun rfl (fun _ => rfl) rfl
        ⟨hsync.token, hsync.active, hsync.clear, hsync.fresh, hsync.idle, hsync.done⟩⟩
    | driver => exact hguar.elim
  | load x => exact ⟨trivial, rel_load hinv hok hguar⟩
  | store x t => exact ⟨trivial, rel_store hinv hguar⟩
  | replyNone m => cases p <;> exact hguar.elim
  | signal n => exact rel_signal hinv hguar
  | wait n hpend => exact rel_wait hinv hguar hpend
  | acquire l | release l | sleep l => exact l.elim
  | wakeNone c => exact c.elim

theorem rel_exchange {r r' : Req (sig w)} {a : r.Resp} {a' : r'.Resp} {κ : Kernel (sig w)}
    (hpq : p ≠ q) (hp : guar e p ((protocol e).view s.log p) r)
    (hq : guar e q ((protocol e).view s.log q) r') (hex : Exchange s.kernel p q r a r' a' κ) :
    rely p ((protocol e).view s.log p) r a ∧ rely q ((protocol e).view s.log q) r' a' ∧
      Rel e κ (next e (next e ((protocol e).view s.log) p (.did r a)) q (.did r' a')) := by
  have hrel := hinv.rel
  cases hex with
  | send c m =>
    cases q with
    | high | low => exact hq.elim
    | driver =>
      cases p with
      | driver => exact absurd rfl hpq
      | high =>
        obtain ⟨hbusy, hs, hw, hm⟩ := hp
        exact ⟨trivial, hm, hrel.event_two (by decide) nofun nofun rfl rfl (fun _ => rfl)
          (fun _ => rfl) rfl
          (hrel.sync.sendDone_high (hinv.own .low).counts hbusy.2 hq ⟨hs, hw⟩ rfl)⟩
      | low =>
        obtain ⟨hbusy, hs, hw, hm, -⟩ := hp
        exact ⟨trivial, hm, hrel.event_two (by decide) nofun nofun rfl rfl (fun _ => rfl)
          (fun _ => rfl) rfl
          (hrel.sync.sendDone_low (hinv.own .high).counts hbusy.2 hq ⟨hs, hw⟩ rfl)⟩
  | call c m => cases p <;> exact hp.elim
  | reply m hcaller => cases p <;> exact hp.elim
  | wake c => exact c.elim

theorem rel_start {ℓ : Entry w} (hpq : p ≠ q)
    (hguar : guar e p ((protocol e).view s.log p) (.start q ℓ)) :
    atEntry e q ℓ (step q ((protocol e).view s.log q) (.started ℓ)) ∧
      Rel e (s.kernel.cancel q)
        (next e (next e ((protocol e).view s.log) p (.did (.start q ℓ) ())) q (.started ℓ)) := by
  have hrel := hinv.rel
  cases p with
  | high | low => exact hguar.elim
  | driver =>
    cases q with
    | driver => exact absurd rfl hpq
    | low =>
      obtain ⟨hstage, -, hℓ⟩ := hguar
      exact ⟨⟨⟨rfl, rfl, rfl, rfl, rfl⟩, rfl, rfl, .inr ⟨rfl, _, hℓ⟩⟩, hrel.start_low hstage ℓ ℓ⟩
    | high =>
      obtain ⟨hstage, hℓ⟩ := hguar
      have htimes := (hrel.sync.fresh hstage).times
      have hloads := (hinv.own .low).traces.loads rfl
      rw [htimes] at hloads
      exact ⟨⟨⟨rfl, rfl, rfl, rfl, rfl⟩, rfl, rfl, .inl ⟨rfl, hℓ⟩⟩,
        hrel.start_high hstage (List.length_eq_zero_iff.mp hloads) ℓ ℓ⟩

theorem rel_suspend (hpq : p ≠ q) (hguar : guar e p ((protocol e).view s.log p) (.suspend q)) :
    rest e q (step q ((protocol e).view s.log q) .stopped) ∧
      Rel e (s.kernel.cancel q)
        (next e (next e ((protocol e).view s.log) p (.did (.suspend q) ())) q .stopped) := by
  have hrel := hinv.rel
  cases p with
  | high | low => exact hguar.elim
  | driver =>
    cases q with
    | driver => exact absurd rfl hpq
    | high =>
      exact ⟨.inl rfl, hrel.event_two nofun nofun nofun rfl rfl (fun _ => rfl) (fun _ => rfl) rfl
        (hrel.sync.suspend (by omega) nofun (.inl hguar.1))⟩
    | low =>
      exact ⟨.inl rfl, hrel.event_two nofun nofun nofun rfl rfl (fun _ => rfl) (fun _ => rfl) rfl
        (hrel.sync.suspend (by omega) nofun (.inr hguar.1))⟩

end Sound

/-- The protocol is kept by threads that follow it, and by the fixed-priority rule where it is
assumed. -/
theorem sound {e : Setup w} {F : Entry w → Prog (sig w)}
    (hlabel : ∀ p ℓ v, atEntry e p ℓ v → ((protocol e).spec p).Safe (F ℓ) v) :
    (protocol e).Sound F fun s ps => e.prio → .low ∈ ps → Blocked F s .high where
  label := hlabel
  own := Own.did
  own_started h := h.started _
  own_stopped h := h.stopped
  effect hinv hok := rel_effect hinv hok
  exchange hinv _ := rel_exchange hinv
  start hinv _ hpq hguar := ⟨trivial, rel_start hinv hpq hguar⟩
  suspend hinv _ hpq hguar := ⟨trivial, rel_suspend hinv hpq hguar⟩

/-! ### Progress -/

section Progress

variable {e : Setup w} {F : Entry w → Prog (sig w)} {s : State (sig w)}

/-- A step that the fixed-priority rule allows. -/
def CanStepPrio (F : Entry w → Prog (sig w)) (s : State (sig w)) : Prop :=
  ∃ ps s', (.low ∈ ps → Blocked F s .high) ∧ Step F s ps s'

theorem CanStepPrio.of_not_mem {ps : List Party} {s' : State (sig w)} (hlow : .low ∉ ps)
    (hstep : Step F s ps s') : CanStepPrio F s :=
  ⟨ps, s', fun h => absurd h hlow, hstep⟩

/-- Until it ends the driver can take a step or waits for a done message. -/
theorem driver_progress (hinv : (protocol e).Inv s) (hfin : s.thread .driver ≠ .halt) :
    CanStepPrio F s ∨ (∃ k, s.thread .driver = .op (.recv .ep) k) ∧
      Running ((protocol e).view s.log .driver).toProgress := by
  have hmem : Party.low ∉ [Party.driver] := by decide
  cases hd : s.thread .driver with
  | halt => exact absurd hd hfin
  | jump ℓ => exact .inl (.of_not_mem hmem (.jump hd))
  | op r k =>
    have hguar := hinv.guar hd
    cases r with
    | start q ℓ =>
      cases q with
      | driver => exact hguar.elim
      | high | low => exact .inl (.of_not_mem hmem (.start (by nofun) hd))
    | suspend q =>
      cases q with
      | driver => exact hguar.elim
      | high | low => exact .inl (.of_not_mem hmem (.suspend (by nofun) hd))
    | recv c => exact .inr ⟨⟨k, rfl⟩, hguar⟩
    | _ => exact hguar.elim

/-- `high` can take a step, or it is blocked: it waits for `consume`, or has sent its done
message. -/
theorem high_progress (hinv : (protocol e).Inv s)
    (hdriver : ∃ k, s.thread .driver = .op (.recv .ep) k)
    (hactive : ((protocol e).view s.log .high).active = true) :
    let v := (protocol e).view s.log .high
    CanStepPrio F s ∨ Blocked F s .high ∧
      (v.waits < v.signals ∧ s.kernel.pending .consume = false ∨ v.done = true) := by
  intro v
  obtain ⟨kd, hd⟩ := hdriver
  have hsafe := hinv.safe .high
  have hmem : Party.low ∉ [Party.high] := by decide
  cases hh : s.thread .high with
  | halt =>
    rw [hh] at hsafe
    obtain hi | hdone := hsafe
    · exact absurd (hi.symm.trans hactive) nofun
    · exact .inr ⟨blocked_of_halt hh, .inr hdone⟩
  | jump ℓ => exact .inl (.of_not_mem hmem (.jump hh))
  | op r k =>
    have hguar := hinv.guar hh
    cases r with
    | clock => exact .inl (.of_not_mem hmem (.act hh (.clock (0 : Ccnt w))))
    | store x t => exact .inl (.of_not_mem hmem (.act hh (.store x t)))
    | signal n => exact .inl (.of_not_mem hmem (.act hh (.signal n)))
    | send c m =>
      have hmem : Party.low ∉ [Party.high, Party.driver] := by decide
      exact .inl (.of_not_mem hmem (.exchange (by nofun) hh hd (.send _ m)))
    | wait n =>
      cases hpend : s.kernel.pending n with
      | true => exact .inl (.of_not_mem hmem (.act hh (.wait _ hpend)))
      | false =>
        refine .inr ⟨blocked_of_wait hh hpend, ?_⟩
        cases n with
        | produce => exact .inr hguar.2
        | consume => exact .inl ⟨hguar.2.1, hpend⟩
    | _ => exact hguar.elim

/-- `low` can take a step, waits for `produce`, or has sent its done message. -/
theorem low_progress (hinv : (protocol e).Inv s)
    (hdriver : ∃ k, s.thread .driver = .op (.recv .ep) k)
    (hactive : ((protocol e).view s.log .low).active = true) :
    let v := (protocol e).view s.log .low
    CanStep F s ∨ (v.waits = v.signals ∧ v.waits < e.runs ∧
      s.kernel.pending .produce = false) ∨ v.done = true := by
  intro v
  obtain ⟨kd, hd⟩ := hdriver
  have hsafe := hinv.safe .low
  cases hl : s.thread .low with
  | halt =>
    rw [hl] at hsafe
    obtain hi | hdone := hsafe
    · exact absurd (hi.symm.trans hactive) nofun
    · exact .inr (.inr hdone)
  | jump ℓ => exact .inl (.jump hl)
  | op r k =>
    have hguar := hinv.guar hl
    cases r with
    | clock => exact .inl (.act hl (.clock (0 : Ccnt w)))
    | load x => exact .inl (.act hl (.load x))
    | store x t => exact .inl (.act hl (.store x t))
    | signal n => exact .inl (.act hl (.signal n))
    | send c m => exact .inl (.exchange hl hd (.send _ m) nofun)
    | wait n =>
      cases n with
      | consume => exact hguar.elim
      | produce =>
        cases hpend : s.kernel.pending .produce with
        | true => exact .inl (.act hl (.wait _ hpend))
        | false =>
          cases hdone : v.done with
          | true => exact .inr (.inr rfl)
          | false =>
            obtain ⟨heq, hlt⟩ := hguar.2 hdone
            exact .inr (.inl ⟨heq.symm, hlt, rfl⟩)
    | _ => exact hguar.elim

/-- Some step is possible until the driver ends, also under the fixed-priority rule. -/
theorem progress (hinv : (protocol e).Inv s) (hfin : s.thread .driver ≠ .halt) :
    CanStepPrio F s := by
  have hsync := hinv.rel.sync
  obtain hstep | ⟨hd, hrun⟩ := driver_progress (F := F) hinv hfin
  · exact hstep
  obtain ⟨hh, hl, hstage⟩ := hsync.active hrun
  obtain ⟨hp, hc⟩ := hsync.token hrun
  obtain ⟨h₁, h₂, h₃, h₄, h₅⟩ := (hinv.own .high).counts
  obtain ⟨l₁, l₂, l₃, l₄, l₅⟩ := (hinv.own .low).counts
  obtain hstep | ⟨hblocked, hhigh⟩ := high_progress (F := F) hinv hd hh
  · exact hstep
  obtain ⟨ps, s', hstep⟩ | hlow := low_progress (F := F) hinv hd hl
  · exact ⟨ps, s', fun _ => hblocked, hstep⟩
  -- The token is nowhere.
  obtain ⟨hlt, hcons⟩ | hhdone := hhigh <;> obtain ⟨heq, hlt', hprod⟩ | hldone := hlow
  · rw [hcons, Bool.toNat_false] at hc
    rw [hprod, Bool.toNat_false] at hp
    omega
  · rw [hcons, Bool.toNat_false] at hc
    have := l₅ hldone
    omega
  · rw [hprod, Bool.toNat_false] at hp
    have := h₅ hhdone
    omega
  · rw [hhdone, hldone, Bool.toNat_true] at hstage
    exact absurd hrun (by unfold Running; omega)

end Progress

end Sel4bench.Scheduler
