import Sel4bench.Fault.Handlers
import Sel4bench.Lib.Memory
import Sel4bench.Lib.Protocol
import Sel4bench.Lib.Trace

/-!
# The protocol of faulter and handler

The faulter raises a fixed number of faults, one at a time, and the handler receives each of them
and replies to it with the address after the faulting instruction. The variable `start` is written
by one of the two and read by the other: the writer writes it only while the reader is not allowed
to read, so that a value that is read belongs to the fault at hand (`Sel4bench.Fault.Stamps`). All
other variables belong to the party that records the samples.

## Main definitions

* `Sel4bench.Fault.Measured`, `Sel4bench.Fault.Recorded` — what the recording party knows.
* `Sel4bench.Fault.Own`, `Sel4bench.Fault.Rel`, `Sel4bench.Fault.protocol`.

## Main results

* `Sel4bench.Fault.sound` — functions that follow the protocol keep it.
* `Sel4bench.Fault.progress` — no state before both done messages is stuck.
-/

namespace Sel4bench.Fault

open Machine Trace

variable {b w : ℕ}

/-- A call of `run_benchmark` with the memory that it finds. -/
structure Setup (b w : ℕ) extends Config b where
  mem : Var → Ccnt w
  bm : Benchmark

namespace Setup

variable (e : Setup b w)

/-- The number of faults. -/
def total : ℕ := if e.bm.series = .faultReply then e.runs + 2 else e.runs + 1

/-- The fault of number `n`. -/
def faultMsg (n : ℕ) : ℕ × Msg b := (n, .fault (e.ip n))

/-- The reply to the fault of number `n`. -/
def replyMsg (n : ℕ) : ℕ × Msg b := (n, .reply (e.ip n + e.udInstructionSize))

/-- The party that writes a variable. -/
def writer : Var → Party
  | .start => if e.bm.series = .faultReply then .handler else .faulter
  | .sample _ _ | .early _ _ => if e.bm.series = .fault then .handler else .faulter

/-- The party that records the samples. -/
def recorder : Party := if e.bm.series = .fault then .handler else .faulter

end Setup

/-! ### Histories -/

/-- The fault that is raised or received in the event. -/
def faultOf : Event (sig b w) → Option (ℕ × Msg b)
  | .did (.sendCall .faultEp m) n => some (n, m)
  | .did (.recv .faultEp) a => some a
  | _ => none

/-- The reply in the event, with the number of its fault. -/
def replyOf : Event (sig b w) → Option (ℕ × Msg b)
  | .did (.reply m) a => a.map fun c => (c.2, m)
  | _ => none

/-- The faults that a party has raised or received. -/
def faults (h : List (Event (sig b w))) : List (ℕ × Msg b) := h.filterMap faultOf

/-- The replies of a party. -/
def replies (h : List (Event (sig b w))) : List (ℕ × Msg b) := h.filterMap replyOf

/-- The done message has been sent. -/
def DoneSent (h : List (Event (sig b w))) : Prop := ∃ n, .did (.send .doneEp .empty) n ∈ h

theorem faults_append (h : List (Event (sig b w))) (ev : Event (sig b w)) :
    faults (h ++ [ev]) = faults h ++ (faultOf ev).toList :=
  filterMap_concat faultOf h ev

theorem replies_append (h : List (Event (sig b w))) (ev : Event (sig b w)) :
    replies (h ++ [ev]) = replies h ++ (replyOf ev).toList :=
  filterMap_concat replyOf h ev

/-! ### The protocol -/

/-- How far a party is. -/
structure Progress where
  active : Bool := false
  /-- The faults that it has raised or received. -/
  count : ℕ := 0
  /-- The last of them has not been replied to. -/
  waiting : Bool := false
  /-- It has sent its done message. -/
  done : Bool := false
  /-- The number of steps of the driver. -/
  stage : ℕ := 0

/-- What a party knows: how far it is, its history, and the values of `start` that it has read,
with the number of the fault at hand. -/
structure View (b w : ℕ) extends Progress where
  hist : List (Event (sig b w)) := []
  loaded : List (ℕ × Ccnt w) := []

/-- The progress by an event. -/
def advance (p : Party) (v : Progress) (ev : Event (sig b w)) : Progress :=
  match p, ev with
  | .driver, _ => { v with stage := v.stage + 1 }
  | _, .did (.sendCall _ _) _ => { v with count := v.count + 1, waiting := true }
  | _, .did .awaitReply _ => { v with waiting := false }
  | _, .did (.recv _) _ => { v with count := v.count + 1, waiting := true }
  | _, .did (.reply _) _ => { v with waiting := false }
  | _, .did (.send _ _) _ => { v with done := true }
  | _, .started _ => { v with active := true }
  | _, .stopped => { v with active := false }
  | _, _ => v

/-- The value of `start` that is read in the event. -/
def startOf : Event (sig b w) → Option (Ccnt w) := loadOf (σ := sig b w) .start

/-- The view after an event. -/
def step (p : Party) (v : View b w) (ev : Event (sig b w)) : View b w where
  toProgress := advance p v.toProgress ev
  hist := v.hist ++ [ev]
  loaded := v.loaded ++ ((startOf ev).map fun t => (v.count - 1, t)).toList

section Protocol

variable (e : Setup b w)

/-- The recording party has measured `i`, with the times `start` and `stop`. -/
def Measured (v : View b w) (i : ℕ) (start stop : Ccnt w) : Prop :=
  match e.bm.series with
  | .fault => (i + 1, start) ∈ v.loaded ∧
    ∃ m, [.did (.recv .faultEp) (i + 1, m), .did .clock stop, .did (.load .start) start] <:+: v.hist
  | .faultReply => (i + 1, start) ∈ v.loaded ∧
    ∃ m m', [.did (.sendCall .faultEp m) (i + 1), .did .awaitReply m', .did .clock stop,
      .did (.load .start) start] <:+: v.hist
  | .roundTrip => ∃ m m', [.did .clock start, .did (.sendCall .faultEp m) i, .did .awaitReply m',
    .did .clock stop] <:+: v.hist

/-- The samples are stored. -/
def Stored (h : List (Event (sig b w))) (r : Readings w) : Prop :=
  if e.bm.early then
    let res := earlyRun b e.runs e.ignored r (e.mem (.early e.bm.series .minOverhead))
    lastStore (Var.early e.bm.series .sum) h = some res.sum ∧
      lastStore (Var.early e.bm.series .sum2) h = some res.sum2 ∧
      lastStore (Var.early e.bm.series .num) h = some res.num
  else ∀ i < e.runs, lastStore (Var.sample e.bm.series i) h = some (r.stop i - r.start i)

/-- The recording party has measured and stored all samples. -/
def Recorded (v : View b w) : Prop :=
  ∃ r : Readings w, (∀ i < e.runs, Measured e v i (r.start i) (r.stop i)) ∧ Stored e v.hist r

/-- The value of `start` has just been read from the counter and written. -/
def StartSet (h : List (Event (sig b w))) : Prop :=
  ∃ t, [.did .clock t, .did (.store .start t) ()] <:+ h

/-- The party may read `start`. -/
def MayLoad (p : Party) (v : Progress) : Prop :=
  match e.bm.series, p with
  | .fault, .handler => v.waiting = true
  | .faultReply, .faulter => v.waiting = false ∧ 0 < v.count
  | _, _ => False

/-- The party works: it has not finished, and as faulter it has no fault that is not handled. -/
structure Busy (p : Party) (v : Progress) : Prop where
  active : v.active = true
  unfinished : v.done = false
  handled : p = .faulter → v.waiting = false

/-- The requests that a party may make. -/
def guar : Party → View b w → Req (sig b w) → Prop
  | .driver, v, .start .handler f => v.stage = 0 ∧ f = e.bm.handlerFn
  | .driver, v, .start .faulter f => v.stage = 1 ∧ f = e.bm.faulterFn
  | .driver, v, .recv .doneEp => v.stage = 2 ∨ v.stage = 3
  | .driver, v, .suspend .faulter => v.stage = 4
  | .driver, v, .suspend .handler => v.stage = 5
  | .driver, _, _ => False
  | p, v, .clock => Busy p v.toProgress
  | p, v, .load .start => Busy p v.toProgress ∧ MayLoad e p v.toProgress
  | p, v, .load (.early _ .minOverhead) => Busy p v.toProgress
  | p, v, .store x _ => Busy p v.toProgress ∧ e.writer x = p ∧
    (∀ m, x ≠ .early m .minOverhead) ∧ (p = .handler → x = .start → v.waiting = true)
  | .faulter, v, .sendCall .faultEp m => Busy .faulter v.toProgress ∧ v.count < e.total ∧
    m = .fault (e.ip v.count) ∧ (e.bm.series = .fault → StartSet v.hist)
  | .faulter, v, .awaitReply => v.active = true ∧ v.waiting = true
  | .handler, v, .recv .faultEp =>
    v.active = true ∧ v.waiting = false ∧ (v.count < e.total ∨ v.done = true)
  | .handler, v, .reply m => v.active = true ∧ v.waiting = true ∧
    m = .reply (e.ip (v.count - 1) + e.udInstructionSize) ∧
    (e.bm.series = .faultReply → v.count < e.total → StartSet v.hist)
  | p, v, .send .doneEp m => Busy p v.toProgress ∧ v.waiting = false ∧ v.count = e.total ∧
    m = .empty ∧ (p = e.recorder → Recorded e v)
  | _, _, _ => False

/-- The answers that a party counts on. -/
def rely : Party → View b w → (r : Req (sig b w)) → r.Resp → Prop
  | .faulter, v, .sendCall _ _, n => n = v.count
  | .handler, v, .recv .faultEp, a => a = e.faultMsg v.count ∧ v.count < e.total
  | .handler, v, .reply _, a => a = some (.faultEp, v.count - 1)
  | .driver, _, .recv .doneEp, a => a.2 = .empty
  | _, _, .load (.early m .minOverhead), a => a = e.mem (.early m .minOverhead)
  | _, _, _, _ => True

/-- The views in which a party may be at rest. -/
def rest : Party → View b w → Prop
  | .driver, v => v.stage = 6
  | _, v => v.active = false ∨ v.done = true

/-- The view at the entry of a function. -/
def atEntry (p : Party) (f : Fn) (v : View b w) : Prop :=
  v.active = true ∧ v.count = 0 ∧ v.waiting = false ∧ v.done = false ∧
    (p = .faulter ∧ f = e.bm.faulterFn ∨ p = .handler ∧ f = e.bm.handlerFn)

/-- What holds of the view of a party by itself. -/
structure Own (p : Party) (v : View b w) : Prop where
  pos : v.waiting = true → 0 < v.count
  le : v.count ≤ e.total
  faults : faults v.hist = (List.range v.count).map e.faultMsg
  replies : replies v.hist = if p = .handler then
    (List.range (v.count - if v.waiting then 1 else 0)).map e.replyMsg else []
  kept : ∀ m, lastStore (Var.early m .minOverhead) v.hist = none
  done : p ≠ .driver → (v.done = true ↔ DoneSent v.hist)
  finished : v.done = true → v.waiting = false ∧ v.count = e.total ∧ (p = e.recorder → Recorded e v)

/-- How the progress of the parties is related. -/
structure Sync (κ : Kernel (sig b w)) (g : Party → Progress) : Prop where
  count : (g .handler).count = (g .faulter).count
  msgs : κ.msgs .faultEp = (g .faulter).count
  waiting : (g .handler).waiting = (g .faulter).waiting
  caller : κ.caller .handler = if (g .faulter).waiting then
    some (.faulter, .faultEp, (g .faulter).count - 1) else none
  fresh : (g .driver).stage ≤ 1 → (g .faulter).active = false ∧ (g .faulter).count = 0 ∧
    (g .faulter).waiting = false ∧ (g .faulter).done = false ∧ (g .handler).done = false
  handler_active : 1 ≤ (g .driver).stage → (g .driver).stage ≤ 4 → (g .handler).active = true
  faulter_active : 2 ≤ (g .driver).stage → (g .driver).stage ≤ 4 → (g .faulter).active = true
  dones : 2 ≤ (g .driver).stage →
    min (g .driver).stage 4 = 2 + ((g .faulter).done.toNat + (g .handler).done.toNat)

/-- The time `t` belongs to the fault of number `n`: it was read and written to `start` immediately
before the fault, or before the reply to it. The last reply has no time of its own. -/
def Stamped (g : Party → View b w) (n : ℕ) (t : Ccnt w) : Prop :=
  match e.bm.series with
  | .fault => ∃ m, [.did .clock t, .did (.store .start t) (), .did (.sendCall .faultEp m) n] <:+:
    (g .faulter).hist
  | .faultReply => n + 1 < e.total → ∃ m, [.did .clock t, .did (.store .start t) (),
    .did (.reply m) (some (.faultEp, n))] <:+: (g .handler).hist
  | .roundTrip => True

/-- The values of `start` belong to the faults at which they are read. -/
structure Stamps (κ : Kernel (sig b w)) (g : Party → View b w) : Prop where
  start : ∀ p, MayLoad e p (g p).toProgress → Stamped e g ((g p).count - 1) (κ.mem .start)
  loaded : ∀ p, ∀ x ∈ (g p).loaded, Stamped e g x.1 x.2

/-- How the views of the parties are related. -/
structure Rel (κ : Kernel (sig b w)) (g : Party → View b w) : Prop where
  sync : Sync κ fun p => (g p).toProgress
  mem : ∀ x, κ.mem x = stored e.mem x (g (e.writer x)).hist
  stamps : Stamps e κ g

/-- The protocol of a pair of faulter and handler. -/
def protocol : Protocol (sig b w) (View b w) where
  spec p :=
    { init := {}
      step := step p
      guar := guar e p
      rely := rely e p
      rest := rest p
      atLabel := atEntry e p }
  own := Own e
  rel := Rel e

end Protocol

/-! ### What a party knows by itself -/

section Own

variable {e : Setup b w} {p : Party} {v : View b w} {ev : Event (sig b w)}

theorem doneSent_append {h : List (Event (sig b w))} :
    DoneSent (h ++ [ev]) ↔ DoneSent h ∨ ∃ n, ev = .did (.send .doneEp .empty) n :=
  exists_mem_concat

/-- A measurement stays in the history. -/
theorem Measured.append {i : ℕ} {start stop : Ccnt w} (h : Measured e v i start stop)
    (p : Party) (ev : Event (sig b w)) : Measured e (step p v ev) i start stop := by
  unfold Measured at h ⊢
  split at h
  · obtain ⟨hload, m, hm⟩ := h
    exact ⟨List.mem_append_left _ hload, m, List.infix_append_of_infix_left hm⟩
  · obtain ⟨hload, m, m', hm⟩ := h
    exact ⟨List.mem_append_left _ hload, m, m', List.infix_append_of_infix_left hm⟩
  · obtain ⟨m, m', hm⟩ := h
    exact ⟨m, m', List.infix_append_of_infix_left hm⟩

theorem Stored.append {h : List (Event (sig b w))} {r : Readings w} (hs : Stored e h r)
    (hev : ∀ x, storeOf x ev = none) : Stored e (h ++ [ev]) r := by
  unfold Stored at hs ⊢
  simpa only [lastStore_append (hev _)] using hs

theorem Recorded.append (h : Recorded e v) (p : Party) (hev : ∀ x, storeOf x ev = none) :
    Recorded e (step p v ev) := by
  obtain ⟨r, hr, hstored⟩ := h
  exact ⟨r, fun i hi => (hr i hi).append p ev, hstored.append hev⟩

/-- An event that is no fault, no reply and no done message. -/
theorem Own.quiet (h : Own e p v) (hfault : faultOf ev = none) (hreply : replyOf ev = none)
    (hkept : ∀ m, storeOf (Var.early m .minOverhead) ev = none)
    (hsend : ∀ n, ev ≠ .did (.send .doneEp .empty) n)
    (hcount : (advance p v.toProgress ev).count = v.count)
    (hwait : (advance p v.toProgress ev).waiting = v.waiting)
    (hdone : (advance p v.toProgress ev).done = v.done)
    (hstore : v.done = true → ∀ x, storeOf x ev = none) : Own e p (step p v ev) := by
  refine ⟨?_, ?_, ?_, ?_, fun m => ?_, fun hp => ?_, fun hfin => ?_⟩
  · simpa only [Fault.step, hwait, hcount] using h.pos
  · simpa only [Fault.step, hcount] using h.le
  · simpa only [Fault.step, hcount, faults_append, hfault, Option.toList_none,
      List.append_nil] using h.faults
  · simpa only [Fault.step, hcount, hwait, replies_append, hreply, Option.toList_none,
      List.append_nil] using h.replies
  · rw [Fault.step, lastStore_append (hkept m), h.kept m]
  · simp only [Fault.step, hdone, h.done hp, doneSent_append, hsend, exists_false, or_false]
  · have hdone' : v.done = true := hdone.symm.trans hfin
    obtain ⟨hw, hc, hrec⟩ := h.finished hdone'
    exact ⟨hwait.trans hw, hcount.trans hc, fun hp => (hrec hp).append p (hstore hdone')⟩

theorem Own.fault (h : Own e p v) (hwait : v.waiting = false) (hlt : v.count < e.total)
    (hfault : faultOf ev = some (e.faultMsg v.count)) (hreply : replyOf ev = none)
    (hstore : ∀ x, storeOf x ev = none) (hsend : ∀ n, ev ≠ .did (.send .doneEp .empty) n)
    (hadvance : advance p v.toProgress ev =
      { v.toProgress with count := v.count + 1, waiting := true }) :
    Own e p (step p v ev) := by
  refine ⟨?_, ?_, ?_, ?_, fun m => ?_, fun hp => ?_, fun hfin => ?_⟩
  · simp [Fault.step, hadvance]
  · simpa [Fault.step, hadvance] using hlt
  · simp [Fault.step, hadvance, faults_append, hfault, h.faults, List.range_succ]
  · have hreplies := h.replies
    simp only [hwait, Bool.false_eq_true, if_false, Nat.sub_zero] at hreplies
    simp [Fault.step, hadvance, replies_append, hreply, hreplies]
  · rw [Fault.step, lastStore_append (hstore _), h.kept m]
  · simp only [Fault.step, hadvance, h.done hp, doneSent_append, hsend, exists_false, or_false]
  · have hdone : v.done = true := by simpa [Fault.step, hadvance] using hfin
    exact absurd (h.finished hdone).2.1 hlt.ne

/-- The reply to the fault at hand, sent or received. -/
theorem Own.reply (h : Own e p v) (hwait : v.waiting = true) (hfault : faultOf ev = none)
    (hreply : replyOf ev = if p = .handler then some (e.replyMsg (v.count - 1)) else none)
    (hstore : ∀ x, storeOf x ev = none) (hsend : ∀ n, ev ≠ .did (.send .doneEp .empty) n)
    (hadvance : advance p v.toProgress ev = { v.toProgress with waiting := false }) :
    Own e p (step p v ev) := by
  refine ⟨?_, ?_, ?_, ?_, fun m => ?_, fun hp => ?_, fun hfin => ?_⟩
  · simp [Fault.step, hadvance]
  · simpa [Fault.step, hadvance] using h.le
  · simp [Fault.step, hadvance, faults_append, hfault, h.faults]
  · have hreplies := h.replies
    by_cases hp : p = .handler
    · subst hp
      simp only [hwait, if_true] at hreplies hreply
      have hrange : List.range v.count = List.range (v.count - 1) ++ [v.count - 1] := by
        rw [← List.range_succ, Nat.succ_eq_add_one, Nat.sub_add_cancel (h.pos hwait)]
      simp [Fault.step, hadvance, replies_append, hreply, hreplies, hrange]
    · rw [if_neg hp] at hreplies hreply
      simp [Fault.step, replies_append, hreply, hreplies, hp]
  · rw [Fault.step, lastStore_append (hstore _), h.kept m]
  · simp only [Fault.step, hadvance, h.done hp, doneSent_append, hsend, exists_false, or_false]
  · have hdone : v.done = true := by simpa [Fault.step, hadvance] using hfin
    exact absurd ((h.finished hdone).1.symm.trans hwait) nofun

theorem Own.sendDone (h : Own e p v) (hp : p ≠ .driver) (hwait : v.waiting = false)
    (hcount : v.count = e.total) (hrec : p = e.recorder → Recorded e v) (n : ℕ) :
    Own e p (step p v (.did (.send .doneEp .empty) n)) := by
  have hadvance : advance p v.toProgress (.did (.send .doneEp .empty) n : Event (sig b w)) =
      { v.toProgress with done := true } := by
    cases p <;> first | exact absurd rfl hp | rfl
  refine ⟨?_, ?_, ?_, ?_, fun m => ?_, fun _ => ?_, fun _ => ?_⟩
  · simpa [Fault.step, hadvance] using h.pos
  · simpa [Fault.step, hadvance] using h.le
  · simpa [Fault.step, hadvance, faults_append, faultOf] using h.faults
  · simpa [Fault.step, hadvance, replies_append, replyOf] using h.replies
  · rw [Fault.step, lastStore_append rfl, h.kept m]
  · exact iff_of_true (by rw [Fault.step, hadvance]) (doneSent_append.mpr (.inr ⟨n, rfl⟩))
  · rw [Fault.step, hadvance]
    refine ⟨hwait, hcount, fun hp => ?_⟩
    have hrec' := (hrec hp).append p fun x =>
      show storeOf x (.did (.send .doneEp .empty) n) = none from rfl
    rwa [Fault.step, hadvance] at hrec'

theorem busy_done {v : View b w} (h : Busy p v.toProgress) : v.done ≠ true := by
  simp [h.unfinished]

theorem Own.step {r : Req (sig b w)} {a : r.Resp} (h : Own e p v) (hguar : guar e p v r)
    (hrely : rely e p v r a) : Own e p (step p v (.did r a)) := by
  cases p with
  | driver =>
    cases r with
    | start q f | suspend q =>
      exact h.quiet rfl rfl (fun _ => rfl) nofun rfl rfl rfl fun _ _ => rfl
    | recv c =>
      cases c with
      | faultEp => exact hguar.elim
      | doneEp => exact h.quiet rfl rfl (fun _ => rfl) nofun rfl rfl rfl fun _ _ => rfl
    | _ => exact hguar.elim
  | faulter =>
    cases r with
    | clock => exact h.quiet rfl rfl (fun _ => rfl) nofun rfl rfl rfl fun _ _ => rfl
    | load x => exact h.quiet rfl rfl (fun _ => rfl) nofun rfl rfl rfl fun _ _ => rfl
    | store x t =>
      obtain ⟨hbusy, -, hne, -⟩ := hguar
      exact h.quiet rfl rfl (fun m => storeOf_store_of_ne (hne m) t a) nofun rfl rfl rfl
        fun hdone => absurd hdone (busy_done hbusy)
    | sendCall c m =>
      cases c with
      | faultEp =>
        obtain ⟨hbusy, hlt, rfl, -⟩ := hguar
        cases (hrely : a = v.count)
        exact h.fault (hbusy.handled rfl) hlt rfl rfl (fun _ => rfl) nofun rfl
      | doneEp => exact hguar.elim
    | awaitReply => exact h.reply hguar.2 rfl rfl (fun _ => rfl) nofun rfl
    | send c m =>
      cases c with
      | faultEp => exact hguar.elim
      | doneEp =>
        obtain ⟨-, hwait, hcount, rfl, hrec⟩ := hguar
        exact h.sendDone nofun hwait hcount hrec a
    | _ => exact hguar.elim
  | handler =>
    cases r with
    | clock => exact h.quiet rfl rfl (fun _ => rfl) nofun rfl rfl rfl fun _ _ => rfl
    | load x => exact h.quiet rfl rfl (fun _ => rfl) nofun rfl rfl rfl fun _ _ => rfl
    | store x t =>
      obtain ⟨hbusy, -, hne, -⟩ := hguar
      exact h.quiet rfl rfl (fun m => storeOf_store_of_ne (hne m) t a) nofun rfl rfl rfl
        fun hdone => absurd hdone (busy_done hbusy)
    | recv c =>
      cases c with
      | faultEp =>
        obtain ⟨rfl, hlt⟩ := hrely
        exact h.fault hguar.2.1 hlt rfl rfl (fun _ => rfl) nofun rfl
      | doneEp => exact hguar.elim
    | reply m =>
      obtain ⟨-, hwait, rfl, -⟩ := hguar
      cases (hrely : a = some (.faultEp, v.count - 1))
      exact h.reply hwait rfl rfl (fun _ => rfl) nofun rfl
    | send c m =>
      cases c with
      | faultEp => exact hguar.elim
      | doneEp =>
        obtain ⟨-, hwait, hcount, rfl, hrec⟩ := hguar
        exact h.sendDone nofun hwait hcount hrec a
    | _ => exact hguar.elim

end Own

/-! ### How the progress is related -/

section Sync

variable {κ : Kernel (sig b w)} {g : Party → Progress}

theorem Sync.call (h : Sync κ g) (hactive : (g .faulter).active = true) :
    Sync
      { κ with
        msgs := Function.update κ.msgs .faultEp (κ.msgs .faultEp + 1)
        caller := Function.update κ.caller .handler (some (.faulter, .faultEp, κ.msgs .faultEp)) }
      (Function.update (Function.update g .faulter
        { g .faulter with count := (g .faulter).count + 1, waiting := true }) .handler
        { g .handler with count := (g .handler).count + 1, waiting := true }) := by
  obtain ⟨hcount, hmsgs, hwaiting, hcaller, hfresh, hhandler, hfaulter, hdones⟩ := h
  refine ⟨?_, ?_, rfl, ?_, fun hstage => ?_, hhandler, hfaulter, hdones⟩
  · simp [hcount]
  · simp [hmsgs]
  · simp [hmsgs]
  · exact absurd (hfresh hstage).1 (by simp [hactive])

theorem Sync.reply (h : Sync κ g) :
    Sync { κ with caller := Function.update κ.caller .handler none }
      (Function.update (Function.update g .handler { g .handler with waiting := false }) .faulter
        { g .faulter with waiting := false }) := by
  obtain ⟨hcount, hmsgs, hwaiting, hcaller, hfresh, hhandler, hfaulter, hdones⟩ := h
  refine ⟨hcount, hmsgs, rfl, rfl, fun hstage => ?_, hhandler, hfaulter, hdones⟩
  obtain ⟨hactive, hzero, -, hdone⟩ := hfresh hstage
  exact ⟨hactive, hzero, rfl, hdone⟩

theorem Sync.sendDone (h : Sync κ g) {p : Party} (hp : p ≠ .driver) (hdone : (g p).done = false)
    (hstage : (g .driver).stage = 2 ∨ (g .driver).stage = 3) :
    Sync
      { κ with
        msgs := Function.update κ.msgs .doneEp (κ.msgs .doneEp + 1)
        caller := Function.update κ.caller .driver none }
      (Function.update (Function.update g p { g p with done := true }) .driver
        { g .driver with stage := (g .driver).stage + 1 }) := by
  obtain ⟨hcount, hmsgs, hwaiting, hcaller, hfresh, hhandler, hfaulter, hdones⟩ := h
  have hdones := hdones (by omega)
  have hhandler := hhandler (by omega) (by omega)
  have hfaulter := hfaulter (by omega) (by omega)
  cases p with
  | driver => exact absurd rfl hp
  | faulter =>
    refine ⟨hcount, hmsgs, hwaiting, hcaller, fun hle => ?_, fun _ _ => hhandler,
      fun _ _ => hfaulter,
      fun _ => ?_⟩
    · have : (g .driver).stage + 1 ≤ 1 := hle
      omega
    · rw [hdone, Bool.toNat_false] at hdones
      change min ((g .driver).stage + 1) 4 = 2 + (1 + (g .handler).done.toNat)
      omega
  | handler =>
    refine ⟨hcount, hmsgs, hwaiting, hcaller, fun hle => ?_, fun _ _ => hhandler,
      fun _ _ => hfaulter,
      fun _ => ?_⟩
    · have : (g .driver).stage + 1 ≤ 1 := hle
      omega
    · rw [hdone, Bool.toNat_false] at hdones
      change min ((g .driver).stage + 1) 4 = 2 + ((g .faulter).done.toNat + 1)
      omega

theorem Sync.start_handler (h : Sync κ g) (hstage : (g .driver).stage = 0) :
    Sync (κ.cancel .handler) (Function.update (Function.update g .driver
      { g .driver with stage := (g .driver).stage + 1 }) .handler
      { g .handler with active := true }) := by
  obtain ⟨hcount, hmsgs, hwaiting, hcaller, hfresh, hhandler, hfaulter, hdones⟩ := h
  have hfresh := hfresh (by omega)
  rw [if_neg (by simp [hfresh.2.2.1])] at hcaller
  refine ⟨hcount, hmsgs, hwaiting, ?_, fun _ => hfresh, fun _ _ => rfl, ?_, ?_⟩
  · simp [Kernel.cancel, hcaller, hfresh.2.2.1]
  all_goals simp [hstage]

theorem Sync.start_faulter (h : Sync κ g) (hstage : (g .driver).stage = 1) :
    Sync (κ.cancel .faulter) (Function.update (Function.update g .driver
      { g .driver with stage := (g .driver).stage + 1 }) .faulter
      { g .faulter with active := true }) := by
  obtain ⟨hcount, hmsgs, hwaiting, hcaller, hfresh, hhandler, hfaulter, hdones⟩ := h
  have hfresh := hfresh (by omega)
  have hhandler := hhandler (by omega) (by omega)
  rw [if_neg (by simp [hfresh.2.2.1])] at hcaller
  refine ⟨hcount, hmsgs, hwaiting, ?_, ?_, fun _ _ => hhandler, fun _ _ => rfl, fun _ => ?_⟩
  · simp [Kernel.cancel, hcaller, hfresh.2.2.1]
  · simp [hstage]
  · simp [hstage, hfresh.2.2.2]

/-- The driver suspends a party, when nobody waits for a reply. -/
theorem Sync.suspend (h : Sync κ g) (hstage : 4 ≤ (g .driver).stage)
    (hwait : (g .faulter).waiting = false) {q : Party} (hq : q ≠ .driver) :
    Sync (κ.cancel q) (Function.update (Function.update g .driver
      { g .driver with stage := (g .driver).stage + 1 }) q { g q with active := false }) := by
  obtain ⟨hcount, hmsgs, hwaiting, hcaller, hfresh, hhandler, hfaulter, hdones⟩ := h
  have hdones := hdones (by omega)
  rw [if_neg (by simp [hwait])] at hcaller
  cases q with
  | driver => exact absurd rfl hq
  | faulter | handler =>
    refine ⟨hcount, hmsgs, hwaiting, by simp [Kernel.cancel, hcaller, hwait], ?_, ?_, ?_, ?_⟩ <;>
      simp <;> omega

end Sync

/-! ### How the views are related -/

section Rel

variable {e : Setup b w} {κ κ' : Kernel (sig b w)} {g g' : Party → View b w} {p q : Party}
  {ev : Event (sig b w)}

/-- The views after an event of `p`. -/
abbrev next (e : Setup b w) (g : Party → View b w) (p : Party) (ev : Event (sig b w)) :
    Party → View b w := (protocol e).next g p ev

theorem tracks_progress : (protocol e).Tracks View.toProgress advance := fun _ _ _ => rfl

theorem records_hist : (protocol e).Records View.hist where
  init _ := rfl
  step _ _ _ := rfl

theorem prefix_next (e : Setup b w) (g : Party → View b w) (p : Party) (ev : Event (sig b w))
    (q : Party) : (g q).hist <+: (next e g p ev q).hist := by
  by_cases hq : q = p
  · subst hq
    exact records_hist.next_self ▸ List.prefix_append _ _
  · simp [next, hq]

theorem loaded_next (hev : startOf ev = none) (q : Party) :
    (next e g p ev q).loaded = (g q).loaded := by
  by_cases hq : q = p
  · subst hq
    simp [next, protocol, step, hev]
  · simp [next, hq]

theorem Stamped.mono {n : ℕ} {t : Ccnt w} (h : Stamped e g n t)
    (hpre : ∀ p, (g p).hist <+: (g' p).hist) : Stamped e g' n t := by
  unfold Stamped at h ⊢
  split at h
  · obtain ⟨m, hm⟩ := h
    exact ⟨m, hm.trans (hpre _).isInfix⟩
  · intro hn
    obtain ⟨m, hm⟩ := h hn
    exact ⟨m, hm.trans (hpre _).isInfix⟩
  · trivial

/-- Nothing is read and nobody else may read. -/
theorem Stamps.mono (h : Stamps e κ g) (hpre : ∀ p, (g p).hist <+: (g' p).hist)
    (hloaded : ∀ p, (g' p).loaded = (g p).loaded) (hstart : κ'.mem .start = κ.mem .start)
    (hload : ∀ p, MayLoad e p (g' p).toProgress →
      MayLoad e p (g p).toProgress ∧ (g' p).count = (g p).count) : Stamps e κ' g' where
  start p hp := by
    obtain ⟨hmay, hcount⟩ := hload p hp
    rw [hcount, hstart]
    exact (h.start p hmay).mono hpre
  loaded p x hx := (h.loaded p x (hloaded p ▸ hx)).mono hpre

theorem Stamps.of_not_mayLoad (h : Stamps e κ g) (hpre : ∀ p, (g p).hist <+: (g' p).hist)
    (hloaded : ∀ p, (g' p).loaded = (g p).loaded)
    (hload : ∀ p, ¬MayLoad e p (g' p).toProgress) : Stamps e κ' g' where
  start p hp := absurd hp (hload p)
  loaded p x hx := (h.loaded p x (hloaded p ▸ hx)).mono hpre

/-- An event that is part of no exchange and does not touch the memory. -/
theorem Rel.quiet (h : Rel e κ g) (hadvance : advance p (g p).toProgress ev = (g p).toProgress)
    (hload : startOf ev = none) (hstore : ∀ x, storeOf x ev = none) :
    Rel e κ (next e g p ev) := by
  have hprogress : (fun q => (next e g p ev q).toProgress) = fun q => (g q).toProgress := by
    rw [tracks_progress.next, hadvance, Function.update_eq_self]
  refine ⟨hprogress ▸ h.sync, fun x => records_hist.mem_next (h.mem x) (hstore x), ?_⟩
  refine h.stamps.mono (prefix_next e g p ev) (loaded_next hload) rfl fun q hq => ?_
  rw [congrFun hprogress q] at hq ⊢
  exact ⟨hq, rfl⟩

theorem Rel.load_start (h : Rel e κ g) (hp : p ≠ .driver) (hmay : MayLoad e p (g p).toProgress) :
    Rel e κ (next e g p (.did (.load .start) (κ.mem .start))) := by
  have hadvance : advance p (g p).toProgress
      (.did (.load .start) (κ.mem .start) : Event (sig b w)) = (g p).toProgress := by
    cases p <;> first | exact absurd rfl hp | rfl
  have hprogress : (fun q => (next e g p (.did (.load .start) (κ.mem .start)) q).toProgress) =
      fun q => (g q).toProgress := by
    rw [tracks_progress.next, hadvance, Function.update_eq_self]
  have hpre := prefix_next e g p (.did (.load .start) (κ.mem .start))
  refine ⟨hprogress ▸ h.sync, fun x => records_hist.mem_next (h.mem x) rfl, fun q hq => ?_,
    fun q x hx => ?_⟩
  · rw [congrFun hprogress q] at hq ⊢
    exact (h.stamps.start q hq).mono hpre
  · by_cases hqp : q = p
    · subst hqp
      have hx' : x ∈ (g q).loaded ++ [((g q).count - 1, κ.mem .start)] := by
        simpa [next, protocol, step, startOf, loadOf] using hx
      obtain hx' | hx' := List.mem_append.mp hx'
      · exact (h.stamps.loaded q x hx').mono hpre
      · rw [List.mem_singleton.mp hx']
        exact (h.stamps.start q hmay).mono hpre
    · exact (h.stamps.loaded q x (by simpa [next, hqp] using hx)).mono hpre

/-- Writing `start` is only done while nobody may read it. -/
theorem not_mayLoad_of_writer (h : Sync κ fun q => (g q).toProgress)
    (hwriter : e.writer .start = p) (hbusy : Busy p (g p).toProgress)
    (hwait : p = .handler → (g p).waiting = true) (q : Party) :
    ¬MayLoad e q (g q).toProgress := by
  have hwaiting : (g .handler).waiting = (g .faulter).waiting := h.waiting
  unfold MayLoad
  cases hs : e.bm.series with
  | roundTrip => exact id
  | fault =>
    obtain rfl : Party.faulter = p := by simpa [Setup.writer, hs] using hwriter
    cases q with
    | handler => simp [hwaiting, hbusy.handled rfl]
    | faulter | driver => exact id
  | faultReply =>
    obtain rfl : Party.handler = p := by simpa [Setup.writer, hs] using hwriter
    cases q with
    | faulter => simp [← hwaiting, hwait rfl]
    | handler | driver => exact id

theorem Rel.store (h : Rel e κ g) (hp : p ≠ .driver) (hbusy : Busy p (g p).toProgress) {x : Var}
    (hx : e.writer x = p) (hwait : p = .handler → x = .start → (g p).waiting = true) (t : Ccnt w) :
    Rel e { κ with mem := Function.update κ.mem x t } (next e g p (.did (.store x t) ())) := by
  have hadvance : advance p (g p).toProgress (.did (.store x t) () : Event (sig b w)) =
      (g p).toProgress := by
    cases p <;> first | exact absurd rfl hp | rfl
  have hprogress : (fun q => (next e g p (.did (.store x t) ()) q).toProgress) =
      fun q => (g q).toProgress := by
    rw [tracks_progress.next, hadvance, Function.update_eq_self]
  have hpre := prefix_next e g p (.did (.store x t) ())
  obtain ⟨hsync, hmem, hstamps⟩ := h
  refine ⟨?_, ?_, ?_⟩
  · rw [hprogress]
    exact ⟨hsync.count, hsync.msgs, hsync.waiting, hsync.caller, hsync.fresh, hsync.handler_active,
      hsync.faulter_active, hsync.dones⟩
  · exact fun y => records_hist.mem_next_store t (hmem y) fun heq => heq ▸ hx
  · by_cases hstart : x = .start
    · subst hstart
      refine hstamps.of_not_mayLoad hpre (loaded_next rfl) fun q hq => ?_
      rw [congrFun hprogress q] at hq
      exact not_mayLoad_of_writer hsync hx hbusy (fun hh => hwait hh rfl) q hq
    · refine hstamps.mono hpre (loaded_next rfl) (Function.update_of_ne (Ne.symm hstart) _ _)
        fun q hq => ?_
      rw [congrFun hprogress q] at hq ⊢
      exact ⟨hq, rfl⟩

/-- The value of `start` that has just been written. -/
theorem Rel.mem_start (h : Rel e κ g) (hwriter : e.writer .start = p) (hset : StartSet (g p).hist) :
    [.did .clock (κ.mem .start), .did (.store .start (κ.mem .start)) ()] <:+ (g p).hist := by
  obtain ⟨t, ht⟩ := hset
  have hlast : lastStore Var.start (g p).hist = some t := by
    obtain ⟨l, hl⟩ := ht
    rw [← hl, show [.did .clock t, .did (.store .start t) ()] =
      [.did .clock t] ++ [(.did (.store .start t) () : Event (sig b w))] from rfl,
      ← List.append_assoc, lastStore_append_store_self]
  have hmem := h.mem .start
  rw [hwriter, stored, hlast, Option.getD_some] at hmem
  rwa [hmem]

section Exchange

variable {ev' : Event (sig b w)}

theorem sync_next_two (hpq : p ≠ q)
    (h : Sync κ (Function.update (Function.update (fun u => (g u).toProgress) p
      (advance p (g p).toProgress ev)) q (advance q (g q).toProgress ev'))) :
    Sync κ fun u => (next e (next e g p ev) q ev' u).toProgress :=
  tracks_progress.next_two hpq.symm ▸ h

theorem prefix_next_two (u : Party) :
    (g u).hist <+: (next e (next e g p ev) q ev' u).hist :=
  (prefix_next e g p ev u).trans (prefix_next e _ q ev' u)

theorem loaded_next_two (hev : startOf ev = none) (hev' : startOf ev' = none) (u : Party) :
    (next e (next e g p ev) q ev' u).loaded = (g u).loaded :=
  (loaded_next hev' u).trans (loaded_next hev u)

/-- Two events that touch no memory and after which the same may be read as before. -/
theorem Rel.quiet_two (h : Rel e κ g) (hpq : p ≠ q) (hload : startOf ev = none)
    (hload' : startOf ev' = none) (hstore : ∀ x, storeOf x ev = none)
    (hstore' : ∀ x, storeOf x ev' = none) (hmem : κ'.mem = κ.mem)
    (hsync : Sync κ' (Function.update (Function.update (fun u => (g u).toProgress) p
      (advance p (g p).toProgress ev)) q (advance q (g q).toProgress ev')))
    (hp : (advance p (g p).toProgress ev).count = (g p).count ∧
      (advance p (g p).toProgress ev).waiting = (g p).waiting)
    (hq : (advance q (g q).toProgress ev').count = (g q).count ∧
      (advance q (g q).toProgress ev').waiting = (g q).waiting) :
    Rel e κ' (next e (next e g p ev) q ev') := by
  refine ⟨sync_next_two hpq hsync, hmem ▸ fun x =>
    records_hist.mem_next (records_hist.mem_next (h.mem x) (hstore x)) (hstore' x), ?_⟩
  have hsame : ∀ u, (next e (next e g p ev) q ev' u).count = (g u).count ∧
      (next e (next e g p ev) q ev' u).waiting = (g u).waiting := by
    intro u
    have hu : (next e (next e g p ev) q ev' u).toProgress = _ :=
      congrFun (tracks_progress.next_two hpq.symm) u
    by_cases huq : u = q
    · subst huq
      simp only [Function.update_self] at hu
      exact ⟨hu ▸ hq.1, hu ▸ hq.2⟩
    · by_cases hup : u = p
      · subst hup
        simp only [Function.update_of_ne huq, Function.update_self] at hu
        exact ⟨hu ▸ hp.1, hu ▸ hp.2⟩
      · simp only [Function.update_of_ne huq, Function.update_of_ne hup] at hu
        exact ⟨hu ▸ rfl, hu ▸ rfl⟩
  refine h.stamps.mono prefix_next_two (loaded_next_two hload hload') (by rw [hmem]) fun u hu => ?_
  refine ⟨?_, (hsame u).1⟩
  simpa only [MayLoad, (hsame u).1, (hsame u).2] using hu

theorem Rel.call (h : Rel e κ g) (hactive : (g .faulter).active = true)
    (hset : e.bm.series = .fault → StartSet (g .faulter).hist) (m : Msg b) :
    Rel e
      { κ with
        msgs := Function.update κ.msgs .faultEp (κ.msgs .faultEp + 1)
        caller := Function.update κ.caller .handler (some (.faulter, .faultEp, κ.msgs .faultEp)) }
      (next e (next e g .faulter (.did (.sendCall .faultEp m) (κ.msgs .faultEp))) .handler
        (.did (.recv .faultEp) (κ.msgs .faultEp, m))) := by
  have hmsgs : κ.msgs .faultEp = (g .faulter).count := h.sync.msgs
  have hcount : (g .handler).count = (g .faulter).count := h.sync.count
  refine ⟨sync_next_two (p := .faulter) (q := .handler) nofun (h.sync.call hactive),
    fun x => records_hist.mem_next (records_hist.mem_next (h.mem x) rfl) rfl, fun p hp => ?_,
    fun p x hx => ?_⟩
  · unfold MayLoad at hp
    unfold Stamped
    cases hs : e.bm.series with
    | roundTrip => trivial
    | fault =>
      rw [hs] at hp
      cases p with
      | faulter | driver => exact hp.elim
      | handler =>
        obtain ⟨l, hl⟩ := h.mem_start (p := .faulter) (by simp [Setup.writer, hs]) (hset hs)
        refine ⟨m, l, [], ?_⟩
        simp [next, protocol, step, advance, ← hl, hcount, hmsgs]
    | faultReply =>
      rw [hs] at hp
      cases p with
      | faulter => exact absurd hp.1 nofun
      | handler | driver => exact hp.elim
  · rw [loaded_next_two rfl rfl] at hx
    exact (h.stamps.loaded p x hx).mono prefix_next_two

theorem Rel.reply (h : Rel e κ g)
    (hset : e.bm.series = .faultReply → (g .handler).count < e.total → StartSet (g .handler).hist)
    (hpos : 0 < (g .faulter).count) (m : Msg b) :
    Rel e { κ with caller := Function.update κ.caller .handler none }
      (next e (next e g .handler (.did (.reply m) (some (.faultEp, (g .faulter).count - 1))))
        .faulter (.did .awaitReply m)) := by
  have hcount : (g .handler).count = (g .faulter).count := h.sync.count
  refine ⟨sync_next_two (p := .handler) (q := .faulter) nofun h.sync.reply,
    fun x => records_hist.mem_next (records_hist.mem_next (h.mem x) rfl) rfl, fun p hp => ?_,
    fun p x hx => ?_⟩
  · unfold MayLoad at hp
    unfold Stamped
    cases hs : e.bm.series with
    | roundTrip => trivial
    | fault =>
      rw [hs] at hp
      cases p with
      | faulter | driver => exact hp.elim
      | handler => exact absurd hp nofun
    | faultReply =>
      rw [hs] at hp
      cases p with
      | handler | driver => exact hp.elim
      | faulter =>
        intro hlt
        have hlt' : (g .faulter).count - 1 + 1 < e.total := hlt
        obtain ⟨l, hl⟩ := h.mem_start (p := .handler) (by simp [Setup.writer, hs])
          (hset hs (by omega))
        refine ⟨m, l, [], ?_⟩
        simp [next, protocol, step, advance, ← hl]
  · rw [loaded_next_two rfl rfl] at hx
    exact (h.stamps.loaded p x hx).mono prefix_next_two

theorem Rel.sendDone (h : Rel e κ g) (hp : p ≠ .driver) (hdone : (g p).done = false)
    (hstage : (g .driver).stage = 2 ∨ (g .driver).stage = 3) (m : Msg b) (n : ℕ) :
    Rel e
      { κ with
        msgs := Function.update κ.msgs .doneEp (κ.msgs .doneEp + 1)
        caller := Function.update κ.caller .driver none }
      (next e (next e g p (.did (.send .doneEp m) n)) .driver (.did (.recv .doneEp) (n, m))) := by
  have hsync := h.sync.sendDone hp hdone hstage
  refine h.quiet_two hp rfl rfl (fun _ => rfl) (fun _ => rfl) rfl ?_ ?_ ⟨rfl, rfl⟩
  · cases p with
    | driver => exact absurd rfl hp
    | faulter | handler => exact hsync
  · cases p with
    | driver => exact absurd rfl hp
    | faulter | handler => exact ⟨rfl, rfl⟩

theorem Rel.start_handler (h : Rel e κ g) (hstage : (g .driver).stage = 0) (f : Fn) :
    Rel e (κ.cancel .handler)
      (next e (next e g .driver (.did (.start .handler f) ())) .handler (.started f)) :=
  h.quiet_two nofun rfl rfl (fun _ => rfl) (fun _ => rfl) rfl (h.sync.start_handler hstage)
    ⟨rfl, rfl⟩ ⟨rfl, rfl⟩

theorem Rel.start_faulter (h : Rel e κ g) (hstage : (g .driver).stage = 1) (f : Fn) :
    Rel e (κ.cancel .faulter)
      (next e (next e g .driver (.did (.start .faulter f) ())) .faulter (.started f)) :=
  h.quiet_two nofun rfl rfl (fun _ => rfl) (fun _ => rfl) rfl (h.sync.start_faulter hstage)
    ⟨rfl, rfl⟩ ⟨rfl, rfl⟩

theorem Rel.suspend (h : Rel e κ g) (hstage : 4 ≤ (g .driver).stage)
    (hwait : (g .faulter).waiting = false) (hq : q ≠ .driver) :
    Rel e (κ.cancel q) (next e (next e g .driver (.did (.suspend q) ())) q .stopped) := by
  have hsync := h.sync.suspend hstage hwait hq
  refine h.quiet_two hq.symm rfl rfl (fun _ => rfl) (fun _ => rfl) rfl ?_ ⟨rfl, rfl⟩ ?_
  · cases q with
    | driver => exact absurd rfl hq
    | faulter | handler => exact hsync
  · cases q with
    | driver => exact absurd rfl hq
    | faulter | handler => exact ⟨rfl, rfl⟩

end Exchange

end Rel

/-- A variable that nobody writes has its initial value. -/
theorem Inv.mem_minOverhead {e : Setup b w} {s : State (sig b w)} (h : (protocol e).Inv s)
    (m : Series) : s.kernel.mem (.early m .minOverhead) = e.mem (.early m .minOverhead) := by
  rw [h.rel.mem, stored, (h.own _).kept, Option.getD_none]

/-! ### The steps of the system -/

section Sound

variable {e : Setup b w} {s : State (sig b w)} {p q : Party} (hinv : (protocol e).Inv s)

include hinv

theorem rel_load {x : Var} (hguar : guar e p ((protocol e).view s.log p) (.load x)) :
    rely e p ((protocol e).view s.log p) (.load x) (s.kernel.mem x) ∧
      Rel e s.kernel
        (next e ((protocol e).view s.log) p (.did (.load x) (s.kernel.mem x))) := by
  have hrel := hinv.rel
  cases x with
  | start =>
    cases p with
    | faulter | handler => exact ⟨trivial, hrel.load_start (by decide) hguar.2⟩
    | driver => exact hguar.elim
  | sample m i => cases p <;> exact hguar.elim
  | early m f =>
    cases p with
    | driver => exact hguar.elim
    | faulter | handler =>
      cases f with
      | minOverhead => exact ⟨Inv.mem_minOverhead hinv m, hrel.quiet rfl rfl fun _ => rfl⟩
      | sum | sum2 | num => exact hguar.elim

/-- While the handler has a fault at hand its reply is not lost. -/
theorem caller_ne_none (hwait : ((protocol e).view s.log .handler).waiting = true) :
    s.kernel.caller .handler ≠ none := by
  have hcaller := hinv.rel.sync.caller
  rw [← hinv.rel.sync.waiting, if_pos hwait] at hcaller
  rw [hcaller]
  exact Option.some_ne_none _

theorem rel_effect {r : Req (sig b w)} {a : r.Resp} {κ : Kernel (sig b w)}
    (hguar : guar e p ((protocol e).view s.log p) r) (heff : Effect s p r a κ) :
    rely e p ((protocol e).view s.log p) r a ∧
      Rel e κ (next e ((protocol e).view s.log) p (.did r a)) := by
  have hrel := hinv.rel
  cases heff with
  | clock t =>
    cases p with
    | faulter | handler => exact ⟨trivial, hrel.quiet rfl rfl fun _ => rfl⟩
    | driver => exact hguar.elim
  | load x => exact rel_load hinv hguar
  | store x t =>
    cases p with
    | driver => exact hguar.elim
    | faulter | handler =>
      obtain ⟨hbusy, hx, -, hwait⟩ := hguar
      exact ⟨trivial, hrel.store (by decide) hbusy hx hwait t⟩
  | replyNone m hnone =>
    cases p with
    | handler => exact absurd hnone (caller_ne_none hinv hguar.2.1)
    | faulter | driver => exact hguar.elim
  | signal n | wait n => exact n.elim
  | acquire l | release l | sleep l => exact l.elim
  | wakeNone c => exact c.elim

/-- A message is a done message to the driver. -/
theorem rel_send {c : Endpoint} {m : Msg b} (hpq : p ≠ q)
    (hp : guar e p ((protocol e).view s.log p) (.send c m))
    (hq : guar e q ((protocol e).view s.log q) (.recv c)) :
    rely e p ((protocol e).view s.log p) (.send c m) (s.kernel.msgs c) ∧
      rely e q ((protocol e).view s.log q) (.recv c) (s.kernel.msgs c, m) ∧
      Rel e
        { s.kernel with
          msgs := Function.update s.kernel.msgs c (s.kernel.msgs c + 1)
          caller := Function.update s.kernel.caller q none }
        (next e (next e ((protocol e).view s.log) p (.did (.send c m) (s.kernel.msgs c))) q
          (.did (.recv c) (s.kernel.msgs c, m))) := by
  cases c with
  | faultEp => cases p <;> exact hp.elim
  | doneEp =>
    cases q with
    | faulter | handler => exact hq.elim
    | driver =>
      cases p with
      | driver => exact absurd rfl hpq
      | faulter | handler =>
        obtain ⟨hbusy, -, -, hm, -⟩ := hp
        exact ⟨trivial, hm, hinv.rel.sendDone (by decide) hbusy.unfinished hq m _⟩

/-- A call is a fault, which the handler receives. -/
theorem rel_call {c : Endpoint} {m : Msg b} (hpq : p ≠ q)
    (hp : guar e p ((protocol e).view s.log p) (.sendCall c m))
    (hq : guar e q ((protocol e).view s.log q) (.recv c)) :
    rely e p ((protocol e).view s.log p) (.sendCall c m) (s.kernel.msgs c) ∧
      rely e q ((protocol e).view s.log q) (.recv c) (s.kernel.msgs c, m) ∧
      Rel e
        { s.kernel with
          msgs := Function.update s.kernel.msgs c (s.kernel.msgs c + 1)
          caller := Function.update s.kernel.caller q (some (p, c, s.kernel.msgs c)) }
        (next e (next e ((protocol e).view s.log) p (.did (.sendCall c m) (s.kernel.msgs c))) q
          (.did (.recv c) (s.kernel.msgs c, m))) := by
  cases c with
  | doneEp => cases p <;> exact hp.elim
  | faultEp =>
    cases p with
    | handler | driver => exact hp.elim
    | faulter =>
      cases q with
      | faulter => exact absurd rfl hpq
      | driver => exact hq.elim
      | handler =>
        obtain ⟨hbusy, hlt, rfl, hset⟩ := hp
        have hcount := hinv.rel.sync.count
        have hmsgs := hinv.rel.sync.msgs
        refine ⟨hmsgs, ⟨?_, hcount ▸ hlt⟩, hinv.rel.call hbusy.active hset _⟩
        rw [hmsgs, ← hcount]
        rfl

/-- A reply goes to the faulter and answers its last fault. -/
theorem rel_reply {m : Msg b} {c : Endpoint} {n : ℕ}
    (hp : guar e p ((protocol e).view s.log p) (.reply m))
    (hcaller : s.kernel.caller p = some (q, c, n)) :
    rely e p ((protocol e).view s.log p) (.reply m) (some (c, n)) ∧
      rely e q ((protocol e).view s.log q) .awaitReply m ∧
      Rel e { s.kernel with caller := Function.update s.kernel.caller p none }
        (next e (next e ((protocol e).view s.log) p (.did (.reply m) (some (c, n)))) q
          (.did .awaitReply m)) := by
  have hrel := hinv.rel
  cases p with
  | faulter | driver => exact hp.elim
  | handler =>
    obtain ⟨-, hwait, -, hset⟩ := hp
    have hcaller' := hrel.sync.caller
    rw [hcaller, ← hrel.sync.waiting, if_pos hwait] at hcaller'
    cases hcaller'
    have hpos := hrel.sync.count ▸ (hinv.own .handler).pos hwait
    exact ⟨congrArg (fun n => some (Endpoint.faultEp, n - 1)) hrel.sync.count.symm, trivial,
      hrel.reply hset hpos m⟩

theorem rel_exchange {r r' : Req (sig b w)} {a : r.Resp} {a' : r'.Resp} {κ : Kernel (sig b w)}
    (hpq : p ≠ q) (hp : guar e p ((protocol e).view s.log p) r)
    (hq : guar e q ((protocol e).view s.log q) r') (hex : Exchange s.kernel p q r a r' a' κ) :
    rely e p ((protocol e).view s.log p) r a ∧ rely e q ((protocol e).view s.log q) r' a' ∧
      Rel e κ (next e (next e ((protocol e).view s.log) p (.did r a)) q (.did r' a')) := by
  cases hex with
  | send c m => exact rel_send hinv hpq hp hq
  | call c m => exact rel_call hinv hpq hp hq
  | reply m hcaller => exact rel_reply hinv hp hcaller
  | wake c => exact c.elim

theorem rel_start {f : Fn} (hpq : p ≠ q)
    (hguar : guar e p ((protocol e).view s.log p) (.start q f)) :
    rely e p ((protocol e).view s.log p) (.start q f) () ∧
      atEntry e q f (step q ((protocol e).view s.log q) (.started f)) ∧
      Rel e (s.kernel.cancel q)
        (next e (next e ((protocol e).view s.log) p (.did (.start q f) ())) q (.started f)) := by
  have hrel := hinv.rel
  cases p with
  | faulter | handler => exact hguar.elim
  | driver =>
    cases q with
    | driver => exact absurd rfl hpq
    | handler =>
      obtain ⟨hstage, hf⟩ := hguar
      obtain ⟨-, hzero, hwait, -, hdone⟩ := hrel.sync.fresh (by omega)
      exact ⟨trivial, ⟨rfl, hrel.sync.count.trans hzero, hrel.sync.waiting.trans hwait, hdone,
        .inr ⟨rfl, hf⟩⟩, hrel.start_handler hstage f⟩
    | faulter =>
      obtain ⟨hstage, hf⟩ := hguar
      obtain ⟨-, hzero, hwait, hdone, -⟩ := hrel.sync.fresh (by omega)
      exact ⟨trivial, ⟨rfl, hzero, hwait, hdone, .inl ⟨rfl, hf⟩⟩, hrel.start_faulter hstage f⟩

/-- When the driver has received both done messages, no fault is unanswered. -/
theorem not_waiting_of_stage (hstage : 4 ≤ ((protocol e).view s.log .driver).stage) :
    ((protocol e).view s.log .faulter).waiting = false := by
  refine ((hinv.own .faulter).finished ?_).1
  have hdones := hinv.rel.sync.dones (by omega)
  cases hd : ((protocol e).view s.log .faulter).done with
  | true => rfl
  | false =>
    rw [hd, Bool.toNat_false] at hdones
    have := Bool.toNat_le ((protocol e).view s.log .handler).done
    omega

theorem rel_suspend (hpq : p ≠ q) (hguar : guar e p ((protocol e).view s.log p) (.suspend q)) :
    rely e p ((protocol e).view s.log p) (.suspend q) () ∧
      rest q (step q ((protocol e).view s.log q) .stopped) ∧
      Rel e (s.kernel.cancel q)
        (next e (next e ((protocol e).view s.log) p (.did (.suspend q) ())) q .stopped) := by
  cases p with
  | faulter | handler => exact hguar.elim
  | driver =>
    have hstage : 4 ≤ ((protocol e).view s.log .driver).stage := by
      cases q with
      | driver => exact absurd rfl hpq
      | faulter => exact (show _ = 4 from hguar).ge
      | handler => exact Nat.le_of_succ_le (show _ = 5 from hguar).ge
    have hrel := hinv.rel.suspend hstage (not_waiting_of_stage hinv hstage) hpq.symm
    cases q with
    | driver => exact absurd rfl hpq
    | faulter | handler => exact ⟨trivial, .inl rfl, hrel⟩

end Sound

theorem sound {e : Setup b w} {F : Fn → Prog (sig b w)}
    (hlabel : ∀ p f v, atEntry e p f v → ((protocol e).spec p).Safe (F f) v) :
    (protocol e).Sound F fun _ _ => True where
  label := hlabel
  own := Own.step
  own_started {p g f} h := by
    cases p <;> exact h.quiet rfl rfl (fun _ => rfl) nofun rfl rfl rfl fun _ _ => rfl
  own_stopped {p g} h := by
    cases p <;> exact h.quiet rfl rfl (fun _ => rfl) nofun rfl rfl rfl fun _ _ => rfl
  effect hinv _ := rel_effect hinv
  exchange hinv _ := rel_exchange hinv
  start hinv _ := rel_start hinv
  suspend hinv _ := rel_suspend hinv

/-! ### Progress -/

section Progress

variable {e : Setup b w} {F : Fn → Prog (sig b w)} {s : State (sig b w)}

/-- Both parties have sent their done message. -/
def BothDone (e : Setup b w) (s : State (sig b w)) : Prop :=
  ((protocol e).view s.log .faulter).done = true ∧ ((protocol e).view s.log .handler).done = true

theorem bothDone_of_stage (hinv : (protocol e).Inv s)
    (hstage : 4 ≤ ((protocol e).view s.log .driver).stage) : BothDone e s := by
  have hdones := hinv.rel.sync.dones (by omega)
  unfold BothDone
  cases hf : ((protocol e).view s.log .faulter).done <;>
    cases hh : ((protocol e).view s.log .handler).done <;>
    simp only [hf, hh, Bool.toNat_false, Bool.toNat_true] at hdones <;>
    first | exact ⟨rfl, rfl⟩ | omega

/-- Before both done messages the driver can take a step or waits for one. -/
theorem driver_progress (hinv : (protocol e).Inv s) (hdone : ¬BothDone e s) :
    CanStep F s ∨ (∃ k, s.thread .driver = .op (.recv .doneEp) k) ∧
      ((protocol e).view s.log .faulter).active = true ∧
      ((protocol e).view s.log .handler).active = true := by
  have hsafe := hinv.safe .driver
  cases hd : s.thread .driver with
  | halt =>
    rw [hd] at hsafe
    have hstage : ((protocol e).view s.log .driver).stage = 6 := hsafe
    exact absurd (bothDone_of_stage hinv (by omega)) hdone
  | jump f => exact .inl (.jump hd)
  | op r k =>
    have hguar := hinv.guar hd
    cases r with
    | start q f =>
      cases q with
      | driver => exact hguar.elim
      | faulter | handler => exact .inl (.start hd nofun)
    | suspend q =>
      cases q with
      | driver => exact hguar.elim
      | faulter | handler => exact .inl (.suspend hd nofun)
    | recv c =>
      cases c with
      | faultEp => exact hguar.elim
      | doneEp =>
        have hstage : ((protocol e).view s.log .driver).stage = 2 ∨
          ((protocol e).view s.log .driver).stage = 3 := hguar
        exact .inr ⟨⟨k, rfl⟩, hinv.rel.sync.faulter_active (by omega) (by omega),
          hinv.rel.sync.handler_active (by omega) (by omega)⟩
    | _ => exact hguar.elim

/-- The faulter can take a step, waits for a reply, raises a fault, or is done. -/
theorem faulter_progress (hinv : (protocol e).Inv s)
    (hdriver : ∃ k, s.thread .driver = .op (.recv .doneEp) k)
    (hactive : ((protocol e).view s.log .faulter).active = true) :
    let v := (protocol e).view s.log .faulter
    CanStep F s ∨ (∃ k, s.thread .faulter = .op .awaitReply k) ∧ v.waiting = true ∨
      (∃ m k, s.thread .faulter = .op (.sendCall .faultEp m) k) ∧ v.waiting = false ∧
        v.count < e.total ∨ v.done = true := by
  intro v
  obtain ⟨kd, hd⟩ := hdriver
  have hsafe := hinv.safe .faulter
  cases hf : s.thread .faulter with
  | halt =>
    rw [hf] at hsafe
    obtain hinactive | hdone := hsafe
    · exact absurd hactive (by simp [hinactive])
    · exact .inr (.inr (.inr hdone))
  | jump f => exact .inl (.jump hf)
  | op r k =>
    have hguar := hinv.guar hf
    cases r with
    | clock => exact .inl (.act hf (.clock (0 : Ccnt w)))
    | load x => exact .inl (.act hf (.load x))
    | store x t => exact .inl (.act hf (.store x t))
    | awaitReply => exact .inr (.inl ⟨⟨k, rfl⟩, hguar.2⟩)
    | send c m =>
      cases c with
      | faultEp => exact hguar.elim
      | doneEp => exact .inl (.exchange hf hd (.send _ m) nofun)
    | sendCall c m =>
      cases c with
      | faultEp => exact .inr (.inr (.inl ⟨⟨m, k, rfl⟩, hguar.1.handled rfl, hguar.2.1⟩))
      | doneEp => exact hguar.elim
    | _ => exact hguar.elim

/-- The handler can take a step, replies, receives, or is done. -/
theorem handler_progress (hinv : (protocol e).Inv s)
    (hdriver : ∃ k, s.thread .driver = .op (.recv .doneEp) k)
    (hactive : ((protocol e).view s.log .handler).active = true) :
    let v := (protocol e).view s.log .handler
    CanStep F s ∨ (∃ m k, s.thread .handler = .op (.reply m) k) ∧ v.waiting = true ∨
      (∃ k, s.thread .handler = .op (.recv .faultEp) k) ∧ v.waiting = false ∧
        (v.count < e.total ∨ v.done = true) ∨ v.done = true := by
  intro v
  obtain ⟨kd, hd⟩ := hdriver
  have hsafe := hinv.safe .handler
  cases hh : s.thread .handler with
  | halt =>
    rw [hh] at hsafe
    obtain hinactive | hdone := hsafe
    · exact absurd hactive (by simp [hinactive])
    · exact .inr (.inr (.inr hdone))
  | jump f => exact .inl (.jump hh)
  | op r k =>
    have hguar := hinv.guar hh
    cases r with
    | clock => exact .inl (.act hh (.clock (0 : Ccnt w)))
    | load x => exact .inl (.act hh (.load x))
    | store x t => exact .inl (.act hh (.store x t))
    | reply m => exact .inr (.inl ⟨⟨m, k, rfl⟩, hguar.2.1⟩)
    | send c m =>
      cases c with
      | faultEp => exact hguar.elim
      | doneEp => exact .inl (.exchange hh hd (.send _ m) nofun)
    | recv c =>
      cases c with
      | faultEp => exact .inr (.inr (.inl ⟨⟨k, rfl⟩, hguar.2⟩))
      | doneEp => exact hguar.elim
    | _ => exact hguar.elim

/-- Some step is possible until both parties have sent their done message. -/
theorem progress (hinv : (protocol e).Inv s) (hdone : ¬BothDone e s) : CanStep F s := by
  have hsync := hinv.rel.sync
  obtain hstep | ⟨hd, hfaulter, hhandler⟩ := driver_progress (F := F) hinv hdone
  · exact hstep
  obtain hstep | hh := handler_progress (F := F) hinv hd hhandler
  · exact hstep
  obtain hstep | ⟨⟨k, hk⟩, hwait⟩ | ⟨⟨m, k, hk⟩, hwait, hlt⟩ | hfdone :=
    faulter_progress (F := F) hinv hd hfaulter
  · exact hstep
  · -- The faulter waits, so the handler is the one to reply.
    obtain ⟨⟨m, ks, hreply⟩, -⟩ | ⟨-, hno, -⟩ | hhdone := hh
    · have hcaller := hsync.caller
      rw [if_pos hwait] at hcaller
      exact .exchange hreply hk (.reply m hcaller) nofun
    · exact absurd (hno.symm.trans (hsync.waiting.trans hwait)) nofun
    · have hno := ((hinv.own .handler).finished hhdone).1
      exact absurd (hno.symm.trans (hsync.waiting.trans hwait)) nofun
  · -- The handler has not received all faults, so it receives.
    obtain ⟨-, hyes⟩ | ⟨⟨ks, hrecv⟩, -⟩ | hhdone := hh
    · exact absurd (hwait.symm.trans (hsync.waiting.symm.trans hyes)) nofun
    · exact .exchange hk hrecv (.call _ m) nofun
    · have hcount := ((hinv.own .handler).finished hhdone).2.1
      exact absurd (hsync.count.symm.trans hcount) hlt.ne
  · obtain ⟨hno, hcount, -⟩ := (hinv.own .faulter).finished hfdone
    obtain ⟨-, hyes⟩ | ⟨-, -, hlt | hhdone⟩ | hhdone := hh
    · exact absurd (hno.symm.trans (hsync.waiting.symm.trans hyes)) nofun
    · exact absurd (hsync.count.trans hcount) hlt.ne
    all_goals exact absurd ⟨hfdone, hhdone⟩ hdone

end Progress

end Sel4bench.Fault
