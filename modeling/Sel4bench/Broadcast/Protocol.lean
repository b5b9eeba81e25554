import Sel4bench.Broadcast.Threads
import Sel4bench.Lib.Memory
import Sel4bench.Lib.Protocol
import Sel4bench.Lib.Trace

/-!
# The monitor of the broadcast benchmark

A thread goes through the phases of its function (`Sel4bench.Broadcast.Phase`), and the driver
through the stages of a run: it resets `shared`, starts the threads and collects their done
messages. All threads rest when the driver resets `shared`. In a run, `shared` is set exactly from
the moment when the broadcaster has written it, and the broadcaster holds the lock from then until
all sleepers are woken; so a waiter that goes to sleep does so before the broadcast, and one that
leaves its loop finds the time of the broadcaster of the same run in `start`
(`Sel4bench.Broadcast.Related`).

## Main definitions

* `Sel4bench.Broadcast.Phase`, `Sel4bench.Broadcast.Stage`, `Sel4bench.Broadcast.Progress`.
* `Sel4bench.Broadcast.Waited`, `Sel4bench.Broadcast.Woken` — what the histories of the threads
  have to do with their progress.
* `Sel4bench.Broadcast.Related`, `Sel4bench.Broadcast.Rel`, `Sel4bench.Broadcast.protocol`.

## Main results

* `Sel4bench.Broadcast.sound` — threads that follow the protocol keep it.
* `Sel4bench.Broadcast.progress` — no thread is stuck.
-/

namespace Sel4bench.Broadcast

open Machine Trace
open Sync (Endpoint Lock)
open Support (Msg)

variable {W w : ℕ}

/-! ### Histories -/

/-- The party that writes a variable. -/
def writer : CcntVar W → Party W
  | .start | .broadcastBroadcastTime _ => .broadcaster
  | .broadcastWaitTime i _ => .waiter i

/-- The result that a thread writes in a run. -/
def resultOf : Party W → ℕ → CcntVar W
  | .waiter i, run => .broadcastWaitTime i run
  | _, run => .broadcastBroadcastTime run

/-- The thread is started in the event. -/
def isStarted : Event (sig W w) → Bool
  | .started _ => true
  | _ => false

/-- The thread writes `shared` in the event. -/
def isSet : Event (sig W w) → Bool
  | .did (.store .shared _) _ => true
  | _ => false

/-- The thread finds `shared` set, so that it leaves its loop. -/
def isLeft : Event (sig W w) → Bool
  | .did (.load .shared) n => decide ((n : ℤ) ≠ 0)
  | _ => false

/-- The thread stores a counter value in the event. -/
def isRecorded : Event (sig W w) → Bool
  | .did (.store (.ccnt _) _) _ => true
  | _ => false

/-- The thread finds no sleeper any more, so that its broadcast is complete. -/
def isWoken : Event (sig W w) → Bool
  | .did (.wake _) none => true
  | _ => false

/-- The thread sends its done message in the event. -/
def isDone : Event (sig W w) → Bool
  | .did (.send _ _) _ => true
  | _ => false

/-- The value of `start` that is read in the event. -/
def startOf : Event (sig W w) → Option (Ccnt w) := loadOf (σ := sig W w) (.ccnt .start)

/-- The values of `start` that were read. -/
def loads (h : List (Event (sig W w))) : List (Ccnt w) := h.filterMap startOf

/-- The times that were written to `start`. -/
def stamps (h : List (Event (sig W w))) : List (Ccnt w) :=
  h.filterMap (storeOf (σ := sig W w) (.ccnt .start))

/-- The value that was last stored in a variable. -/
def lastCcnt (h : List (Event (sig W w))) (x : CcntVar W) : Option (Ccnt w) :=
  lastStore (σ := sig W w) (.ccnt x) h

/-! ### Progress -/

/-- The phases of a thread in a run. A waiter goes through `entry`, `locked`, `sawZero`, `asleep`,
`sawSet` and from `clocked` on, a broadcaster through `entry`, `locked`, `set`, `timed`, `waking`,
`woken` and from `clocked` on. A thread at rest has sent its done message or was never started. -/
inductive Phase (w : ℕ)
  | rest
  | entry
  | locked
  | sawZero
  | asleep
  | sawSet
  | set
  | timed (t : Ccnt w)
  | waking
  | woken
  | clocked (t : Ccnt w)
  | loaded (t s : Ccnt w)
  | stored
  | released

namespace Phase

/-- The thread holds the lock. -/
def holding : Phase w → Bool
  | rest | entry | asleep | released => false
  | _ => true

def resting : Phase w → Bool
  | rest => true
  | _ => false

/-- The broadcaster has not written `shared` yet. -/
def unset : Phase w → Bool
  | entry | locked => true
  | _ => false

/-- The broadcaster has not written `start` yet. -/
def unstamped : Phase w → Bool
  | entry | locked | set | timed _ => true
  | _ => false

/-- The broadcast is not complete yet. -/
def unwoken : Phase w → Bool
  | entry | locked | set | timed _ | waking => true
  | _ => false

/-- The waiter is in its loop. -/
def waiting : Phase w → Bool
  | entry | locked | sawZero | asleep => true
  | _ => false

/-- The waiter has not read the time after its loop yet. -/
def unclocked : Phase w → Bool
  | entry | locked | sawZero | asleep | sawSet => true
  | _ => false

/-- The waiter has not read `start` yet. -/
def unloaded : Phase w → Bool
  | entry | locked | sawZero | asleep | sawSet | clocked _ => true
  | _ => false

/-- The waiter has not stored its result yet. -/
def unrecorded : Phase w → Bool
  | entry | locked | sawZero | asleep | sawSet | clocked _ | loaded _ _ => true
  | _ => false

theorem resting_iff {ph : Phase w} : ph.resting = true ↔ ph = rest := by
  cases ph <;> simp [resting]

end Phase

/-- The stages of the driver in a run: before it resets `shared`, after `k` threads have been
started, and after `m` done messages. -/
inductive Stage
  | reset
  | starting (k : ℕ)
  | collecting (m : ℕ)

/-- The place of a thread in the order in which they are started. -/
def position : Party W → ℕ
  | .waiter i => i
  | _ => W

/-- The thread has been started in the current run. -/
def Stage.started : Stage → Party W → Bool
  | .starting k, .waiter i => decide (i.val < k)
  | .collecting _, .waiter _ | .collecting _, .broadcaster => true
  | _, _ => false

/-- A run is in progress. -/
def Stage.running : Stage → Bool
  | .reset => false
  | _ => true

/-- How far a party is. Of the driver, `runs` is the number of completed runs, and of a thread the
number of runs for which it has been started. -/
structure Progress (w : ℕ) where
  phase : Phase w := .rest
  runs : ℕ := 0
  stage : Stage := .reset

/-- What a party knows: how far it is, and its history. -/
structure View (W w : ℕ) extends Progress w where
  hist : List (Event (sig W w)) := []

/-- The phase of a thread after a request. -/
def advanceThread (ph : Phase w) : (r : Req (sig W w)) → r.Resp → Phase w
  | .acquire _, _ => .locked
  | .load .shared, n => if (n : ℤ) = 0 then .sawZero else .sawSet
  | .load (.ccnt _), s => match ph with
    | .clocked t => .loaded t s
    | _ => ph
  | .store .shared _, _ => .set
  | .store (.ccnt _) _, _ => match ph with
    | .timed _ => .waking
    | _ => .stored
  | .sleep _ _, _ => .asleep
  | .asleep _, _ => .entry
  | .clock, t => match ph with
    | .set => .timed t
    | _ => .clocked t
  | .wake _, none => .woken
  | .release _, _ => .released
  | .send _ _, _ => .rest
  | _, _ => ph

/-- The progress of the driver by a request. -/
def advanceDriver (W : ℕ) (v : Progress w) : Req (sig W w) → Progress w
  | .store _ _ => { v with stage := .starting 0 }
  | .start _ _ => match v.stage with
    | .starting k => { v with stage := if k < W then .starting (k + 1) else .collecting 0 }
    | _ => v
  | .recv _ => match v.stage with
    | .collecting m =>
      if m < W then { v with stage := .collecting (m + 1) }
      else { v with stage := .reset, runs := v.runs + 1 }
    | _ => v
  | _ => v

/-- The progress by an event. -/
def advance : Party W → Progress w → Event (sig W w) → Progress w
  | .driver, v, .did r _ => advanceDriver W v r
  | .driver, v, _ => v
  | _, v, .did r a => { v with phase := advanceThread v.phase r a }
  | _, v, .started _ => { v with phase := .entry, runs := v.runs + 1 }
  | _, v, .stopped => v

/-- The view after an event. -/
def step (p : Party W) (v : View W w) (ev : Event (sig W w)) : View W w where
  toProgress := advance p v.toProgress ev
  hist := v.hist ++ [ev]

@[simp] theorem step_progress (p : Party W) (v : View W w) (ev : Event (sig W w)) :
    (step p v ev).toProgress = advance p v.toProgress ev := rfl

/-! ### The protocol -/

/-- The requests that a party may make. -/
inductive Guar (runs : ℕ) (v : Progress w) : Party W → Req (sig W w) → Prop
  | acquire {p : Party W} (hp : p ≠ .driver) (h : v.phase = .entry) : Guar runs v p (.acquire .lock)
  | loadShared {i : Fin W} (h : v.phase = .locked) : Guar runs v (.waiter i) (.load .shared)
  | sleep {i : Fin W} (h : v.phase = .sawZero) : Guar runs v (.waiter i) (.sleep .lock .cv)
  | asleep {i : Fin W} (h : v.phase = .asleep) : Guar runs v (.waiter i) (.asleep .cv)
  | clockWaiter {i : Fin W} (h : v.phase = .sawSet) : Guar runs v (.waiter i) .clock
  | storeShared (h : v.phase = .locked) : Guar runs v .broadcaster (.store .shared (W : ℤ))
  | clockSet (h : v.phase = .set) : Guar runs v .broadcaster .clock
  | storeStart {t : Ccnt w} (h : v.phase = .timed t) :
    Guar runs v .broadcaster (.store (.ccnt .start) t)
  | wake (h : v.phase = .waking) : Guar runs v .broadcaster (.wake .cv)
  | clockWoken (h : v.phase = .woken) : Guar runs v .broadcaster .clock
  | loadStart {p : Party W} (hp : p ≠ .driver) {t : Ccnt w} (h : v.phase = .clocked t) :
    Guar runs v p (.load (.ccnt .start))
  | storeResult {p : Party W} (hp : p ≠ .driver) {t s : Ccnt w} {run : ℕ}
    (h : v.phase = .loaded t s) (hrun : v.runs = run + 1) :
    Guar runs v p (.store (.ccnt (resultOf p run)) (t - s))
  | release {p : Party W} (hp : p ≠ .driver) (h : v.phase = .stored) :
    Guar runs v p (.release .lock)
  | send {p : Party W} (hp : p ≠ .driver) (h : v.phase = .released) :
    Guar runs v p (.send .doneEp .empty)
  | recv {p : Party W} (hp : p ≠ .driver) (h : v.phase = .rest) : Guar runs v p (.recv .blockEp)
  | reset (h : v.stage = .reset) (hlt : v.runs < runs) :
    Guar runs v .driver (.store .shared (0 : ℤ))
  | start {p : Party W} (hp : p ≠ .driver) (h : v.stage = .starting (position p)) :
    Guar runs v .driver (.start p (entry v.runs p))
  | collect {m : ℕ} (h : v.stage = .collecting m) : Guar runs v .driver (.recv .doneEp)
  | suspend {p : Party W} (hp : p ≠ .driver) (h : v.stage = .reset) (hruns : v.runs = runs) :
    Guar runs v .driver (.suspend p)

/-- The answers that a party counts on: only done messages are received, and nobody sends on
`block_ep`. -/
def rely : (r : Req (sig W w)) → r.Resp → Prop
  | .recv .doneEp, a => a.2 = .empty
  | .recv .blockEp, _ => False
  | _, _ => True

/-- The views in which a party may be at rest. -/
def rest (runs : ℕ) : Party W → Progress w → Prop
  | .driver, v => v.stage = .reset ∧ v.runs = runs
  | _, v => v.phase = .rest

/-- The phase of a thread at a place in its code. -/
def phaseAt : Party W → Point → Phase w
  | _, .entry => .entry
  | .waiter _, .loop => .locked
  | _, .loop => .waking

/-- The views at the entry points and the loop heads. -/
def atLabel (p : Party W) (ℓ : Label W) (v : Progress w) : Prop :=
  p ≠ .driver ∧ v.phase = phaseAt p ℓ.point ∧
    ∃ run, v.runs = run + 1 ∧ ℓ.func = (entry run p).func

/-- A waiter has left its loop, read the time and `start`, and stored a result once in every run. -/
structure Counted (v : View W w) : Prop where
  numStarts : v.hist.countP isStarted = v.runs
  numLefts : v.hist.countP isLeft + v.phase.waiting.toNat = v.runs
  numClocks : (clocks v.hist).length + v.phase.unclocked.toNat = v.runs
  numLoads : (loads v.hist).length + v.phase.unloaded.toNat = v.runs
  numRecords : v.hist.countP isRecorded + v.phase.unrecorded.toNat = v.runs

/-- The result of a run is the difference of the values that the waiter has read in it. -/
def Recorded (i : Fin W) (k : ℕ) (h : List (Event (sig W w))) : Prop :=
  ∃ stop start, (clocks h)[k]? = some stop ∧ (loads h)[k]? = some start ∧
    lastCcnt h (.broadcastWaitTime i k) = some (stop - start)

/-- A waiter keeps the values that it has read, and the results of the runs. -/
structure Waited (i : Fin W) (v : View W w) : Prop extends Counted v where
  clocked : ∀ t, v.phase = .clocked t → (clocks v.hist).getLast? = some t
  loaded : ∀ t s, v.phase = .loaded t s →
    (clocks v.hist).getLast? = some t ∧ (loads v.hist).getLast? = some s
  recorded : ∀ k, k + v.phase.unrecorded.toNat < v.runs → Recorded i k v.hist

/-- The broadcaster has written `shared` and `start`, completed a broadcast and sent its done
message once in every run. -/
structure Woken (v : View W w) : Prop where
  numStarts : v.hist.countP isStarted = v.runs
  numSets : v.hist.countP isSet + v.phase.unset.toNat = v.runs
  numStamps : (stamps v.hist).length + v.phase.unstamped.toNat = v.runs
  numWakes : v.hist.countP isWoken + v.phase.unwoken.toNat = v.runs
  numDones : v.hist.countP isDone + (!v.phase.resting).toNat = v.runs

/-- The driver has reset `shared` once in every run. -/
structure Driven (v : View W w) : Prop where
  idle : v.phase = .rest
  numResets : v.hist.countP isSet = v.runs + v.stage.running.toNat

/-- What holds of the view of a party by itself. -/
def Own : Party W → View W w → Prop
  | .waiter i, v => Waited i v
  | .broadcaster, v => Woken v
  | .driver, v => Driven v

/-- The broadcaster of the current run is past the phases `f`. -/
def Past (g : Party W → Progress w) (f : Phase w → Bool) : Prop :=
  (g .driver).stage.started (.broadcaster : Party W) = true ∧ f (g .broadcaster).phase = false

/-- The number of threads at rest. -/
def finished (g : Party W → Progress w) : ℕ :=
  (Finset.univ.filter fun i => (g (.waiter i)).phase.resting = true).card +
    (g .broadcaster).phase.resting.toNat

/-- How the progress of the parties, the lock and `shared` are related. -/
structure Related (κ : Kernel (sig W w)) (g : Party W → Progress w) : Prop where
  lock : ∀ p, (g p).phase.holding = true ↔ κ.owner .lock = some p
  runs : ∀ p, p ≠ .driver → (g p).runs = (g .driver).runs + ((g .driver).stage.started p).toNat
  resting : ∀ p, p ≠ .driver → (g .driver).stage.started p = false → (g p).phase = .rest
  starting : ∀ k, (g .driver).stage = .starting k → k ≤ W ∧
    ∀ p, (g .driver).stage.started p = true → (g p).phase ≠ .rest
  collecting : ∀ m, (g .driver).stage = .collecting m → m ≤ W ∧ finished g = m
  shared : ∀ _ : Fin W, (g .driver).stage ≠ .reset → (κ.mem .shared = (0 : ℤ) ↔ ¬Past g Phase.unset)
  zero : ∀ i, (g (.waiter i)).phase = .sawZero → ¬Past g Phase.unset
  asleep : ∀ i, (g (.waiter i)).phase = .asleep → ¬Past g Phase.unwoken
  left : ∀ i, (g .driver).stage.started (.waiter i : Party W) = true →
    (g (.waiter i)).phase.waiting = false → Past g Phase.unstamped

/-- How the views of the parties are related. That a thread has done its work in every run depends
on the driver, which starts it again only when it is at rest. -/
structure Rel (mem : ∀ x, Val W w x) (κ : Kernel (sig W w)) (g : Party W → View W w) : Prop where
  own : ∀ p, Own p (g p)
  related : Related κ fun p => (g p).toProgress
  mem : ∀ x, κ.mem (.ccnt x) = stored (σ := sig W w) mem (.ccnt x) (g (writer x)).hist
  read : ∀ i, loads (g (.waiter i)).hist <+: stamps (g .broadcaster).hist

/-- The protocol of the threads. -/
def protocol (runs : ℕ) (mem : ∀ x, Val W w x) : Protocol (sig W w) (View W w) where
  spec p :=
    { init := {}
      step := step p
      guar := fun v => Guar runs v.toProgress p
      rely := fun _ => rely
      rest := fun v => rest runs p v.toProgress
      atLabel := fun ℓ v => atLabel p ℓ v.toProgress }
  own := fun _ _ => True
  rel := Rel mem

/-! ### Advancing -/

section Advance

variable {p q : Party W} {v : Progress w}

theorem advance_did (hp : p ≠ .driver) (r : Req (sig W w)) (a : r.Resp) :
    advance p v (.did r a) = { v with phase := advanceThread v.phase r a } := by
  cases p with
  | driver => exact absurd rfl hp
  | waiter _ | broadcaster => rfl

theorem advance_started (hp : p ≠ .driver) (ℓ : Label W) :
    advance p v (.started ℓ : Event (sig W w)) =
      { v with phase := .entry, runs := v.runs + 1 } := by
  cases p with
  | driver => exact absurd rfl hp
  | waiter _ | broadcaster => rfl

theorem advance_stopped (p : Party W) : advance p v (.stopped : Event (sig W w)) = v := by
  cases p <;> rfl

theorem advance_start {k : ℕ} (hstage : v.stage = .starting k) (ℓ : Label W) (a : Unit) :
    advance .driver v (.did (.start q ℓ) a : Event (sig W w)) =
      { v with stage := if k < W then .starting (k + 1) else .collecting 0 } := by
  simp only [advance, advanceDriver, hstage]

theorem advance_collect {m : ℕ} (hstage : v.stage = .collecting m) (e : Endpoint) (a : ℕ × Msg) :
    advance .driver v (.did (.recv e) a : Event (sig W w)) =
      if m < W then { v with stage := .collecting (m + 1) }
        else { v with stage := .reset, runs := v.runs + 1 } := by
  simp only [advance, advanceDriver, hstage]

end Advance

/-! ### What a party knows by itself -/

section Append

variable (h : List (Event (sig W w))) (ev : Event (sig W w))

theorem loads_append : loads (h ++ [ev]) = loads h ++ (startOf ev).toList :=
  filterMap_concat startOf h ev

theorem stamps_append : stamps (h ++ [ev]) =
    stamps h ++ (storeOf (σ := sig W w) (.ccnt .start) ev).toList :=
  filterMap_concat _ h ev

end Append

section Own

variable {i : Fin W} {v : View W w} {ev : Event (sig W w)}

/-- An event of a waiter that changes its phase from `v.phase` to `v'.phase`. -/
theorem Counted.append {v' : Progress w} (h : Counted v)
    (hstarts : v'.runs = v.runs + (isStarted ev).toNat)
    (hlefts : (isLeft ev).toNat + v'.phase.waiting.toNat =
      v.phase.waiting.toNat + (isStarted ev).toNat)
    (hclocks : (clockOf ev).toList.length + v'.phase.unclocked.toNat =
      v.phase.unclocked.toNat + (isStarted ev).toNat)
    (hloads : (startOf ev).toList.length + v'.phase.unloaded.toNat =
      v.phase.unloaded.toNat + (isStarted ev).toNat)
    (hrecords : (isRecorded ev).toNat + v'.phase.unrecorded.toNat =
      v.phase.unrecorded.toNat + (isStarted ev).toNat) :
    Counted ⟨v', v.hist ++ [ev]⟩ := by
  obtain ⟨h₁, h₂, h₃, h₄, h₅⟩ := h
  refine ⟨?_, ?_, ?_, ?_, ?_⟩
  · rw [countP_concat, h₁, hstarts]
  · rw [countP_concat, Nat.add_assoc, hlefts, ← Nat.add_assoc, h₂, hstarts]
  · rw [clocks_append, List.length_append, Nat.add_assoc, hclocks, ← Nat.add_assoc, h₃, hstarts]
  · rw [loads_append, List.length_append, Nat.add_assoc, hloads, ← Nat.add_assoc, h₄, hstarts]
  · rw [countP_concat, Nat.add_assoc, hrecords, ← Nat.add_assoc, h₅, hstarts]

/-- A result is kept by an event that does not overwrite it. -/
theorem Recorded.append {k : ℕ} {h : List (Event (sig W w))} (hk : Recorded i k h)
    (hev : storeOf (σ := sig W w) (.ccnt (.broadcastWaitTime i k)) ev = none) :
    Recorded i k (h ++ [ev]) := by
  obtain ⟨stop, start, hstop, hstart, hlast⟩ := hk
  refine ⟨stop, start, ?_, ?_, (lastStore_append hev h).trans hlast⟩
  · rw [clocks_append, List.getElem?_append_left (List.getElem?_eq_some_iff.mp hstop).1]
    exact hstop
  · rw [loads_append, List.getElem?_append_left (List.getElem?_eq_some_iff.mp hstart).1]
    exact hstart

/-- An event of a waiter that stores no result. -/
theorem Waited.append {v' : Progress w} (h : Waited i v)
    (hcounted : Counted ⟨v', v.hist ++ [ev]⟩)
    (hstore : ∀ x, storeOf (σ := sig W w) (.ccnt x) ev = none)
    (hruns : v'.runs + v.phase.unrecorded.toNat = v.runs + v'.phase.unrecorded.toNat)
    (hclocked : ∀ t, v'.phase = .clocked t → (clocks (v.hist ++ [ev])).getLast? = some t)
    (hloaded : ∀ t s, v'.phase = .loaded t s → (clocks (v.hist ++ [ev])).getLast? = some t ∧
      (loads (v.hist ++ [ev])).getLast? = some s) :
    Waited i ⟨v', v.hist ++ [ev]⟩ := by
  refine ⟨hcounted, hclocked, hloaded, fun k hk => (h.recorded k ?_).append (hstore _)⟩
  have hk : k + v'.phase.unrecorded.toNat < v'.runs := hk
  omega

theorem Waited.clock (h : Waited i v) (hv : v.phase = .sawSet) (t : Ccnt w) :
    Waited i (step (.waiter i) v (.did .clock t)) := by
  have hphase : advance (.waiter i) v.toProgress (.did .clock t : Event (sig W w)) =
      { v.toProgress with phase := .clocked t } := by
    simp only [advance, advanceThread, hv]
  rw [step, hphase]
  refine h.append ?_ (fun _ => rfl) (by rw [hv]; rfl) (fun t' ht => ?_) nofun
  · refine h.toCounted.append rfl ?_ ?_ ?_ ?_ <;> rw [hv] <;> rfl
  · obtain rfl : t = t' := Phase.clocked.inj ht
    rw [clocks_append]
    exact List.getLast?_concat

theorem Waited.load (h : Waited i v) {t : Ccnt w} (hv : v.phase = .clocked t) (s : Ccnt w) :
    Waited i (step (.waiter i) v (.did (.load (.ccnt .start)) s)) := by
  have hphase : advance (.waiter i) v.toProgress
      (.did (.load (.ccnt .start)) s : Event (sig W w)) =
        { v.toProgress with phase := .loaded t s } := by
    simp only [advance, advanceThread, hv]
  rw [step, hphase]
  refine h.append ?_ (fun _ => rfl) (by rw [hv]; rfl) nofun fun t' s' hts => ?_
  · refine h.toCounted.append rfl ?_ ?_ ?_ ?_ <;> rw [hv] <;> rfl
  · obtain ⟨rfl, rfl⟩ : t = t' ∧ s = s' := by simpa using hts
    rw [clocks_append, loads_append]
    exact ⟨(congrArg List.getLast? (List.append_nil _)).trans (h.clocked t hv),
      List.getLast?_concat⟩

/-- A waiter records the difference of the time and `start` of the run. -/
theorem Waited.store (h : Waited i v) {t s : Ccnt w} {run : ℕ} (hv : v.phase = .loaded t s)
    (hrun : v.runs = run + 1) : Waited i (step (.waiter i) v
      (.did (.store (.ccnt (.broadcastWaitTime i run)) (t - s)) ())) := by
  have hphase : advance (.waiter i) v.toProgress
      (.did (.store (.ccnt (.broadcastWaitTime i run)) (t - s)) () : Event (sig W w)) =
        { v.toProgress with phase := .stored } := by
    simp only [advance, advanceThread, hv]
  rw [step, hphase]
  refine ⟨?_, nofun, nofun, fun k hk => ?_⟩
  · refine h.toCounted.append rfl ?_ ?_ ?_ ?_ <;> rw [hv] <;> rfl
  obtain ⟨hclast, hllast⟩ := h.loaded t s hv
  have hclocks := h.numClocks
  have hloads := h.numLoads
  rw [hv] at hclocks hloads
  by_cases hkr : k = run
  · subst hkr
    refine ⟨t, s, ?_, ?_, lastStore_append_store_self _ _ _ _⟩
    · rw [clocks_append]
      refine (congrArg (·[k]?) (List.append_nil _)).trans ?_
      rwa [List.getLast?_eq_getElem?, show (clocks v.hist).length = k + 1 from hclocks.trans hrun,
        Nat.add_sub_cancel] at hclast
    · rw [loads_append]
      refine (congrArg (·[k]?) (List.append_nil _)).trans ?_
      rwa [List.getLast?_eq_getElem?, show (loads v.hist).length = k + 1 from hloads.trans hrun,
        Nat.add_sub_cancel] at hllast
  · have hlt : k + v.phase.unrecorded.toNat < v.runs := by
      have hk : k < v.runs := hk
      rw [hv]
      change k + 1 < v.runs
      omega
    exact (h.recorded k hlt).append (storeOf_store_of_ne (by simp [Ne.symm hkr]) _ _)

/-- An event of the broadcaster that changes its phase from `v.phase` to `v'.phase`. -/
theorem Woken.append {v' : Progress w} (h : Woken v)
    (hstarts : v'.runs = v.runs + (isStarted ev).toNat)
    (hsets : (isSet ev).toNat + v'.phase.unset.toNat =
      v.phase.unset.toNat + (isStarted ev).toNat)
    (hstamps : (storeOf (σ := sig W w) (.ccnt .start) ev).toList.length +
      v'.phase.unstamped.toNat = v.phase.unstamped.toNat + (isStarted ev).toNat)
    (hwakes : (isWoken ev).toNat + v'.phase.unwoken.toNat =
      v.phase.unwoken.toNat + (isStarted ev).toNat)
    (hdones : (isDone ev).toNat + (!v'.phase.resting).toNat =
      (!v.phase.resting).toNat + (isStarted ev).toNat) :
    Woken ⟨v', v.hist ++ [ev]⟩ := by
  obtain ⟨h₁, h₂, h₃, h₄, h₅⟩ := h
  refine ⟨?_, ?_, ?_, ?_, ?_⟩
  · rw [countP_concat, h₁, hstarts]
  · rw [countP_concat, Nat.add_assoc, hsets, ← Nat.add_assoc, h₂, hstarts]
  · rw [stamps_append, List.length_append, Nat.add_assoc, hstamps, ← Nat.add_assoc, h₃, hstarts]
  · rw [countP_concat, Nat.add_assoc, hwakes, ← Nat.add_assoc, h₄, hstarts]
  · rw [countP_concat, Nat.add_assoc, hdones, ← Nat.add_assoc, h₅, hstarts]

/-- The requests of a waiter are in the order of its function. -/
theorem Waited.did {runs : ℕ} {r : Req (sig W w)} {a : r.Resp} (h : Waited i v)
    (hguar : Guar runs v.toProgress (.waiter i) r) (hrely : rely r a) :
    Waited i (step (.waiter i) v (.did r a)) := by
  cases hguar with
  | acquire _ hv | release _ hv | send _ hv | sleep hv | asleep hv =>
    refine h.append (h.toCounted.append rfl ?_ ?_ ?_ ?_) (fun _ => rfl) ?_ nofun nofun <;>
      rw [hv] <;> rfl
  | loadShared hv =>
    by_cases ha : (a : ℤ) = 0
    · refine h.append (h.toCounted.append rfl ?_ ?_ ?_ ?_) (fun _ => rfl) ?_ ?_ ?_
      all_goals simp [advance, advanceThread, ha, hv, Phase.unclocked, Phase.unloaded,
        Phase.unrecorded, Phase.waiting, isLeft, isStarted, isRecorded, clockOf, startOf, loadOf]
    · refine h.append (h.toCounted.append rfl ?_ ?_ ?_ ?_) (fun _ => rfl) ?_ ?_ ?_
      all_goals simp [advance, advanceThread, ha, hv, Phase.unclocked, Phase.unloaded,
        Phase.unrecorded, Phase.waiting, isLeft, isStarted, isRecorded, clockOf, startOf, loadOf]
  | clockWaiter hv => exact h.clock hv a
  | loadStart _ hv => exact h.load hv a
  | storeResult _ hv hrun => exact h.store hv hrun
  | recv _ hv => exact hrely.elim

/-- The requests of the broadcaster are in the order of its function. -/
theorem Woken.did {runs : ℕ} {r : Req (sig W w)} {a : r.Resp} (h : Woken v)
    (hguar : Guar runs v.toProgress .broadcaster r) (hrely : rely r a) :
    Woken (step .broadcaster v (.did r a)) := by
  cases hguar with
  | recv _ hv => exact hrely.elim
  | wake hv =>
    cases a with
    | none => refine h.append rfl ?_ ?_ ?_ ?_ <;> rw [hv] <;> rfl
    | some q => refine h.append rfl ?_ ?_ ?_ ?_ <;> exact Nat.zero_add _
  | acquire _ hv | storeShared hv | clockSet hv | storeStart hv | clockWoken hv | loadStart _ hv
    | storeResult _ hv _ | release _ hv | send _ hv =>
    refine h.append rfl ?_ ?_ ?_ ?_ <;> simp only [advance, advanceThread, hv] <;> rfl

/-- An event of the driver that changes its progress to `v'`. -/
theorem Driven.append {v' : Progress w} (h : Driven v) (hidle : v'.phase = v.phase)
    (hresets : v'.runs + v'.stage.running.toNat =
      v.runs + v.stage.running.toNat + (isSet ev).toNat) : Driven ⟨v', v.hist ++ [ev]⟩ := by
  refine ⟨hidle.trans h.idle, ?_⟩
  rw [countP_concat, h.numResets, hresets]

/-- The requests of the driver are in the order of the stages. -/
theorem Driven.did {runs : ℕ} {r : Req (sig W w)} {a : r.Resp} (h : Driven v)
    (hguar : Guar runs v.toProgress .driver r) : Driven (step .driver v (.did r a)) := by
  cases hguar with
  | reset hstage hlt =>
    refine h.append rfl ?_
    rw [hstage]
    rfl
  | start hp hstage =>
    rw [step, advance_start hstage]
    refine h.append rfl ?_
    rw [hstage]
    split <;> rfl
  | collect hstage =>
    rw [step, advance_collect hstage]
    split
    · refine h.append rfl ?_
      rw [hstage]
      rfl
    · refine h.append rfl ?_
      rw [hstage]
      rfl
  | suspend => exact h.append rfl rfl
  | acquire hp | loadStart hp | storeResult hp | release hp | send hp | recv hp =>
    exact absurd rfl hp

theorem Own.did {runs : ℕ} {p : Party W} {r : Req (sig W w)} {a : r.Resp} (h : Own p v)
    (hguar : Guar runs v.toProgress p r) (hrely : rely r a) : Own p (step p v (.did r a)) := by
  cases p with
  | waiter i => exact Waited.did h hguar hrely
  | broadcaster => exact Woken.did h hguar hrely
  | driver => exact Driven.did h hguar

end Own

/-! ### How the progress is related -/

section Related

variable {κ κ' : Kernel (sig W w)} {g : Party W → Progress w} {p : Party W} {v : Progress w}

theorem update_field {α : Type} (f : Progress w → α) (h : f v = f (g p)) (q : Party W) :
    f (Function.update g p v q) = f (g q) := by
  by_cases hq : q = p
  · subst hq
    rwa [Function.update_self]
  · rw [Function.update_of_ne hq]

/-- A thread that does not rest has been started in the current run. -/
theorem Related.started (h : Related κ g) (hp : p ≠ .driver) (hbusy : (g p).phase ≠ .rest) :
    (g .driver).stage.started p = true := by
  cases hs : (g .driver).stage.started p with
  | true => rfl
  | false => exact absurd (h.resting p hp hs) hbusy

/-- No run is in progress before `shared` is reset. -/
theorem Related.not_reset (h : Related κ g) (hp : p ≠ .driver) (hbusy : (g p).phase ≠ .rest) :
    (g .driver).stage ≠ .reset := by
  intro hstage
  have hs := h.started hp hbusy
  rw [hstage] at hs
  cases p <;> exact absurd hs Bool.false_ne_true

theorem Related.not_past_iff (h : Related κ g) (hbusy : (g .broadcaster).phase ≠ .rest)
    (f : Phase w → Bool) : ¬Past g f ↔ f (g .broadcaster).phase = true := by
  rw [Past, and_iff_right (h.started (by simp) hbusy), Bool.not_eq_false]

/-- The number of threads at rest, when a thread goes on in its function. -/
theorem finished_update (hbusy : (g p).phase ≠ .rest) (hrest : v.phase ≠ .rest) :
    finished (Function.update g p v) = finished g := by
  have hsame : v.phase.resting = (g p).phase.resting := by
    rw [Bool.eq_iff_iff, Phase.resting_iff, Phase.resting_iff]
    exact iff_of_false hrest hbusy
  have hfield := update_field (fun v => v.phase.resting) hsame
  simp only [finished, hfield]

/-- How the progress of the driver and that of the threads are related. -/
structure Scheduled (g : Party W → Progress w) : Prop where
  runs : ∀ p, p ≠ .driver → (g p).runs = (g .driver).runs + ((g .driver).stage.started p).toNat
  resting : ∀ p, p ≠ .driver → (g .driver).stage.started p = false → (g p).phase = .rest
  starting : ∀ k, (g .driver).stage = .starting k → k ≤ W ∧
    ∀ p, (g .driver).stage.started p = true → (g p).phase ≠ .rest
  collecting : ∀ m, (g .driver).stage = .collecting m → m ≤ W ∧ finished g = m

theorem Related.scheduled (h : Related κ g) : Scheduled g :=
  ⟨h.runs, h.resting, h.starting, h.collecting⟩

theorem Scheduled.update (h : Scheduled g) (hp : p ≠ .driver) (hbusy : (g p).phase ≠ .rest)
    (hrest : v.phase ≠ .rest) (hruns : v.runs = (g p).runs) :
    Scheduled (Function.update g p v) := by
  have hdriver : Function.update g p v .driver = g .driver := Function.update_of_ne hp.symm _ _
  refine ⟨fun q hq => ?_, fun q hq hs => ?_, fun k hk => ?_, fun m hm => ?_⟩
  · rw [update_field Progress.runs hruns, hdriver]
    exact h.runs q hq
  · rw [hdriver] at hs
    have hqp : q ≠ p := fun heq => hbusy (h.resting p hp (heq ▸ hs))
    rw [Function.update_of_ne hqp]
    exact h.resting q hq hs
  · rw [hdriver] at hk ⊢
    obtain ⟨hle, hall⟩ := h.starting k hk
    refine ⟨hle, fun q hs => ?_⟩
    by_cases hq : q = p
    · rwa [hq, Function.update_self]
    · rw [Function.update_of_ne hq]
      exact hall q hs
  · rw [hdriver] at hm
    rw [finished_update hbusy hrest]
    exact h.collecting m hm

theorem Past.mono {f f' : Phase w → Bool} (h : Past g f)
    (hf : ∀ ph, f' ph = true → f ph = true) : Past g f' := by
  refine ⟨h.1, Bool.eq_false_iff.mpr fun hph => ?_⟩
  exact absurd (h.2.symm.trans (hf _ hph)) Bool.false_ne_true

theorem Related.waiter {i : Fin W} {ph : Phase w} (h : Related κ g)
    (hphase : (g (.waiter i)).phase = ph) (hbusy : ph ≠ .rest) (hrest : v.phase ≠ .rest)
    (hruns : v.runs = (g (.waiter i)).runs)
    (hlock : ∀ q, (Function.update g (.waiter i) v q).phase.holding = true ↔
      κ'.owner .lock = some q)
    (hmem : κ'.mem .shared = κ.mem .shared) (hzero : v.phase = .sawZero → ¬Past g Phase.unset)
    (hasleep : v.phase = .asleep → ¬Past g Phase.unwoken)
    (hleft : v.phase.waiting = false → Past g Phase.unstamped) :
    Related κ' (Function.update g (.waiter i) v) := by
  subst hphase
  have hdriver : Function.update g (.waiter i) v .driver = g .driver :=
    Function.update_of_ne (by simp) _ _
  have hpast : ∀ f, Past (Function.update g (.waiter i) v) f ↔ Past g f := fun f => by
    rw [Past, Past, hdriver, Function.update_of_ne (by simp)]
  obtain ⟨hruns', hresting, hstarting, hcollecting⟩ :=
    h.scheduled.update (by simp) hbusy hrest hruns
  refine ⟨hlock, hruns', hresting, hstarting, hcollecting, fun j hs => ?_, fun j hj => ?_,
    fun j hj => ?_, fun j hs hj => ?_⟩
  · rw [hdriver] at hs
    rw [hmem, hpast]
    exact h.shared j hs
  · rw [hpast]
    by_cases hji : j = i
    · subst hji
      rw [Function.update_self] at hj
      exact hzero hj
    · rw [Function.update_of_ne (by simpa using hji)] at hj
      exact h.zero j hj
  · rw [hpast]
    by_cases hji : j = i
    · subst hji
      rw [Function.update_self] at hj
      exact hasleep hj
    · rw [Function.update_of_ne (by simpa using hji)] at hj
      exact h.asleep j hj
  · rw [hdriver] at hs
    rw [hpast]
    by_cases hji : j = i
    · subst hji
      rw [Function.update_self] at hj
      exact hleft hj
    · rw [Function.update_of_ne (by simpa using hji)] at hj
      exact h.left j hs hj

/-- A waiter that has left its loop goes on. -/
theorem Related.waiter_left {i : Fin W} {ph : Phase w} (h : Related κ g)
    (hphase : (g (.waiter i)).phase = ph) (hbusy : ph ≠ .rest) (hleft : ph.waiting = false)
    (hrest : v.phase ≠ .rest) (hv : v.phase.waiting = false) (hruns : v.runs = (g (.waiter i)).runs)
    (hlock : ∀ q, (Function.update g (.waiter i) v q).phase.holding = true ↔
      κ'.owner .lock = some q)
    (hmem : κ'.mem .shared = κ.mem .shared) :
    Related κ' (Function.update g (.waiter i) v) := by
  subst hphase
  refine h.waiter rfl hbusy hrest hruns hlock hmem (fun heq => ?_) (fun heq => ?_) fun _ =>
    h.left i (h.started (by simp) hbusy) hleft
  all_goals
    rw [heq] at hv
    exact absurd hv.symm Bool.false_ne_true

theorem Related.broadcaster {ph : Phase w} (h : Related κ g)
    (hphase : (g .broadcaster).phase = ph) (hbusy : ph ≠ .rest) (hrest : v.phase ≠ .rest)
    (hruns : v.runs = (g .broadcaster).runs)
    (hlock : ∀ q, (Function.update g .broadcaster v q).phase.holding = true ↔
      κ'.owner .lock = some q)
    (hshared : ∀ _ : Fin W, (κ'.mem .shared = (0 : ℤ) ↔ v.phase.unset = true))
    (hzero : ∀ i, (g (.waiter i)).phase = .sawZero → v.phase.unset = true)
    (hasleep : ∀ i, (g (.waiter i)).phase = .asleep → v.phase.unwoken = true)
    (hleft : ph.unstamped = false → v.phase.unstamped = false) :
    Related κ' (Function.update g .broadcaster v) := by
  subst hphase
  have hdriver : Function.update g .broadcaster v .driver = g .driver :=
    Function.update_of_ne (by simp) _ _
  have hwaiter : ∀ i, Function.update g .broadcaster v (.waiter i) = g (.waiter i) := fun i =>
    Function.update_of_ne (by simp) _ _
  have hpast : ∀ f, Past (Function.update g .broadcaster v) f ↔ f v.phase = false := fun f => by
    rw [Past, hdriver, Function.update_self]
    exact and_iff_right (h.started (by simp) hbusy)
  obtain ⟨hruns', hresting, hstarting, hcollecting⟩ :=
    h.scheduled.update (by simp) hbusy hrest hruns
  refine ⟨hlock, hruns', hresting, hstarting, hcollecting, fun j hs => ?_, fun j hj => ?_,
    fun j hj => ?_, fun j hs hj => ?_⟩
  · rw [hpast, Bool.not_eq_false]
    exact hshared j
  · rw [hwaiter] at hj
    rw [hpast, Bool.not_eq_false]
    exact hzero j hj
  · rw [hwaiter] at hj
    rw [hpast, Bool.not_eq_false]
    exact hasleep j hj
  · rw [hdriver] at hs
    rw [hwaiter] at hj
    rw [hpast]
    exact hleft (h.left j hs hj).2

/-- The broadcaster goes on without writing `shared` or completing its broadcast. -/
theorem Related.broadcaster_same {ph : Phase w} (h : Related κ g)
    (hphase : (g .broadcaster).phase = ph) (hbusy : ph ≠ .rest) (hrest : v.phase ≠ .rest)
    (hruns : v.runs = (g .broadcaster).runs)
    (hlock : ∀ q, (Function.update g .broadcaster v q).phase.holding = true ↔
      κ'.owner .lock = some q)
    (hmem : κ'.mem .shared = κ.mem .shared) (hunset : v.phase.unset = ph.unset)
    (hunwoken : v.phase.unwoken = ph.unwoken)
    (hleft : ph.unstamped = false → v.phase.unstamped = false) :
    Related κ' (Function.update g .broadcaster v) := by
  subst hphase
  refine h.broadcaster rfl hbusy hrest hruns hlock (fun i => ?_) (fun i hi => ?_)
    (fun i hi => ?_) hleft
  · rw [hmem, hunset, h.shared i (h.not_reset (by simp) hbusy), h.not_past_iff hbusy]
  · rw [hunset, ← h.not_past_iff hbusy]
    exact h.zero i hi
  · rw [hunwoken, ← h.not_past_iff hbusy]
    exact h.asleep i hi

theorem Related.lock_same {ph : Phase w} (h : Related κ g) (hphase : (g p).phase = ph)
    (hv : v.phase.holding = ph.holding) (q : Party W) :
    (Function.update g p v q).phase.holding = true ↔ κ.owner .lock = some q := by
  subst hphase
  rw [update_field (fun v => v.phase.holding) hv]
  exact h.lock q

theorem Related.lock_same_two {q : Party W} {v' : Progress w} {ph : Phase w} (h : Related κ g)
    (hqp : q ≠ p) (hv : v.phase.holding = (g p).phase.holding) (hphase : (g q).phase = ph)
    (hv' : v'.phase.holding = ph.holding) (u : Party W) :
    (Function.update (Function.update g p v) q v' u).phase.holding = true ↔
      κ.owner .lock = some u := by
  have hq : v'.phase.holding = (Function.update g p v q).phase.holding := by
    rwa [Function.update_of_ne hqp, hphase]
  rw [update_field (fun v => v.phase.holding) hq]
  exact h.lock_same rfl hv u

theorem Related.lock_acquire (h : Related κ g) (hfree : κ.owner .lock = none)
    (hv : v.phase.holding = true) (q : Party W) :
    (Function.update g p v q).phase.holding = true ↔
      Function.update κ.owner .lock (some p) .lock = some q := by
  rw [Function.update_self, Option.some_inj]
  by_cases hq : q = p
  · subst hq
    rw [Function.update_self]
    exact iff_of_true hv rfl
  · rw [Function.update_of_ne hq, h.lock, hfree]
    exact iff_of_false nofun (Ne.symm hq)

theorem Related.lock_release {ph : Phase w} (h : Related κ g) (hphase : (g p).phase = ph)
    (hold : ph.holding = true) (hv : v.phase.holding = false) (q : Party W) :
    (Function.update g p v q).phase.holding = true ↔
      Function.update κ.owner .lock none .lock = some q := by
  subst hphase
  rw [Function.update_self]
  by_cases hq : q = p
  · subst hq
    rw [Function.update_self, hv]
    exact iff_of_false nofun nofun
  · rw [Function.update_of_ne hq, h.lock, (h.lock p).mp hold, Option.some_inj]
    exact iff_of_false (Ne.symm hq) nofun

theorem Related.holding_unique {q : Party W} (h : Related κ g) (hp : (g p).phase.holding = true)
    (hq : (g q).phase.holding = true) :
    p = q :=
  Option.some_inj.mp (((h.lock p).mp hp).symm.trans ((h.lock q).mp hq))

/-- A broadcaster that does not hold the lock after it has set `shared` has written `start`. -/
theorem Related.past_unstamped {i : Fin W} (h : Related κ g)
    (hhold : (g (.waiter i)).phase.holding = true) (hpast : Past g Phase.unset) :
    Past g Phase.unstamped := by
  obtain ⟨hstarted, hset⟩ := hpast
  refine ⟨hstarted, ?_⟩
  have hfree : (g .broadcaster).phase.holding ≠ true := fun hb =>
    absurd (h.holding_unique hhold hb) nofun
  cases hb : (g .broadcaster).phase <;> rw [hb] at hset hfree
  case set | timed => exact absurd rfl hfree
  case entry | locked => exact absurd hset nofun
  all_goals rfl

/-! ### The requests of the threads -/

/-- A waiter that holds the lock reads `shared`. -/
theorem Related.load_shared {i : Fin W} (h : Related κ g)
    (hphase : (g (.waiter i)).phase = .locked) :
    Related κ (Function.update g (.waiter i) (advance (.waiter i) (g (.waiter i))
      (.did (.load .shared) (κ.mem .shared) : Event (sig W w)))) := by
  have hbusy : (g (.waiter i)).phase ≠ .rest := by
    rw [hphase]
    nofun
  have hhold : (g (.waiter i)).phase.holding = true := by
    rw [hphase]
    rfl
  have hshared := h.shared i (h.not_reset (by simp) hbusy)
  by_cases hzero : κ.mem .shared = (0 : ℤ)
  · simp only [advance, advanceThread, hzero, if_true]
    exact h.waiter hphase nofun nofun rfl (h.lock_same hphase rfl) rfl (fun _ => hshared.mp hzero)
      nofun nofun
  · simp only [advance, advanceThread, hzero, if_false]
    exact h.waiter hphase nofun nofun rfl (h.lock_same hphase rfl) rfl nofun nofun fun _ =>
      h.past_unstamped hhold (not_not.mp (mt hshared.mpr hzero))

/-- A waiter that has seen zero gives the lock back and sleeps. -/
theorem Related.sleep {i : Fin W} (h : Related κ g) (hphase : (g (.waiter i)).phase = .sawZero) :
    Related { κ with owner := Function.update κ.owner .lock none }
      (Function.update g (.waiter i) { g (.waiter i) with phase := .asleep }) := by
  refine h.waiter hphase nofun nofun rfl (h.lock_release hphase rfl rfl) rfl nofun
    (fun _ hpast => ?_) nofun
  exact h.zero i hphase (hpast.mono fun ph => by cases ph <;> simp [Phase.unset, Phase.unwoken])

/-- The broadcaster, which holds the lock, sets `shared`. -/
theorem Related.store_shared (h : Related κ g) (hphase : (g .broadcaster).phase = .locked) :
    Related { κ with mem := Function.update κ.mem .shared (W : ℤ) }
      (Function.update g .broadcaster { g .broadcaster with phase := .set }) := by
  have hhold : (g .broadcaster).phase.holding = true := by
    rw [hphase]
    rfl
  refine h.broadcaster hphase nofun nofun rfl (h.lock_same hphase rfl) (fun i => ?_)
    (fun i hi => ?_) (fun _ _ => rfl) nofun
  · have hpos : (W : ℤ) ≠ 0 := Int.natCast_ne_zero.mpr i.pos.ne'
    simpa [Phase.unset] using hpos
  · have hhold' : (g (.waiter i)).phase.holding = true := by
      rw [hi]
      rfl
    exact absurd (h.holding_unique hhold hhold') nofun

/-- The broadcaster ends its broadcast when nobody sleeps. -/
theorem Related.wake_none (h : Related κ g) (hphase : (g .broadcaster).phase = .waking)
    (hnone : ∀ i, (g (.waiter i)).phase ≠ .asleep) :
    Related κ (Function.update g .broadcaster { g .broadcaster with phase := .woken }) := by
  have hbusy : (g .broadcaster).phase ≠ .rest := by
    rw [hphase]
    nofun
  refine h.broadcaster hphase nofun nofun rfl (h.lock_same hphase rfl) (fun i => ?_)
    (fun i hi => ?_) (fun i hi => absurd hi (hnone i)) fun _ => rfl
  · rw [h.shared i (h.not_reset (by simp) hbusy), h.not_past_iff hbusy, hphase]
    rfl
  · have hzero := (h.not_past_iff hbusy _).mp (h.zero i hi)
    rw [hphase] at hzero
    exact absurd hzero nofun

theorem Related.of_kernel (h : Related κ g) (howner : κ'.owner = κ.owner)
    (hmem : κ'.mem = κ.mem) : Related κ' g := by
  obtain ⟨hlock, hruns, hresting, hstarting, hcollecting, hshared, hzero, hasleep, hleft⟩ := h
  exact ⟨howner ▸ hlock, hruns, hresting, hstarting, hcollecting, hmem ▸ hshared, hzero, hasleep,
    hleft⟩

/-! ### The driver -/

theorem started_reset (p : Party W) : Stage.reset.started p = false := by
  cases p <;> rfl

/-- The driver resets `shared` for the next run. -/
theorem Related.reset (h : Related κ g) (hstage : (g .driver).stage = .reset) :
    Related { κ with mem := Function.update κ.mem .shared (0 : ℤ) }
      (Function.update g .driver { g .driver with stage := .starting 0 }) := by
  set g' := Function.update g .driver { g .driver with stage := .starting 0 } with hg'
  have hthread : ∀ p, p ≠ .driver → g' p = g p := fun p hp => Function.update_of_ne hp _ _
  have hdriver : g' .driver = { g .driver with stage := .starting 0 } := Function.update_self ..
  have hrest : ∀ p, p ≠ .driver → (g p).phase = .rest := fun p hp =>
    h.resting p hp (by rw [hstage, started_reset])
  have hnot : ∀ p : Party W, (g' .driver).stage.started p = false := fun p => by
    rw [hdriver]
    cases p with
    | waiter i => exact decide_eq_false (Nat.not_lt_zero i)
    | broadcaster | driver => rfl
  have hpast : ∀ f, ¬Past g' f := fun f hf => by
    rw [Past, hnot] at hf
    exact Bool.false_ne_true hf.1
  refine ⟨h.lock_same rfl (by rfl), fun p hp => ?_, fun p hp _ => ?_, fun k hk => ?_,
    fun m hm => ?_, fun _ _ => iff_of_true (by simp) (hpast _), fun _ _ => hpast _,
    fun _ _ => hpast _, fun i hs => ?_⟩
  · rw [hthread p hp, h.runs p hp, hnot, hstage, started_reset, hdriver]
  · rw [hthread p hp]
    exact hrest p hp
  · rw [hdriver] at hk
    obtain rfl := Stage.starting.inj hk
    refine ⟨Nat.zero_le W, fun p hp => ?_⟩
    rw [hnot] at hp
    exact absurd hp Bool.false_ne_true
  · rw [hdriver] at hm
    cases hm
  · rw [hnot] at hs
    exact absurd hs Bool.false_ne_true

/-- Starting a thread adds it to those that have been started. -/
theorem started_next (hp : p ≠ .driver) (q : Party W) :
    (if position p < W then Stage.starting (position p + 1) else .collecting 0).started q = true ↔
      (Stage.starting (position p)).started q = true ∨ q = p := by
  cases p with
  | driver => exact absurd rfl hp
  | waiter i =>
    rw [position, if_pos i.isLt]
    cases q with
    | waiter j =>
      simp only [Stage.started, decide_eq_true_eq, Party.waiter.injEq, Fin.ext_iff]
      omega
    | broadcaster | driver =>
      exact iff_of_false Bool.false_ne_true fun hor => hor.elim Bool.false_ne_true (by simp)
  | broadcaster =>
    have hpos : position (.broadcaster : Party W) = W := rfl
    rw [hpos, if_neg (lt_irrefl W)]
    cases q with
    | waiter j => exact iff_of_true rfl (.inl (decide_eq_true j.isLt))
    | broadcaster => exact iff_of_true rfl (.inr rfl)
    | driver =>
      exact iff_of_false Bool.false_ne_true fun hor => hor.elim Bool.false_ne_true (by simp)

theorem not_started (hp : p ≠ .driver) (hstage : v.stage = .starting (position p)) :
    v.stage.started p = false := by
  rw [hstage]
  cases p with
  | waiter i => exact decide_eq_false (lt_irrefl _)
  | broadcaster | driver => rfl

section Start

/- The progress `g'` after the driver has started the thread `p`. -/
variable {g' : Party W → Progress w} (hp : p ≠ .driver)
  (hstage : (g .driver).stage = .starting (position p))
  (hdriver : g' .driver = { g .driver with
    stage := if position p < W then .starting (position p + 1) else .collecting 0 })
  (hself : g' p = { g p with phase := .entry, runs := (g p).runs + 1 })
  (hother : ∀ q, q ≠ .driver → q ≠ p → g' q = g q)

include hp hstage hdriver

theorem started_start (q : Party W) :
    (g' .driver).stage.started q = true ↔ (g .driver).stage.started q = true ∨ q = p := by
  rw [hdriver, hstage]
  exact started_next hp q

include hself

/-- The broadcaster has not done anything in a run in which the driver is starting threads. -/
theorem not_past_start {f : Phase w → Bool} (hentry : f .entry = true) : ¬Past g' f := by
  rintro ⟨hs, hf⟩
  rcases (started_start hp hstage hdriver .broadcaster).mp hs with hs | rfl
  · rw [hstage] at hs
    exact Bool.false_ne_true hs
  · rw [hself, hentry] at hf
    exact Bool.false_ne_true hf.symm

include hother

theorem Scheduled.start (h : Scheduled g) : Scheduled g' := by
  have hnext := started_start hp hstage hdriver
  have hnew := not_started hp hstage
  refine ⟨fun q hq => ?_, fun q hq hs => ?_, fun k hk => ?_, fun m hm => ?_⟩
  · by_cases hqp : q = p
    · subst hqp
      rw [hself, (hnext q).mpr (.inr rfl), hdriver]
      change (g q).runs + 1 = (g .driver).runs + 1
      rw [h.runs q hq, hnew]
      rfl
    · have hsame : (g' .driver).stage.started q = (g .driver).stage.started q :=
        Bool.eq_iff_iff.mpr ((hnext q).trans (or_iff_left hqp))
      rw [hother q hq hqp, hsame, hdriver]
      exact h.runs q hq
  · have hnot : ¬((g .driver).stage.started q = true ∨ q = p) := fun hor => by
      rw [(hnext q).mpr hor] at hs
      exact absurd hs.symm Bool.false_ne_true
    rw [not_or, Bool.not_eq_true] at hnot
    rw [hother q hq hnot.2]
    exact h.resting q hq hnot.1
  · rw [hdriver] at hk
    simp only at hk
    split at hk
    · rename_i hlt
      obtain rfl := Stage.starting.inj hk
      refine ⟨hlt, fun q hs => ?_⟩
      by_cases hqp : q = p
      · rw [hqp, hself]
        nofun
      · have hs' := ((hnext q).mp hs).resolve_right hqp
        have hq : q ≠ .driver := by
          rintro rfl
          rw [hstage] at hs'
          exact Bool.false_ne_true hs'
        rw [hother q hq hqp]
        exact (h.starting _ hstage).2 q hs'
    · cases hk
  · rw [hdriver] at hm
    simp only at hm
    split at hm
    · cases hm
    · rename_i hge
      obtain rfl := Stage.collecting.inj hm
      have hpb : p = .broadcaster := by
        cases p with
        | waiter i => exact absurd i.isLt hge
        | broadcaster => rfl
        | driver => exact absurd rfl hp
      subst hpb
      have hbusy : ∀ i, (g' (.waiter i)).phase.resting = false := fun i => by
        rw [hother _ (by simp) (by simp), ← Bool.not_eq_true, Phase.resting_iff]
        refine (h.starting _ hstage).2 _ ?_
        rw [hstage]
        exact decide_eq_true i.isLt
      refine ⟨Nat.zero_le W, ?_⟩
      simp only [finished, hbusy, hself]
      simp [Phase.resting]

end Start

theorem Related.start (h : Related κ g) (hp : p ≠ .driver)
    (hstage : (g .driver).stage = .starting (position p)) :
    Related (κ.cancel p) (Function.update (Function.update g .driver { g .driver with
      stage := if position p < W then .starting (position p + 1) else .collecting 0 }) p
        { g p with phase := .entry, runs := (g p).runs + 1 }) := by
  set d : Progress w := { g .driver with
    stage := if position p < W then .starting (position p + 1) else .collecting 0 } with hd
  set g' := Function.update (Function.update g .driver d) p
    { g p with phase := .entry, runs := (g p).runs + 1 } with hg'
  have hdriver : g' .driver = d := by
    rw [hg', Function.update_of_ne hp.symm, Function.update_self]
  have hself : g' p = { g p with phase := .entry, runs := (g p).runs + 1 } :=
    Function.update_self ..
  have hother : ∀ q, q ≠ .driver → q ≠ p → g' q = g q := fun q hq hqp => by
    rw [hg', Function.update_of_ne hqp, Function.update_of_ne hq]
  have hpastOld : ∀ f, ¬Past g f := fun f hf => by
    rw [Past, hstage] at hf
    exact Bool.false_ne_true hf.1
  have hpast : ∀ f : Phase w → Bool, f .entry = true → ¬Past g' f := fun _ =>
    not_past_start hp hstage hdriver hself
  have hrest : (g p).phase = .rest := h.resting p hp (not_started hp hstage)
  obtain ⟨hruns, hresting, hstarting, hcollecting⟩ :=
    h.scheduled.start hp hstage hdriver hself hother
  refine ⟨h.lock_same_two hp rfl hrest rfl, hruns, hresting, hstarting, hcollecting,
    fun j _ => ?_, fun _ _ => hpast _ rfl, fun _ _ => hpast _ rfl, fun j hs hj => ?_⟩
  · refine iff_of_true ?_ (hpast _ rfl)
    refine (h.shared j ?_).mpr (hpastOld _)
    rw [hstage]
    nofun
  · by_cases hjp : Party.waiter j = p
    · rw [hjp, hself] at hj
      exact absurd hj.symm Bool.false_ne_true
    · have hs' := ((started_start hp hstage hdriver _).mp hs).resolve_right hjp
      rw [hother _ (by simp) hjp] at hj
      exact absurd (h.left j hs' hj) (hpastOld _)

theorem finished_rest (hp : p ≠ .driver) (hbusy : (g p).phase ≠ .rest) (hrest : v.phase = .rest) :
    finished (Function.update g p v) = finished g + 1 := by
  have hold : (g p).phase.resting = false := by
    rw [← Bool.not_eq_true, Phase.resting_iff]
    exact hbusy
  have hnew : v.phase.resting = true := Phase.resting_iff.mpr hrest
  cases p with
  | driver => exact absurd rfl hp
  | broadcaster =>
    have hwaiter : ∀ i, Function.update g .broadcaster v (.waiter i) = g (.waiter i) := fun i =>
      Function.update_of_ne (by simp) _ _
    simp only [finished, hwaiter, Function.update_self, hold, hnew]
    rfl
  | waiter i =>
    have hset : (Finset.univ.filter fun j =>
        (Function.update g (.waiter i) v (.waiter j)).phase.resting = true) =
          insert i (Finset.univ.filter fun j => (g (.waiter j)).phase.resting = true) := by
      ext j
      simp only [Finset.mem_filter, Finset.mem_univ, true_and, Finset.mem_insert]
      by_cases hji : j = i
      · subst hji
        rw [Function.update_self]
        exact iff_of_true hnew (.inl rfl)
      · rw [Function.update_of_ne (by simpa using hji)]
        exact (or_iff_right hji).symm
    have hmem : i ∉ Finset.univ.filter fun j => (g (.waiter j)).phase.resting = true := by
      simp [hold]
    rw [finished, hset, Finset.card_insert_of_notMem hmem, Function.update_of_ne (by simp),
      finished, Nat.add_right_comm]

/-- After all done messages all threads are at rest. -/
theorem rest_of_finished (h : finished g = W + 1) (hp : p ≠ .driver) : (g p).phase = .rest := by
  have hcard := Finset.card_filter_le (Finset.univ : Finset (Fin W)) fun i =>
    (g (.waiter i)).phase.resting = true
  rw [Finset.card_univ, Fintype.card_fin] at hcard
  have hbroadcaster := (g .broadcaster).phase.resting.toNat_le
  rw [finished] at h
  rw [← Phase.resting_iff]
  cases p with
  | driver => exact absurd rfl hp
  | broadcaster =>
    cases hb : (g .broadcaster).phase.resting with
    | true => rfl
    | false =>
      rw [hb, Bool.toNat_false] at h
      omega
  | waiter i =>
    set rests := Finset.univ.filter fun i => (g (.waiter i)).phase.resting = true
    have huniv : rests = Finset.univ := by
      rw [← Finset.card_eq_iff_eq_univ, Fintype.card_fin]
      omega
    have hi : i ∈ rests := by
      rw [huniv]
      exact Finset.mem_univ i
    exact (Finset.mem_filter.mp hi).2

/-- When all threads are at rest their number is `W + 1`. -/
theorem finished_of_rest (h : ∀ p, p ≠ .driver → (g p).phase = .rest) :
    finished g = W + 1 := by
  have hresting : ∀ p, p ≠ .driver → (g p).phase.resting = true := fun p hp =>
    Phase.resting_iff.mpr (h p hp)
  rw [finished, hresting .broadcaster (by simp), Finset.filter_true_of_mem fun i _ =>
    hresting (.waiter i) (by simp), Finset.card_univ, Fintype.card_fin, Bool.toNat_true]

theorem started_collecting (m : ℕ) (hp : p ≠ .driver) : (Stage.collecting m).started p = true := by
  cases p with
  | driver => exact absurd rfl hp
  | waiter _ | broadcaster => rfl

section Send

variable {m : ℕ} (h : Related κ g) (hp : p ≠ .driver) (hphase : (g p).phase = .released)
  (hstage : (g .driver).stage = .collecting m) (howner : κ'.owner = κ.owner) (hmem : κ'.mem = κ.mem)

include h hp hphase hstage

/-- A done message is that of a thread that has not been at rest. -/
theorem Related.finished_send :
    finished (Function.update g p { g p with phase := .rest }) = m + 1 := by
  have hbusy : (g p).phase ≠ .rest := by
    rw [hphase]
    nofun
  rw [finished_rest hp hbusy rfl, (h.collecting m hstage).2]

include howner hmem

/-- A thread sends its done message to the driver, and others have not yet done so. -/
theorem Related.send_more (hlt : m < W) :
    Related κ' (Function.update (Function.update g p { g p with phase := .rest }) .driver
      { g .driver with stage := .collecting (m + 1) }) := by
  set g' := Function.update (Function.update g p { g p with phase := .rest }) .driver
    { g .driver with stage := .collecting (m + 1) } with hg'
  have hdriver : g' .driver = { g .driver with stage := .collecting (m + 1) } :=
    Function.update_self ..
  have hself : g' p = { g p with phase := .rest } := by
    rw [hg', Function.update_of_ne hp, Function.update_self]
  have hother : ∀ q, q ≠ .driver → q ≠ p → g' q = g q := fun q hq hqp => by
    rw [hg', Function.update_of_ne hq, Function.update_of_ne hqp]
  have hpast : ∀ f : Phase w → Bool, f .released = f .rest → (Past g' f ↔ Past g f) :=
      fun f hf => by
    rw [Past, Past, hdriver, hstage, started_collecting _ (by simp),
      started_collecting _ (by simp)]
    refine and_congr_right fun _ => ?_
    by_cases hpb : p = .broadcaster
    · subst hpb
      rw [hself, hphase, hf]
    · rw [hother _ (by simp) (Ne.symm hpb)]
  have hwaiter : ∀ i, (g' (.waiter i)).phase = (g (.waiter i)).phase ∨
      (g' (.waiter i)).phase = .rest ∧ (g (.waiter i)).phase = .released := fun i => by
    by_cases hip : Party.waiter i = p
    · rw [hip, hself, hphase]
      exact .inr ⟨rfl, rfl⟩
    · rw [hother _ (by simp) hip]
      exact .inl rfl
  refine ⟨fun q => ?_, fun q hq => ?_, fun q hq hs => ?_, fun k hk => ?_, fun m' hm => ?_,
    fun j _ => ?_, fun i hi => ?_, fun i hi => ?_, fun i _ hi => ?_⟩
  · rw [howner, hg']
    exact h.lock_same_two hp.symm (by rw [hphase]; rfl) rfl (by rfl) q
  · have hruns : (g' q).runs = (g q).runs := by
      by_cases hqp : q = p
      · rw [hqp, hself]
      · rw [hother q hq hqp]
    rw [hruns, h.runs q hq, hdriver, hstage, started_collecting m hq,
      started_collecting (m + 1) hq]
  · rw [hdriver, started_collecting (m + 1) hq] at hs
    exact absurd hs.symm Bool.false_ne_true
  · rw [hdriver] at hk
    cases hk
  · rw [hdriver] at hm
    obtain rfl := Stage.collecting.inj hm
    refine ⟨hlt, ?_⟩
    rw [← h.finished_send hp hphase hstage]
    simp only [finished, hg', ne_eq, reduceCtorEq, not_false_eq_true, Function.update_of_ne]
  · rw [hmem, hpast _ rfl]
    refine h.shared j ?_
    rw [hstage]
    nofun
  · rw [hpast _ rfl]
    rcases hwaiter i with hsame | ⟨hrest, -⟩
    · exact h.zero i (hsame ▸ hi)
    · rw [hrest] at hi
      cases hi
  · rw [hpast _ rfl]
    rcases hwaiter i with hsame | ⟨hrest, -⟩
    · exact h.asleep i (hsame ▸ hi)
    · rw [hrest] at hi
      cases hi
  · rw [hpast _ rfl]
    refine h.left i (by rw [hstage, started_collecting m (by simp)]) ?_
    rcases hwaiter i with hsame | ⟨-, hreleased⟩
    · rw [← hsame]
      exact hi
    · rw [hreleased]
      rfl

omit hmem in
/-- The last thread sends its done message, which completes the run. -/
theorem Related.send_last (hge : ¬m < W) :
    Related κ' (Function.update (Function.update g p { g p with phase := .rest }) .driver
      { g .driver with stage := .reset, runs := (g .driver).runs + 1 }) := by
  set g' := Function.update (Function.update g p { g p with phase := .rest }) .driver
    { g .driver with stage := .reset, runs := (g .driver).runs + 1 } with hg'
  have hdriver : g' .driver = { g .driver with stage := .reset, runs := (g .driver).runs + 1 } :=
    Function.update_self ..
  have hm : m = W := le_antisymm (h.collecting m hstage).1 (not_lt.mp hge)
  have hrest : ∀ q, q ≠ .driver → (g' q).phase = .rest := fun q hq => by
    rw [hg', Function.update_of_ne hq]
    exact rest_of_finished (hm ▸ h.finished_send hp hphase hstage) hq
  have hnot : ∀ q : Party W, (g' .driver).stage.started q = false := fun q => by
    rw [hdriver, started_reset]
  refine ⟨fun q => ?_, fun q hq => ?_, fun q hq _ => hrest q hq, fun k hk => ?_, fun m' hm => ?_,
    fun j hs => ?_, fun i hi => ?_, fun i hi => ?_, fun i hs _ => ?_⟩
  · rw [howner, hg']
    exact h.lock_same_two hp.symm (by rw [hphase]; rfl) rfl (by rfl) q
  · have hruns : (g' q).runs = (g q).runs := by
      rw [hg', Function.update_of_ne hq]
      exact update_field Progress.runs (by rfl) q
    rw [hruns, h.runs q hq, hstage, started_collecting m hq, hnot, hdriver]
    rfl
  · rw [hdriver] at hk
    cases hk
  · rw [hdriver] at hm
    cases hm
  · rw [hdriver] at hs
    exact absurd rfl hs
  · rw [hrest _ (by simp)] at hi
    cases hi
  · rw [hrest _ (by simp)] at hi
    cases hi
  · rw [hnot] at hs
    exact absurd hs Bool.false_ne_true

theorem Related.send :
    Related κ' (Function.update (Function.update g p { g p with phase := .rest }) .driver
      (if m < W then { g .driver with stage := .collecting (m + 1) }
        else { g .driver with stage := .reset, runs := (g .driver).runs + 1 })) := by
  split
  · exact h.send_more hp hphase hstage howner hmem ‹_›
  · exact h.send_last hp hphase hstage howner ‹_›

end Send

end Related

/-- Storing a counter value keeps `shared`. -/
theorem shared_update (m : ∀ x, Val W w x) (x : CcntVar W) (t : Ccnt w) :
    Function.update m (.ccnt x) t .shared = m .shared :=
  Function.update_of_ne (nofun : (Var.shared : Var W) ≠ .ccnt x) t m

/-- Writing `shared` keeps the counter values. -/
theorem ccnt_update (m : ∀ x, Val W w x) (n : ℤ) (x : CcntVar W) :
    Function.update m .shared n (.ccnt x) = m (.ccnt x) :=
  Function.update_of_ne (nofun : (Var.ccnt x : Var W) ≠ .shared) n m

/-! ### How the views are related -/

/-- The views after an event. -/
abbrev next (runs : ℕ) (mem : ∀ x, Val W w x) (g : Party W → View W w) (p : Party W)
    (ev : Event (sig W w)) : Party W → View W w :=
  (protocol runs mem).next g p ev

section Rel

variable {runs : ℕ} {mem : ∀ x, Val W w x} {κ κ' : Kernel (sig W w)} {g : Party W → View W w}
  {p q : Party W} {ev ev' : Event (sig W w)}

theorem tracks_progress : (protocol runs mem).Tracks View.toProgress advance :=
  fun _ _ _ => rfl

theorem records_hist : (protocol runs mem).Records View.hist where
  init _ := rfl
  step _ _ _ := rfl

theorem own_next (h : ∀ q, Own q (g q)) (hp : Own p (step p (g p) ev)) (q : Party W) :
    Own q (next runs mem g p ev q) :=
  (Function.forall_update_iff g Own).mpr ⟨hp, fun q _ => h q⟩ q

/-- The event stores no counter value. -/
def Silent (ev : Event (sig W w)) : Prop := ∀ x, storeOf (σ := sig W w) (.ccnt x) ev = none

/-- An event that reads no counter value in a waiter keeps the order of the values. -/
theorem read_next (h : ∀ i, loads (g (.waiter i)).hist <+: stamps (g .broadcaster).hist)
    (hload : ∀ i, p = .waiter i → startOf ev = none) (i : Fin W) :
    loads (next runs mem g p ev (.waiter i)).hist <+:
      stamps (next runs mem g p ev .broadcaster).hist := by
  have hloads : loads (next runs mem g p ev (.waiter i)).hist = loads (g (.waiter i)).hist := by
    rw [congrFun records_hist.next (.waiter i)]
    by_cases hi : Party.waiter i = p
    · rw [hi, Function.update_self, loads_append, hload i hi.symm, Option.toList_none,
        List.append_nil]
    · rw [Function.update_of_ne hi]
  have hstamps : stamps (g .broadcaster).hist <+:
      stamps (next runs mem g p ev .broadcaster).hist := by
    rw [congrFun records_hist.next .broadcaster]
    by_cases hb : Party.broadcaster = p
    · rw [hb, Function.update_self, stamps_append]
      exact List.prefix_append _ _
    · rw [Function.update_of_ne hb]
  rw [hloads]
  exact (h i).trans hstamps

/-- An event of one party that stores no counter value. -/
theorem Rel.event (h : Rel mem κ g) (hown : Own p (step p (g p) ev))
    (hload : ∀ i, p = .waiter i → startOf ev = none) (hev : Silent ev)
    (hmem : ∀ x, κ'.mem (.ccnt x) = κ.mem (.ccnt x))
    (hrel : Related κ' (Function.update (fun q => (g q).toProgress) p
      (advance p (g p).toProgress ev))) : Rel mem κ' (next runs mem g p ev) :=
  ⟨own_next h.own hown, tracks_progress.next ▸ hrel,
    fun x => (hmem x).trans (records_hist.mem_next (h.mem x) (hev x)),
    read_next h.read hload⟩

/-- Events of two parties that neither read nor store counter values. -/
theorem Rel.event_two (h : Rel mem κ g) (hqp : q ≠ p) (hown : Own p (step p (g p) ev))
    (hown' : Own q (step q (g q) ev')) (hload : startOf ev = none) (hload' : startOf ev' = none)
    (hev : Silent ev) (hev' : Silent ev') (hmem : ∀ x, κ'.mem (.ccnt x) = κ.mem (.ccnt x))
    (hrel : Related κ' (Function.update (Function.update (fun u => (g u).toProgress) p
      (advance p (g p).toProgress ev)) q (advance q (g q).toProgress ev'))) :
    Rel mem κ' (next runs mem (next runs mem g p ev) q ev') := by
  refine ⟨own_next (own_next h.own hown) ?_, tracks_progress.next_two hqp ▸ hrel,
    fun x => (hmem x).trans
      (records_hist.mem_next (records_hist.mem_next (h.mem x) (hev x)) (hev' x)),
    read_next (read_next h.read fun _ _ => hload) fun _ _ => hload'⟩
  rwa [next, Protocol.next_of_ne _ _ hqp]

theorem Rel.store (h : Rel mem κ g) {x : CcntVar W} {t : Ccnt w} (hx : writer x = p)
    (hown : Own p (step p (g p) (.did (.store (.ccnt x) t) ())))
    (hrel : Related { κ with mem := Function.update κ.mem (.ccnt x) t }
      (Function.update (fun q => (g q).toProgress) p
        (advance p (g p).toProgress (.did (.store (.ccnt x) t) ())))) :
    Rel mem { κ with mem := Function.update κ.mem (.ccnt x) t }
      (next runs mem g p (.did (.store (.ccnt x) t) ())) := by
  refine ⟨own_next h.own hown, tracks_progress.next ▸ hrel, fun y => ?_,
    read_next h.read fun _ _ => rfl⟩
  exact records_hist.mem_next_store (x := .ccnt x) t (h.mem y) fun heq => Var.ccnt.inj heq ▸ hx

/-- The broadcaster of the current run has written its time to `start`. -/
theorem Rel.numStamps (h : Rel mem κ g)
    (hpast : Past (fun p => (g p).toProgress) Phase.unstamped) :
    (stamps (g .broadcaster).hist).length = (g .driver).runs + 1 := by
  obtain ⟨hstarted, hphase⟩ := hpast
  have hnum := (h.own .broadcaster).numStamps
  have hruns := h.related.runs .broadcaster (by simp)
  rw [hstarted, Bool.toNat_true] at hruns
  rw [hphase, Bool.toNat_false] at hnum
  exact hnum.trans hruns

/-- A waiter that has left its loop finds the time of the broadcaster in `start`, and has not read
it before. -/
theorem Rel.load_prefix (h : Rel mem κ g) {i : Fin W} {t : Ccnt w}
    (hphase : (g (.waiter i)).phase = .clocked t) :
    loads (g (.waiter i)).hist ++ [κ.mem (.ccnt .start)] <+: stamps (g .broadcaster).hist := by
  have hbusy : (g (.waiter i)).phase ≠ .rest := by
    rw [hphase]
    nofun
  have hstarted := h.related.started (by simp) hbusy
  have hnum := (h.own (.waiter i)).numLoads
  have hruns := h.related.runs (.waiter i) (by simp)
  rw [hstarted, Bool.toNat_true] at hruns
  rw [hphase] at hnum
  have hstamps := h.numStamps (h.related.left i hstarted (by rw [hphase]; rfl))
  have hlen : (stamps (g .broadcaster).hist).length = (loads (g (.waiter i)).hist).length + 1 :=
    hstamps.trans (hruns.symm.trans hnum.symm)
  refine concat_prefix_of_getLast (h.read i) hlen ?_
  have hlast : lastStore (σ := sig W w) (.ccnt .start) (g .broadcaster).hist =
      (stamps (g .broadcaster).hist).getLast? := rfl
  have hmem : κ.mem (.ccnt .start) =
      stored (σ := sig W w) mem (.ccnt .start) (g .broadcaster).hist := h.mem .start
  rw [hmem, stored, hlast]
  cases hs : (stamps (g .broadcaster).hist).getLast? with
  | some t => rfl
  | none =>
    rw [List.getLast?_eq_none_iff.mp hs, List.length_nil] at hlen
    exact absurd hlen.symm (Nat.succ_ne_zero _)

theorem Rel.load (h : Rel mem κ g) {i : Fin W} {t : Ccnt w}
    (hphase : (g (.waiter i)).phase = .clocked t)
    (hrel : Related κ (Function.update (fun q => (g q).toProgress) (.waiter i)
      (advance (.waiter i) (g (.waiter i)).toProgress
        (.did (.load (.ccnt .start)) (κ.mem (.ccnt .start)))))) :
    Rel mem κ (next runs mem g (.waiter i)
      (.did (.load (.ccnt .start)) (κ.mem (.ccnt .start)))) := by
  refine ⟨own_next h.own ((h.own (.waiter i)).load hphase _), tracks_progress.next ▸ hrel,
    fun x => records_hist.mem_next (h.mem x) rfl, fun j => ?_⟩
  rw [congrFun records_hist.next (.waiter j), congrFun records_hist.next .broadcaster,
    Function.update_of_ne (by simp : (Party.broadcaster : Party W) ≠ .waiter i)]
  by_cases hji : j = i
  · subst hji
    rw [Function.update_self, loads_append]
    exact h.load_prefix hphase
  · rw [Function.update_of_ne (by simpa using hji)]
    exact h.read j

theorem Own.started (h : Own p (g p)) (hp : p ≠ .driver) (hphase : (g p).phase = .rest)
    (ℓ : Label W) : Own p (step p (g p) (.started ℓ)) := by
  cases p with
  | waiter i =>
    refine Waited.append h (h.toCounted.append rfl ?_ ?_ ?_ ?_) (fun _ => rfl) ?_ nofun nofun <;>
      rw [hphase] <;> rfl
  | broadcaster => refine Woken.append h rfl ?_ ?_ ?_ ?_ <;> rw [hphase] <;> rfl
  | driver => exact absurd rfl hp

theorem Own.stopped (h : Own p (g p)) (hp : p ≠ .driver) (hphase : (g p).phase = .rest) :
    Own p (step p (g p) .stopped) := by
  cases p with
  | waiter i =>
    refine Waited.append h (h.toCounted.append rfl ?_ ?_ ?_ ?_) (fun _ => rfl) rfl (fun t ht => ?_)
      fun t s hts => ?_
    · exact Nat.zero_add _
    · exact Nat.zero_add _
    · exact Nat.zero_add _
    · exact Nat.zero_add _
    · exact absurd (hphase.symm.trans ht) nofun
    · exact absurd (hphase.symm.trans hts) nofun
  | broadcaster => refine Woken.append h rfl ?_ ?_ ?_ ?_ <;> exact Nat.zero_add _
  | driver => exact absurd rfl hp

end Rel

/-! ### Soundness -/

section Sound

variable {runs : ℕ} {mem : ∀ x, Val W w x} {F : Label W → Prog (sig W w)} {s : State (sig W w)}
  {p q : Party W} {i : Fin W}

/-- A thread that sleeps is a waiter that waits on the condition variable. -/
theorem thread_of_asleep (hinv : (protocol runs mem).Inv s) (hp : p ≠ .driver)
    (ha : ((protocol runs mem).view s.log p).phase = .asleep) :
    (∃ i, p = .waiter i) ∧ ∃ k, s.thread p = .op (.asleep .cv) k := by
  have hsafe := hinv.safe p
  cases ht : s.thread p with
  | halt =>
    rw [ht] at hsafe
    cases p with
    | driver => exact absurd rfl hp
    | waiter _ | broadcaster => exact absurd (ha.symm.trans hsafe) nofun
  | jump ℓ =>
    rw [ht] at hsafe
    obtain ⟨-, hphase, -⟩ := hsafe
    refine absurd (ha.symm.trans hphase) ?_
    cases p <;> cases ℓ.point <;> nofun
  | op r k =>
    have hguar := hinv.guar ht
    cases hguar with
    | @asleep i h => exact ⟨⟨i, rfl⟩, k, rfl⟩
    | acquire _ h | loadShared h | sleep h | clockWaiter h | loadStart _ h | storeResult _ h _
      | release _ h | send _ h | recv _ h | storeShared h | clockSet h | storeStart h | wake h
      | clockWoken h => exact absurd (ha.symm.trans h) nofun
    | reset | start | collect | suspend => exact absurd rfl hp

theorem effect_waiter (hinv : (protocol runs mem).Inv s) {r : Req (sig W w)} {a : r.Resp}
    {κ : Kernel (sig W w)}
    (hguar : Guar runs ((protocol runs mem).view s.log (.waiter i)).toProgress (.waiter i) r)
    (heff : Effect s (.waiter i) r a κ) :
    rely r a ∧
      Rel mem κ (next runs mem ((protocol runs mem).view s.log) (.waiter i) (.did r a)) := by
  have hrel := hinv.rel
  have hrelated := hrel.related
  have hown := hrel.own (.waiter i)
  have hguar' := hguar
  cases hguar with
  | acquire _ hphase =>
    cases heff with
    | acquire _ hfree =>
    refine ⟨trivial, hrel.event (hown.did hguar' trivial) (fun _ _ => rfl) (fun _ => rfl)
      (fun _ => rfl) ?_⟩
    exact hrelated.waiter hphase nofun nofun rfl (hrelated.lock_acquire hfree rfl) rfl nofun nofun
      nofun
  | loadShared hphase =>
    cases heff
    exact ⟨trivial, hrel.event (hown.did hguar' trivial) (fun _ _ => rfl) (fun _ => rfl)
      (fun _ => rfl) (hrelated.load_shared hphase)⟩
  | sleep hphase =>
    cases heff
    exact ⟨trivial, hrel.event (hown.did hguar' trivial) (fun _ _ => rfl) (fun _ => rfl)
      (fun _ => rfl) (hrelated.sleep hphase)⟩
  | clockWaiter hphase =>
    cases heff
    refine ⟨trivial, hrel.event (hown.did hguar' trivial) (fun _ _ => rfl) (fun _ => rfl)
      (fun _ => rfl) ?_⟩
    simp only [advance, advanceThread, hphase]
    exact hrelated.waiter_left hphase nofun rfl nofun rfl rfl (hrelated.lock_same hphase rfl) rfl
  | loadStart _ hphase =>
    cases heff
    refine ⟨trivial, hrel.load hphase ?_⟩
    simp only [advance, advanceThread, hphase]
    exact hrelated.waiter_left hphase nofun rfl nofun rfl rfl (hrelated.lock_same hphase rfl) rfl
  | @storeResult _ _ stop start run hphase hrun =>
    cases heff
    refine ⟨trivial, hrel.store rfl (hown.did hguar' trivial) ?_⟩
    simp only [advance, advanceThread, hphase]
    exact hrelated.waiter_left hphase nofun rfl nofun rfl rfl (hrelated.lock_same hphase rfl)
      (shared_update s.kernel.mem (.broadcastWaitTime i run) (stop - start))
  | release _ hphase =>
    cases heff
    refine ⟨trivial, hrel.event (hown.did hguar' trivial) (fun _ _ => rfl) (fun _ => rfl)
      (fun _ => rfl) ?_⟩
    exact hrelated.waiter_left hphase nofun rfl nofun rfl rfl (hrelated.lock_release hphase rfl rfl)
      rfl
  | asleep | send | recv => cases heff

theorem effect_broadcaster (hinv : (protocol runs mem).Inv s) {r : Req (sig W w)} {a : r.Resp}
    {κ : Kernel (sig W w)}
    (hguar : Guar runs ((protocol runs mem).view s.log .broadcaster).toProgress .broadcaster r)
    (heff : Effect s .broadcaster r a κ) :
    rely r a ∧
      Rel mem κ (next runs mem ((protocol runs mem).view s.log) .broadcaster (.did r a)) := by
  have hrel := hinv.rel
  have hrelated := hrel.related
  have hown := hrel.own .broadcaster
  have hguar' := hguar
  cases hguar with
  | acquire _ hphase =>
    cases heff with
    | acquire _ hfree =>
    refine ⟨trivial, hrel.event (hown.did hguar' trivial) nofun (fun _ => rfl) (fun _ => rfl) ?_⟩
    exact hrelated.broadcaster_same hphase nofun nofun rfl (hrelated.lock_acquire hfree rfl) rfl rfl
      rfl nofun
  | storeShared hphase =>
    cases heff
    exact ⟨trivial, hrel.event (hown.did hguar' trivial) nofun (fun _ => rfl)
      (ccnt_update s.kernel.mem W) (hrelated.store_shared hphase)⟩
  | clockSet hphase =>
    cases heff
    refine ⟨trivial, hrel.event (hown.did hguar' trivial) nofun (fun _ => rfl) (fun _ => rfl) ?_⟩
    simp only [advance, advanceThread, hphase]
    exact hrelated.broadcaster_same hphase nofun nofun rfl (hrelated.lock_same hphase rfl) rfl rfl
      rfl nofun
  | @storeStart stamp hphase =>
    cases heff
    refine ⟨trivial, hrel.store rfl (hown.did hguar' trivial) ?_⟩
    simp only [advance, advanceThread, hphase]
    exact hrelated.broadcaster_same hphase nofun nofun rfl (hrelated.lock_same hphase rfl)
      (shared_update s.kernel.mem .start stamp) rfl rfl nofun
  | wake hphase =>
    cases heff with
    | wakeNone _ hnone =>
    refine ⟨trivial, hrel.event (hown.did hguar' trivial) nofun (fun _ => rfl) (fun _ => rfl)
      (hrelated.wake_none hphase fun i hi => ?_)⟩
    obtain ⟨-, k, hk⟩ := thread_of_asleep (p := .waiter i) hinv (by simp) hi
    exact hnone _ k hk
  | clockWoken hphase | loadStart _ hphase =>
    cases heff
    refine ⟨trivial, hrel.event (hown.did hguar' trivial) nofun (fun _ => rfl) (fun _ => rfl) ?_⟩
    simp only [advance, advanceThread, hphase]
    exact hrelated.broadcaster_same hphase nofun nofun rfl (hrelated.lock_same hphase rfl) rfl rfl
      rfl fun _ => rfl
  | @storeResult _ _ stop start run hphase hrun =>
    cases heff
    refine ⟨trivial, hrel.store rfl (hown.did hguar' trivial) ?_⟩
    simp only [advance, advanceThread, hphase]
    exact hrelated.broadcaster_same hphase nofun nofun rfl (hrelated.lock_same hphase rfl)
      (shared_update s.kernel.mem (.broadcastBroadcastTime run) (stop - start)) rfl rfl fun _ => rfl
  | release _ hphase =>
    cases heff
    refine ⟨trivial, hrel.event (hown.did hguar' trivial) nofun (fun _ => rfl) (fun _ => rfl) ?_⟩
    exact hrelated.broadcaster_same hphase nofun nofun rfl (hrelated.lock_release hphase rfl rfl)
      rfl rfl rfl fun _ => rfl
  | send | recv => cases heff

theorem effect_driver (hinv : (protocol runs mem).Inv s) {r : Req (sig W w)} {a : r.Resp}
    {κ : Kernel (sig W w)}
    (hguar : Guar runs ((protocol runs mem).view s.log .driver).toProgress .driver r)
    (heff : Effect s .driver r a κ) :
    rely r a ∧ Rel mem κ (next runs mem ((protocol runs mem).view s.log) .driver (.did r a)) := by
  have hrel := hinv.rel
  have hown := hrel.own .driver
  have hguar' := hguar
  cases hguar with
  | reset hstage hlt =>
    cases heff
    exact ⟨trivial, hrel.event (hown.did hguar' trivial) nofun (fun _ => rfl)
      (ccnt_update s.kernel.mem 0) (hrel.related.reset hstage)⟩
  | acquire hp | loadStart hp | storeResult hp | release hp | send hp | recv hp =>
    exact absurd rfl hp
  | start | collect | suspend => cases heff

theorem rel_wake (hinv : (protocol runs mem).Inv s) {c : (sig W w).Cond} (hpq : p ≠ q)
    (hp : Guar runs ((protocol runs mem).view s.log p).toProgress p (.wake c))
    (hq : Guar runs ((protocol runs mem).view s.log q).toProgress q (.asleep c)) :
    Rel mem s.kernel
      (next runs mem (next runs mem ((protocol runs mem).view s.log) p (.did (.wake c) (some q))) q
        (.did (.asleep c) ())) := by
  have hrel := hinv.rel
  have hp' := hp
  have hq' := hq
  cases hp with
  | wake hphase =>
  cases hq with
  | @asleep i hasleep =>
  refine hrel.event_two hpq.symm ((hrel.own _).did hp' trivial) ((hrel.own _).did hq' trivial) rfl
    rfl (fun _ => rfl) (fun _ => rfl) (fun _ => rfl) ?_
  have hsame : Function.update (fun u => ((protocol runs mem).view s.log u).toProgress)
      .broadcaster (advance .broadcaster
        ((protocol runs mem).view s.log .broadcaster).toProgress
        (.did (.wake .cv) (some (.waiter i)) : Event (sig W w))) =
      fun u => ((protocol runs mem).view s.log u).toProgress :=
    Function.update_eq_self _ fun u => ((protocol runs mem).view s.log u).toProgress
  rw [hsame]
  exact hrel.related.waiter hasleep nofun nofun rfl (hrel.related.lock_same hasleep rfl) rfl nofun
    nofun nofun

/-- A done message is received by the driver. -/
theorem rel_exchange (hinv : (protocol runs mem).Inv s) {r r' : Req (sig W w)} {a : r.Resp}
    {a' : r'.Resp} {κ : Kernel (sig W w)} (hpq : p ≠ q)
    (hp : Guar runs ((protocol runs mem).view s.log p).toProgress p r)
    (hq : Guar runs ((protocol runs mem).view s.log q).toProgress q r')
    (hex : Exchange s.kernel p q r a r' a' κ) :
    rely r a ∧ rely r' a' ∧
      Rel mem κ (next runs mem (next runs mem ((protocol runs mem).view s.log) p (.did r a)) q
        (.did r' a')) := by
  have hrel := hinv.rel
  cases hex with
  | send e m =>
    have hp' := hp
    have hq' := hq
    cases hp with
    | send hpd hphase =>
    cases hq with
    | collect hstage =>
    refine ⟨trivial, rfl, hrel.event_two hpq.symm ((hrel.own p).did hp' trivial)
      ((hrel.own .driver).did hq' rfl) rfl rfl (fun _ => rfl) (fun _ => rfl) (fun _ => rfl) ?_⟩
    rw [advance_did hpd, advance_collect hstage]
    exact hrel.related.send hpd hphase hstage rfl rfl
  | call e m => cases hp
  | reply m hcaller => cases hp
  | wake c => exact ⟨trivial, trivial, rel_wake hinv hpq hp hq⟩

theorem rel_start (hinv : (protocol runs mem).Inv s) {ℓ : Label W}
    (hguar : Guar runs ((protocol runs mem).view s.log p).toProgress p (.start q ℓ)) :
    atLabel q ℓ (step q ((protocol runs mem).view s.log q) (.started ℓ)).toProgress ∧
      Rel mem (s.kernel.cancel q)
        (next runs mem (next runs mem ((protocol runs mem).view s.log) p (.did (.start q ℓ) ())) q
          (.started ℓ)) := by
  have hrel := hinv.rel
  have hguar' := hguar
  cases hguar with
  | start hqd hstage =>
  have hnew := not_started hqd hstage
  have hphase := hrel.related.resting q hqd hnew
  have hruns := hrel.related.runs q hqd
  rw [hnew, Bool.toNat_false, Nat.add_zero] at hruns
  refine ⟨⟨hqd, ?_, _, ?_, rfl⟩, hrel.event_two hqd ((hrel.own .driver).did hguar' trivial)
    (Own.started (hrel.own q) hqd hphase _) rfl rfl (fun _ => rfl) (fun _ => rfl)
    (fun _ => rfl) ?_⟩
  · refine (congrArg Progress.phase (advance_started hqd _)).trans ?_
    cases q <;> rfl
  · exact (congrArg Progress.runs (advance_started hqd _)).trans (congrArg (· + 1) hruns)
  · rw [advance_started hqd, advance_start hstage]
    exact hrel.related.start hqd hstage

theorem rel_suspend (hinv : (protocol runs mem).Inv s)
    (hguar : Guar runs ((protocol runs mem).view s.log p).toProgress p (.suspend q)) :
    rest runs q (step q ((protocol runs mem).view s.log q) .stopped).toProgress ∧
      Rel mem (s.kernel.cancel q)
        (next runs mem (next runs mem ((protocol runs mem).view s.log) p (.did (.suspend q) ())) q
          .stopped) := by
  have hrel := hinv.rel
  have hguar' := hguar
  cases hguar with
  | suspend hqd hstage hruns =>
  have hphase := hrel.related.resting q hqd (by rw [hstage, started_reset])
  refine ⟨?_, hrel.event_two hqd ((hrel.own .driver).did hguar' trivial)
    (Own.stopped (hrel.own q) hqd hphase) rfl rfl (fun _ => rfl) (fun _ => rfl) (fun _ => rfl) ?_⟩
  · have hrest : (advance q ((protocol runs mem).view s.log q).toProgress
        (.stopped : Event (sig W w))).phase = .rest :=
      (congrArg Progress.phase (advance_stopped q)).trans hphase
    cases q with
    | driver => exact absurd rfl hqd
    | waiter _ | broadcaster => exact hrest
  · rw [advance_stopped]
    have hsame : Function.update (fun u => ((protocol runs mem).view s.log u).toProgress) .driver
        (advance .driver ((protocol runs mem).view s.log .driver).toProgress
          (.did (.suspend q) () : Event (sig W w))) =
        fun u => ((protocol runs mem).view s.log u).toProgress :=
      Function.update_eq_self _ fun u => ((protocol runs mem).view s.log u).toProgress
    rw [hsame, Function.update_eq_self q fun u => ((protocol runs mem).view s.log u).toProgress]
    exact hrel.related.of_kernel rfl rfl

theorem sound (hlabel : ∀ p ℓ v, atLabel p ℓ v.toProgress →
      ((protocol runs mem).spec p).Safe (F ℓ) v) :
    (protocol runs mem).Sound F fun _ _ => True where
  label := hlabel
  own _ _ _ := trivial
  own_started _ := trivial
  own_stopped _ := trivial
  effect {s p r a κ} hinv _ hguar heff := by
    cases p with
    | waiter i => exact effect_waiter hinv hguar heff
    | broadcaster => exact effect_broadcaster hinv hguar heff
    | driver => exact effect_driver hinv hguar heff
  exchange hinv _ := rel_exchange hinv
  start hinv _ _ hguar := ⟨trivial, rel_start hinv hguar⟩
  suspend hinv _ _ hguar := ⟨trivial, rel_suspend hinv hguar⟩

end Sound

/-! ### Progress -/

section Progress

variable {runs : ℕ} {mem : ∀ x, Val W w x} {F : Label W → Prog (sig W w)} {s : State (sig W w)}
  {p : Party W}

/-- A thread in its function can take a step unless it sleeps, if the lock is free where it needs it
and the driver receives its done message. -/
theorem canStep_thread (hinv : (protocol runs mem).Inv s) (hp : p ≠ .driver)
    (hbusy : ((protocol runs mem).view s.log p).phase ≠ .rest)
    (hawake : ((protocol runs mem).view s.log p).phase ≠ .asleep)
    (hfree : ((protocol runs mem).view s.log p).phase = .entry → s.kernel.owner .lock = none)
    (hrecv : ((protocol runs mem).view s.log p).phase = .released →
      ∃ k, s.thread .driver = .op (.recv .doneEp) k) : CanStep F s := by
  have hsafe := hinv.safe p
  cases ht : s.thread p with
  | halt =>
    rw [ht] at hsafe
    cases p with
    | driver => exact absurd rfl hp
    | waiter _ | broadcaster => exact absurd hsafe hbusy
  | jump ℓ => exact .jump ht
  | op r k =>
    have hguar := hinv.guar ht
    cases hguar with
    | acquire _ h => exact .act ht (.acquire _ (hfree h))
    | loadShared => exact .act ht (.load _)
    | sleep => exact .act ht (.sleep _ _)
    | asleep h => exact absurd h hawake
    | clockWaiter | clockSet | clockWoken => exact .act ht (.clock (0 : Ccnt w))
    | storeShared => exact .act ht (.store _ _)
    | storeStart => exact .act ht (.store _ _)
    | loadStart => exact .act ht (.load _)
    | storeResult => exact .act ht (.store _ _)
    | release => exact .act ht (.release _)
    | wake =>
      by_cases hsleeper : ∃ q k, s.thread q = .op (.asleep .cv) k
      · obtain ⟨q, k', hq⟩ := hsleeper
        refine .exchange ht hq (.wake _) ?_
        rintro rfl
        exact absurd (ht.symm.trans hq) nofun
      · exact .act ht (.wakeNone _ fun q k' hq => hsleeper ⟨q, k', hq⟩)
    | send _ h =>
      obtain ⟨k', hd⟩ := hrecv h
      exact .exchange ht hd (.send _ _) hp
    | recv _ h => exact absurd h hbusy
    | reset | start | collect | suspend => exact absurd rfl hp

/-- While the driver waits for done messages, some thread can take a step. -/
theorem canStep_collecting (hinv : (protocol runs mem).Inv s)
    {k : ℕ × Msg → Prog (sig W w)} (hd : s.thread .driver = .op (.recv .doneEp) k) {m : ℕ}
    (hstage : ((protocol runs mem).view s.log .driver).stage = .collecting m) : CanStep F s := by
  have hrel := hinv.rel
  have hrelated := hrel.related
  set g := (protocol runs mem).view s.log with hg
  cases howner : s.kernel.owner .lock with
  | some q =>
    have hhold := (hrelated.lock q).mpr howner
    have hphase : ∀ ph : Phase w, ph.holding = false → (g q).phase ≠ ph := fun ph hph heq => by
      rw [heq, hph] at hhold
      exact Bool.false_ne_true hhold
    have hq : q ≠ .driver := by
      rintro rfl
      exact hphase .rest rfl (hrel.own .driver).idle
    exact canStep_thread hinv hq (hphase _ rfl) (hphase _ rfl)
      (fun heq => absurd heq (hphase _ rfl)) fun _ => ⟨k, hd⟩
  | none =>
    have hbusy : ∃ p, p ≠ .driver ∧ (g p).phase ≠ .rest := by
      by_contra hall
      have hrest : ∀ p, p ≠ .driver → (g p).phase = .rest := fun p hp => by
        by_contra hne
        exact hall ⟨p, hp, hne⟩
      obtain ⟨hle, hm⟩ := hrelated.collecting m hstage
      have hfinished := finished_of_rest hrest
      omega
    obtain ⟨p, hp, hbusy⟩ := hbusy
    by_cases hawake : (g p).phase = .asleep
    · obtain ⟨⟨i, rfl⟩, -⟩ := thread_of_asleep hinv hp hawake
      have hpast := hrelated.asleep i hawake
      have hunwoken : (g .broadcaster).phase.unwoken = true := by
        by_contra hwoken
        refine hpast ⟨?_, Bool.eq_false_iff.mpr hwoken⟩
        rw [hstage]
        rfl
      -- It does not hold the lock, so that it has not begun yet.
      have hentry : (g .broadcaster).phase = .entry := by
        have hfree : (g .broadcaster).phase.holding ≠ true := fun hhold =>
          absurd (howner.symm.trans ((hrelated.lock .broadcaster).mp hhold)) nofun
        cases hb : (g .broadcaster).phase <;> rw [hb] at hfree hunwoken
        case locked | set | timed | waking => exact absurd rfl hfree
        all_goals exact absurd hunwoken nofun
      exact canStep_thread hinv (show Party.broadcaster ≠ .driver by simp) (by rw [hentry]; nofun)
        (by rw [hentry]; nofun) (fun _ => howner) fun _ => ⟨k, hd⟩
    · exact canStep_thread hinv hp hbusy hawake (fun _ => howner) fun _ => ⟨k, hd⟩

/-- Some step is possible until the driver ends. -/
theorem progress (hinv : (protocol runs mem).Inv s) (hfin : s.thread .driver ≠ .halt) :
    CanStep F s := by
  cases hd : s.thread .driver with
  | halt => exact absurd hd hfin
  | jump ℓ => exact .jump hd
  | op r k =>
    have hguar := hinv.guar hd
    cases hguar with
    | reset => exact .act hd (.store _ _)
    | start hp => exact .start hd hp.symm
    | suspend hp => exact .suspend hd hp.symm
    | collect hstage => exact canStep_collecting hinv hd hstage
    | acquire hp | loadStart hp | storeResult hp | release hp | send hp | recv hp =>
      exact absurd rfl hp

end Progress

end Sel4bench.Broadcast
