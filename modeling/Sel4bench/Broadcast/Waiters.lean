import Sel4bench.Broadcast.Protocol
import Sel4bench.Lib.Execution

/-!
# Waiters and broadcaster

The threads of the broadcast benchmark follow the protocol of `Broadcast.Protocol`. So every waiter
leaves its loop after the broadcaster of the same run has set `shared` and written `start`, no
waiter of a run sleeps when the broadcast of the run is complete, and all threads are at rest when
the driver resets `shared`.

## Main results

* `Sel4bench.Broadcast.code_safe` — the threads follow the protocol.
* `Sel4bench.Broadcast.blocked_of_rest` — a thread that waits on `block_ep` cannot continue.
* `Sel4bench.Broadcast.broadcast` — no waiter is lost and the results belong to their runs.
-/

namespace Sel4bench.Broadcast

open Machine
open Sync (Endpoint Lock)
open Support (Msg benchmarkWaitChildren)

variable {W w : ℕ} {runs : ℕ} {mem : ∀ x, Val W w x} {p : Party W} {v : View W w} {run : ℕ}

/-! ### Functions -/

/-- The end of both functions, which do not return. -/
theorem finish_triple (hp : p ≠ .driver) :
    ((protocol runs mem).spec p).Triple (fun v => v.phase = .stored) finish fun _ _ => False := by
  rintro k v hv -
  have hdid := fun (u : Progress w) r a => advance_did (v := u) hp r a
  have hreleased : (step p v (.did (.release .lock) ())).phase = .released :=
    congrArg Progress.phase (hdid v.toProgress (.release .lock) ())
  refine ⟨.release hp hv, fun _ _ => ⟨.send hp hreleased, fun n _ => ⟨.recv hp ?_, fun a ha =>
    ha.elim⟩⟩⟩
  exact congrArg Progress.phase (hdid _ (.send .doneEp .empty) n)

theorem record_triple (hp : p ≠ .driver) {stop : Ccnt w} :
    ((protocol runs mem).spec p).Triple (fun v => v.phase = .clocked stop ∧ v.runs = run + 1)
      (do
        let start ← loadCcnt .start
        storeCcnt (resultOf p run) (stop - start)
        finish) fun _ _ => False := by
  rintro k v ⟨hv, hrun⟩ -
  refine ⟨.loadStart hp hv, fun start _ => ?_⟩
  set v₁ := step p v (.did (.load (.ccnt .start)) start) with hv₁
  have hadvance : v₁.toProgress = { v.toProgress with phase := .loaded stop start } := by
    rw [hv₁, step_progress, advance_did hp]
    simp only [advanceThread, hv]
  have hloaded : v₁.phase = .loaded stop start := congrArg Progress.phase hadvance
  have hruns : v₁.runs = run + 1 := (congrArg Progress.runs hadvance).trans hrun
  refine ⟨.storeResult hp hloaded hruns, fun _ _ => ?_⟩
  refine finish_triple hp k _ ?_ fun _ _ h => h.elim
  have hdid := advance_did (v := v₁.toProgress) hp
    (.store (.ccnt (resultOf p run)) (stop - start)) ()
  refine (congrArg Progress.phase hdid).trans ?_
  simp only [advanceThread, hloaded]

/-- The loop around waiting, and what the waiter does after it. -/
theorem loop_triple {i : Fin W} : ((protocol runs mem).spec (.waiter i)).Triple
    (fun v => v.phase = .locked ∧ v.runs = run + 1)
    (waiterFunc0 (.broadcastWaitTime i run) .loop) fun _ _ => False := by
  have hload : ((protocol runs mem).spec (.waiter i)).Triple
      (fun v => v.phase = .locked ∧ v.runs = run + 1) loadShared fun n v =>
        v.phase = (if n = 0 then .sawZero else .sawSet) ∧ v.runs = run + 1 :=
    fun k v hv hk => ⟨.loadShared hv.1, fun n _ => hk n _ ⟨rfl, hv.2⟩⟩
  refine hload.bind fun n => Spec.Triple.ite (fun hzero => ?_) fun hset => ?_
  · rintro k v ⟨hphase, hruns⟩ -
    rw [if_pos (eq_of_beq hzero)] at hphase
    exact ⟨.sleep hphase, fun _ _ => ⟨.asleep rfl, fun _ _ => ⟨.acquire (by simp) rfl, fun _ _ =>
      ⟨by simp, rfl, run, hruns, rfl⟩⟩⟩⟩
  · rintro k v ⟨hphase, hruns⟩ -
    rw [if_neg (by simpa using hset)] at hphase
    refine ⟨.clockWaiter hphase, fun stop _ => ?_⟩
    refine record_triple (p := .waiter i) (by simp) k _ ⟨?_, hruns⟩ fun _ _ h => h.elim
    refine (congrArg Progress.phase (advance_did (p := .waiter i) (by simp) .clock stop)).trans ?_
    simp only [advanceThread, hphase]

theorem waiterFunc0_safe {i : Fin W} {pt : Point} (hphase : v.phase = phaseAt (.waiter i) pt)
    (hruns : v.runs = run + 1) : ((protocol runs mem).spec (.waiter i)).Safe
      (waiterFunc0 (.broadcastWaitTime i run) pt).run v := by
  cases pt with
  | entry => exact ⟨.acquire (by simp) hphase, fun _ _ => ⟨by simp, rfl, run, hruns, rfl⟩⟩
  | loop => exact loop_triple _ _ ⟨hphase, hruns⟩ fun _ _ h => h.elim

theorem broadcastFunc0_safe {pt : Point} (hphase : v.phase = phaseAt (.broadcaster : Party W) pt)
    (hruns : v.runs = run + 1) : ((protocol runs mem).spec .broadcaster).Safe
      (broadcastFunc0 (.broadcastBroadcastTime run) pt).run v := by
  cases pt with
  | entry =>
    refine ⟨.acquire (by simp) hphase, fun _ _ => ⟨.storeShared rfl, fun _ _ => ⟨.clockSet rfl,
      fun t _ => ⟨.storeStart rfl, fun _ _ => ⟨by simp, rfl, run, hruns, rfl⟩⟩⟩⟩⟩
  | loop =>
    refine ⟨.wake hphase, fun a _ => ?_⟩
    cases a with
    | some q => exact ⟨by simp, hphase, run, hruns, rfl⟩
    | none =>
      refine ⟨.clockWoken rfl, fun stop _ => ?_⟩
      exact record_triple (p := .broadcaster) (by simp) _ _ ⟨rfl, hruns⟩ fun _ _ h => h.elim

theorem code_safe (p : Party W) (ℓ : Label W) (v : View W w) (hv : atLabel p ℓ v.toProgress) :
    ((protocol runs mem).spec p).Safe (code ℓ) v := by
  obtain ⟨f, pt⟩ := ℓ
  obtain ⟨hp, hphase, run, hruns, rfl⟩ := hv
  cases p with
  | waiter i => exact waiterFunc0_safe hphase hruns
  | broadcaster => exact broadcastFunc0_safe hphase hruns
  | driver => exact absurd rfl hp

/-! ### Driver -/

theorem start_triple (hp : p ≠ .driver) : ((protocol runs mem).spec .driver).Triple
    (fun v => v.stage = .starting (position p) ∧ v.runs = run) (Code.start p (entry run p))
    fun _ v => v.stage = (if position p < W then .starting (position p + 1) else .collecting 0) ∧
      v.runs = run := by
  rintro k v ⟨hstage, rfl⟩ hk
  have hnext := advance_start (q := p) hstage (entry v.runs p) ()
  refine ⟨.start hp hstage, fun _ _ => hk _ _ ⟨?_, ?_⟩⟩
  · exact congrArg Progress.stage hnext
  · exact (congrArg Progress.runs hnext).trans rfl

/-- The waiters are started in their order. -/
theorem startWaiters_triple : ((protocol runs mem).spec .driver).Triple
    (fun v => v.stage = .starting 0 ∧ v.runs = run) (startWaiters run)
    fun _ v => v.stage = .starting W ∧ v.runs = run := by
  refine Spec.Triple.loop (fun k _ (v : View W w) => v.stage = .starting k ∧ v.runs = run)
    fun i hi _ => ?_
  rw [dif_pos hi]
  refine (start_triple (p := .waiter ⟨i, hi⟩) (by simp)).conseq (fun v hv => hv) fun _ v hv => ?_
  rwa [position, if_pos hi] at hv

/-- The driver after `m` done messages in a run. -/
def AfterDone (run m : ℕ) (v : View W w) : Prop :=
  if m ≤ W then v.stage = .collecting m ∧ v.runs = run else v.stage = .reset ∧ v.runs = run + 1

/-- The last done message ends the run. -/
theorem benchmarkWaitChildren_triple : ((protocol runs mem).spec .driver).Triple
    (fun v => v.stage = .collecting 0 ∧ v.runs = run)
    (benchmarkWaitChildren Msg.isFault .doneEp (W + 1))
    fun _ v => v.stage = .reset ∧ v.runs = run + 1 := by
  have hloop : ((protocol runs mem).spec .driver).Triple (AfterDone run 0)
      (benchmarkWaitChildren Msg.isFault .doneEp (W + 1)) fun _ => AfterDone run (W + 1) := by
    refine Spec.Triple.loop (fun m _ => AfterDone run m) fun m hm _ => ?_
    rintro k v hv hk
    rw [AfterDone, if_pos (Nat.le_of_lt_succ hm)] at hv
    obtain ⟨hstage, rfl⟩ := hv
    refine ⟨.collect hstage, fun x hx => ?_⟩
    obtain ⟨n, msg⟩ := x
    cases (hx : msg = .empty)
    refine hk () _ ?_
    have hnext := advance_collect (W := W) hstage .doneEp (n, Msg.empty)
    by_cases hlt : m < W
    · rw [if_pos hlt] at hnext
      exact (if_pos hlt).mpr ⟨congrArg Progress.stage hnext,
        (congrArg Progress.runs hnext).trans rfl⟩
    · rw [if_neg hlt] at hnext
      exact (if_neg hlt).mpr ⟨congrArg Progress.stage hnext, congrArg Progress.runs hnext⟩
  refine hloop.conseq (fun v hv => (if_pos (Nat.zero_le W)).mpr hv) fun _ v hv => ?_
  rwa [AfterDone, if_neg (Nat.not_succ_le_self W)] at hv

theorem runBroadcast_triple (hlt : run < runs) : ((protocol runs mem).spec .driver).Triple
    (fun v => v.stage = .reset ∧ v.runs = run) (runBroadcast run)
    fun _ v => v.stage = .reset ∧ v.runs = run + 1 := by
  have hreset : ((protocol runs mem).spec .driver).Triple
      (fun v => v.stage = .reset ∧ v.runs = run) (storeShared 0)
      fun _ v => v.stage = .starting 0 ∧ v.runs = run := by
    rintro k v ⟨hstage, rfl⟩ hk
    exact ⟨.reset hstage hlt, fun _ _ => hk _ _ ⟨rfl, rfl⟩⟩
  have hstart : ((protocol runs mem).spec .driver).Triple
      (fun v => v.stage = .starting W ∧ v.runs = run)
      (Code.start .broadcaster (entry run .broadcaster))
      fun _ v => v.stage = .collecting 0 ∧ v.runs = run := by
    refine (start_triple (p := .broadcaster) (by simp)).conseq (fun v hv => hv) fun _ v hv => ?_
    have hpos : position (.broadcaster : Party W) = W := rfl
    rwa [hpos, if_neg (lt_irrefl W)] at hv
  exact hreset.bind fun _ => startWaiters_triple.bind fun _ => hstart.bind fun _ =>
    benchmarkWaitChildren_triple

/-- All runs of the driver, after which it suspends the threads. -/
theorem benchmarkBroadcast_triple : ((protocol runs mem).spec .driver).Triple
    (fun v => v.stage = .reset ∧ v.runs = 0) (benchmarkBroadcast runs)
    fun _ v => v.stage = .reset ∧ v.runs = runs := by
  have hsuspend : ∀ q : Party W, q ≠ .driver → ((protocol runs mem).spec .driver).Triple
      (fun v => v.stage = .reset ∧ v.runs = runs) (Code.suspend q)
      fun _ v => v.stage = .reset ∧ v.runs = runs := fun q hq k v hv hk =>
    ⟨.suspend hq hv.1 hv.2, fun _ _ => hk _ _ hv⟩
  have hruns : ((protocol runs mem).spec .driver).Triple
      (fun v => v.stage = .reset ∧ v.runs = 0)
      (Code.loop runs () fun run _ => runBroadcast run)
      fun _ v => v.stage = .reset ∧ v.runs = runs :=
    Spec.Triple.loop (fun k _ (v : View W w) => v.stage = .reset ∧ v.runs = k) fun _ hi _ =>
      runBroadcast_triple hi
  refine hruns.bind fun _ => (hsuspend .broadcaster (by simp)).bind fun _ => ?_
  refine Spec.Triple.loop (fun _ _ (v : View W w) => v.stage = .reset ∧ v.runs = runs)
    fun i hi _ => ?_
  rw [dif_pos hi]
  exact hsuspend _ (by simp)

theorem inv_init (runs : ℕ) (mem : ∀ x, Val W w x) : (protocol runs mem).Inv (init runs mem) where
  safe p := by
    cases p with
    | waiter i => exact rfl
    | broadcaster => exact rfl
    | driver => exact benchmarkBroadcast_triple.safe_run ⟨rfl, rfl⟩
  own _ := trivial
  rel := by
    refine ⟨fun p => ?_, ⟨fun p => ⟨nofun, nofun⟩, fun p hp => ?_, fun p _ _ => rfl, nofun, nofun,
      fun _ h => absurd rfl h, nofun, nofun, fun i h => absurd h nofun⟩, fun x => ?_, fun i => ?_⟩
    · cases p with
      | waiter i => exact ⟨⟨rfl, rfl, rfl, rfl, rfl⟩, nofun, nofun, nofun⟩
      | broadcaster => exact ⟨rfl, rfl, rfl, rfl, rfl⟩
      | driver => exact ⟨rfl, rfl⟩
    · cases p <;> rfl
    · cases writer x <;> rfl
    · exact List.nil_prefix

/-! ### Runs -/

theorem inv_of_reach {s : State (sig W w)} (hreach : Reach code (init runs mem) s) :
    (protocol runs mem).Inv s :=
  Protocol.inv_of_run (sound code_safe) (inv_init runs mem) hreach

/-- The number of runs for which a thread has been started. -/
def starts (s : State (sig W w)) (p : Party W) : ℕ := (s.hist p).countP isStarted

/-- What is done `n` times is done once in every run, in the last one perhaps not yet. -/
def OncePerRun (n runs : ℕ) : Prop := n ≤ runs ∧ runs ≤ n + 1

theorem Phase.unset_le_unstamped (ph : Phase w) : ph.unset.toNat ≤ ph.unstamped.toNat := by
  cases ph <;> simp [unset, unstamped]

/-- A thread is started once in every run. -/
theorem oncePerRun_started (n : ℕ) (st : Stage) (p : Party W) :
    OncePerRun (n + (st.started p).toNat) (n + st.running.toNat) := by
  cases st with
  | reset =>
    rw [started_reset]
    exact ⟨le_rfl, Nat.le_succ n⟩
  | starting | collecting =>
    exact ⟨Nat.add_le_add_left (Bool.toNat_le _) n, by simp [Stage.running]⟩

theorem OncePerRun.of_add {n runs : ℕ} {b : Bool} (h : n + b.toNat = runs) : OncePerRun n runs := by
  have hb := b.toNat_le
  exact ⟨by omega, by omega⟩

section Runs

variable {s : State (sig W w)} (hinv : (protocol runs mem).Inv s) {i : Fin W}

include hinv

/-- The number of starts of a thread, in terms of the completed runs. -/
theorem starts_eq (hp : p ≠ .driver) : starts s p =
    ((protocol runs mem).view s.log .driver).runs +
      (((protocol runs mem).view s.log .driver).stage.started p).toNat := by
  have hruns := hinv.rel.related.runs p hp
  have hown := hinv.rel.own p
  have hhist : ((protocol runs mem).view s.log p).hist = s.hist p := records_hist.view _ p
  rw [starts, ← hhist, ← hruns]
  cases p with
  | waiter i => exact hown.numStarts
  | broadcaster => exact hown.numStarts
  | driver => exact absurd rfl hp

/-- A thread that is at rest cannot continue. -/
theorem blocked_of_rest (hp : p ≠ .driver)
    (hphase : ((protocol runs mem).view s.log p).phase = .rest) : Blocked code s p := by
  have hsafe := hinv.safe p
  cases ht : s.thread p with
  | halt => exact blocked_of_halt ht
  | jump ℓ =>
    rw [ht] at hsafe
    obtain ⟨-, hlabel, -⟩ := hsafe
    refine absurd (hphase.symm.trans hlabel) ?_
    cases p <;> cases ℓ.point <;> nofun
  | op r k =>
    have hguar := hinv.guar ht
    cases hguar with
    | recv =>
      -- nobody sends on `block_ep`
      refine blocked_of_recv ht (fun q m k' hq => ?_) fun q m k' hq => ?_
      · cases hinv.guar hq
      · cases hinv.guar hq
    | acquire _ h | loadShared h | sleep h | asleep h | clockWaiter h | loadStart _ h
      | storeResult _ h _ | release _ h | send _ h | storeShared h | clockSet h | storeStart h
      | wake h | clockWoken h => exact absurd (hphase.symm.trans h) nofun
    | reset | start | collect | suspend => exact absurd rfl hp

/-- The results of a waiter are computed from the times of the same runs. -/
theorem result_eq {k : ℕ} (hk : k < (s.hist (.waiter i)).countP isRecorded) : ∃ stop start,
    (clocks (s.hist (.waiter i)))[k]? = some stop ∧
      (stamps (s.hist .broadcaster))[k]? = some start ∧
      s.kernel.mem (.ccnt (.broadcastWaitTime i k)) = stop - start := by
  have hown : Waited i _ := hinv.rel.own (.waiter i)
  have hread := hinv.rel.read i
  have hmem : _ = stored (σ := sig W w) mem (.ccnt (.broadcastWaitTime i k))
    ((protocol runs mem).view s.log (.waiter i)).hist := hinv.rel.mem (.broadcastWaitTime i k)
  have hrecords := hown.numRecords
  rw [records_hist.view_state] at hrecords
  obtain ⟨stop, start, hstop, hstart, hlast⟩ := hown.recorded k (by omega)
  rw [lastCcnt] at hlast
  rw [records_hist.view_state] at hstop hstart
  rw [records_hist.view_state, records_hist.view_state] at hread
  refine ⟨stop, start, hstop, ?_, ?_⟩
  · obtain ⟨t, ht⟩ := hread
    rw [← ht, List.getElem?_append_left (List.getElem?_eq_some_iff.mp hstart).1]
    exact hstart
  · rw [hmem, stored, hlast, Option.getD_some]

/-- What the broadcaster does once in a run, it has done in all runs that are completed. -/
theorem runs_le {n : ℕ} {f : Phase w → Bool} (hf : f .rest = false)
    (hn : n + (f ((protocol runs mem).view s.log .broadcaster).phase).toNat =
      ((protocol runs mem).view s.log .broadcaster).runs) :
    ((protocol runs mem).view s.log .driver).runs ≤ n := by
  have hrelated := hinv.rel.related
  have hruns := hrelated.runs .broadcaster (by simp)
  have hrest := hrelated.resting .broadcaster (by simp)
  set g := (protocol runs mem).view s.log
  have hle := (f (g .broadcaster).phase).toNat_le
  cases hs : (g .driver).stage.started .broadcaster with
  | true =>
    rw [hs, Bool.toNat_true] at hruns
    omega
  | false =>
    rw [hrest hs, hf, Bool.toNat_false] at hn
    rw [hs, Bool.toNat_false] at hruns
    omega

/-- A waiter leaves its loop after the broadcaster has written `start`. -/
theorem lefts_le : (s.hist (.waiter i)).countP isLeft ≤ (stamps (s.hist .broadcaster)).length := by
  have hrelated := hinv.rel.related
  have hown : Waited i _ := hinv.rel.own (.waiter i)
  have hlefts := hown.numLefts
  have hruns := hrelated.runs (.waiter i) (by simp)
  have hle := runs_le hinv rfl (hinv.rel.own .broadcaster).numStamps
  rw [records_hist.view_state] at hlefts hle
  cases hs : ((protocol runs mem).view s.log .driver).stage.started (.waiter i) with
  | false =>
    rw [hs, Bool.toNat_false] at hruns
    omega
  | true =>
    rw [hs, Bool.toNat_true] at hruns
    cases hw : ((protocol runs mem).view s.log (.waiter i)).phase.waiting with
    | true =>
      rw [hw, Bool.toNat_true] at hlefts
      omega
    | false =>
      have hstamps := hinv.rel.numStamps (hrelated.left i hs hw)
      rw [records_hist.view_state] at hstamps
      omega

/-- While a waiter of a run sleeps, the broadcast of the run is not complete. -/
theorem wakes_lt {k : Unit → Prog (sig W w)} (hs : s.thread (.waiter i) = .op (.asleep .cv) k) :
    (s.hist .broadcaster).countP isWoken < starts s (.waiter i) ∧
      (s.hist .broadcaster).countP isDone < starts s (.waiter i) := by
  have hphase : ((protocol runs mem).view s.log (.waiter i)).phase = .asleep := by
    cases hinv.guar hs with
    | asleep h => exact h
  have hrelated := hinv.rel.related
  have hstarted := hrelated.started (p := .waiter i) (by simp) (by rw [hphase]; nofun)
  have hwakes := (hinv.rel.own .broadcaster).numWakes
  have hdones := (hinv.rel.own .broadcaster).numDones
  have hruns := hrelated.runs .broadcaster (by simp)
  have hrest := hrelated.resting .broadcaster (by simp)
  have hasleep := hrelated.asleep i hphase
  rw [starts_eq hinv (by simp), hstarted, Bool.toNat_true]
  rw [records_hist.view_state] at hwakes hdones
  cases hb : ((protocol runs mem).view s.log .driver).stage.started .broadcaster with
  | false =>
    rw [hb, Bool.toNat_false] at hruns
    omega
  | true =>
    have hunwoken : ((protocol runs mem).view s.log .broadcaster).phase.unwoken = true := by
      by_contra hwoken
      exact hasleep ⟨hb, Bool.eq_false_iff.mpr hwoken⟩
    have hbusy : ((protocol runs mem).view s.log .broadcaster).phase.resting = false := by
      rw [← Bool.not_eq_true, Phase.resting_iff]
      intro heq
      rw [heq] at hunwoken
      exact absurd hunwoken nofun
    rw [hb, Bool.toNat_true] at hruns
    rw [hunwoken, Bool.toNat_true] at hwakes
    rw [hbusy, Bool.not_false, Bool.toNat_true] at hdones
    omega

end Runs

/-- **Broadcast.** For any number of waiters, any number of runs and every interleaving: each
thread is started once in every run, and a waiter leaves its loop, and the broadcaster sets `shared`
and writes `start`, once in every run. A waiter that has left its loop in a number of runs does so
after the broadcaster has set `shared` and written `start` in as many runs, and each of its results
is the difference between the time that it has read in the run and the time that the broadcaster has
written in the same run. While a waiter of a run sleeps, the broadcaster has neither completed its
broadcast nor sent its done message in the run. When the driver resets `shared`, the lock is free
and no thread can continue. Some step is possible until the driver ends. -/
theorem broadcast (runs : ℕ) (mem : ∀ x, Val W w x) {s : State (sig W w)}
    (hreach : Reach code (init runs mem) s) :
    (∀ p, p ≠ .driver → OncePerRun (starts s p) ((s.hist .driver).countP isSet)) ∧
    OncePerRun ((s.hist .broadcaster).countP isSet) (starts s .broadcaster) ∧
    OncePerRun (stamps (s.hist .broadcaster)).length (starts s .broadcaster) ∧
    (∀ i, OncePerRun ((s.hist (.waiter i)).countP isLeft) (starts s (.waiter i)) ∧
      OncePerRun (clocks (s.hist (.waiter i))).length (starts s (.waiter i)) ∧
      (s.hist (.waiter i)).countP isLeft ≤ (s.hist .broadcaster).countP isSet ∧
      (s.hist (.waiter i)).countP isLeft ≤ (stamps (s.hist .broadcaster)).length ∧
      (∀ k < (s.hist (.waiter i)).countP isRecorded, ∃ stop start,
        (clocks (s.hist (.waiter i)))[k]? = some stop ∧
          (stamps (s.hist .broadcaster))[k]? = some start ∧
          s.kernel.mem (.ccnt (.broadcastWaitTime i k)) = stop - start) ∧
      ∀ k, s.thread (.waiter i) = .op (.asleep .cv) k →
        (s.hist .broadcaster).countP isWoken < starts s (.waiter i) ∧
          (s.hist .broadcaster).countP isDone < starts s (.waiter i)) ∧
    (∀ n k, s.thread .driver = .op (.store .shared n) k →
      s.kernel.owner .lock = none ∧ ∀ p, p ≠ .driver → Blocked code s p) ∧
    (s.thread .driver ≠ .halt → CanStep code s) := by
  have hinv := inv_of_reach hreach
  have hbroadcaster := hinv.rel.own .broadcaster
  have hstarts : ∀ p, p ≠ .driver →
      starts s p = ((protocol runs mem).view s.log p).runs := fun p hp =>
    (starts_eq hinv hp).trans (hinv.rel.related.runs p hp).symm
  have hnumSets := hbroadcaster.numSets
  have hnumStamps := hbroadcaster.numStamps
  rw [records_hist.view_state, ← hstarts _ (by simp)] at hnumSets hnumStamps
  refine ⟨fun p hp => ?_, .of_add hnumSets, .of_add hnumStamps, fun i => ?_, fun n k hd => ?_,
    progress hinv⟩
  · have hresets : _ = _ + _ := (hinv.rel.own .driver).numResets
    rw [records_hist.view_state] at hresets
    rw [starts_eq hinv hp, hresets]
    exact oncePerRun_started _ _ p
  · have hwaiter : Waited i _ := hinv.rel.own (.waiter i)
    have hlefts := hwaiter.numLefts
    have hclocks := hwaiter.numClocks
    rw [records_hist.view_state, ← hstarts _ (by simp)] at hlefts hclocks
    refine ⟨.of_add hlefts, .of_add hclocks, ?_, lefts_le hinv, fun k hk => result_eq hinv hk,
      fun k hs => wakes_lt hinv hs⟩
    have hle := ((protocol runs mem).view s.log .broadcaster).phase.unset_le_unstamped
    exact (lefts_le hinv).trans (by omega)
  · have hstage : ((protocol runs mem).view s.log .driver).stage = .reset := by
      cases hinv.guar hd with
      | reset hstage => exact hstage
    have hrest : ∀ p, ((protocol runs mem).view s.log p).phase = .rest := fun p => by
      by_cases hp : p = .driver
      · rw [hp]
        exact (hinv.rel.own .driver).idle
      · exact hinv.rel.related.resting p hp (by rw [hstage, started_reset])
    refine ⟨?_, fun p hp => blocked_of_rest hinv hp (hrest p)⟩
    cases ho : s.kernel.owner .lock with
    | none => rfl
    | some p =>
      have hhold := (hinv.rel.related.lock p).mpr ho
      rw [hrest p] at hhold
      exact absurd hhold nofun

/-! ### Two runs -/

/-- All threads. -/
def parties (W : ℕ) : List (Party W) := .driver :: .broadcaster :: (List.finRange W).map .waiter

theorem mem_parties (p : Party W) : p ∈ parties W := by
  cases p <;> simp [parties]

/-- The driver resets `shared` and starts the threads. -/
def startAll : List (Choice (sig 2 64)) := .replicate 4 (.act .driver 0)

/-- A waiter finds `shared` clear and goes to sleep. -/
def goToSleep (i : Fin 2) : List (Choice (sig 2 64)) := .replicate 5 (.act (.waiter i) 0)

/-- The broadcaster writes the time `start`, wakes both waiters and is done at the time `stop`. -/
def broadcastAll (start stop : Ccnt 64) : List (Choice (sig 2 64)) :=
  .replicate 6 (.act .broadcaster start) ++
    [.exchange .broadcaster (.waiter 0), .act .broadcaster 0, .exchange .broadcaster (.waiter 1)] ++
    .replicate 6 (.act .broadcaster stop) ++ [.exchange .broadcaster .driver]

/-- A waiter that has been woken records the time `stop` and is done. -/
def wakeUp (i : Fin 2) (stop : Ccnt 64) : List (Choice (sig 2 64)) :=
  .replicate 7 (.act (.waiter i) stop) ++ [.exchange (.waiter i) .driver]

/-- A run, in which the counter wraps around, and the next one until a waiter sleeps. -/
def twoRuns : List (Choice (sig 2 64)) :=
  startAll ++ goToSleep 0 ++ goToSleep 1 ++ broadcastAll (-10) 5 ++ wakeUp 0 7 ++ wakeUp 1 9 ++
    startAll ++ goToSleep 1

/-- All variables are zero. -/
def zeros : ∀ x, Val W w x
  | .shared => (0 : ℤ)
  | .ccnt _ => (0 : Ccnt w)

theorem exists_twoRuns : ∃ s : State (sig 2 64), Reach code (init 2 zeros) s ∧
    (∃ k, s.thread (.waiter 1) = .op (.asleep .cv) k) ∧
      ∀ i, (s.hist (.waiter i)).countP isRecorded = 1 := by
  let found : State (sig 2 64) → Bool := fun s =>
    (s.thread (.waiter 1)).sleepsOn (σ := sig 2 64) .cv &&
      decide (∀ i, (s.hist (.waiter i)).countP isRecorded = 1)
  have hfound : (execAll code (parties 2) (init 2 zeros) twoRuns).any found = true := by
    decide +kernel
  obtain ⟨s, hs, hP⟩ := exists_reach_of_any (σ := sig 2 64) mem_parties hfound
  obtain ⟨hasleep, hrecorded⟩ := Bool.and_eq_true_iff.mp hP
  exact ⟨s, hs, Prog.exists_of_sleepsOn hasleep, of_decide_eq_true hrecorded⟩

/-- In the second of two runs a waiter sleeps, so that the broadcaster is not done in this run, and
both waiters have recorded a result of the first one. -/
theorem broadcast_twoRuns : ∃ s : State (sig 2 64), Reach code (init 2 zeros) s ∧
    (∃ k, s.thread (.waiter 1) = .op (.asleep .cv) k) ∧
      (s.hist .broadcaster).countP isDone < starts s (.waiter 1) ∧
      ∀ i, ∃ stop start, (clocks (s.hist (.waiter i)))[0]? = some stop ∧
        (stamps (s.hist .broadcaster))[0]? = some start ∧
        s.kernel.mem (.ccnt (.broadcastWaitTime i 0)) = stop - start := by
  obtain ⟨s, hs, ⟨k, hk⟩, hrecorded⟩ := exists_twoRuns
  obtain ⟨-, -, -, hwaiters, -⟩ := broadcast _ _ hs
  refine ⟨s, hs, ⟨k, hk⟩, ?_, fun i => ?_⟩
  · obtain ⟨-, -, -, -, -, hasleep⟩ := hwaiters 1
    exact (hasleep k hk).2
  · obtain ⟨-, -, -, -, hresult, -⟩ := hwaiters i
    exact hresult 0 (by rw [hrecorded i]; exact Nat.one_pos)

end Sel4bench.Broadcast
