import Sel4bench.Smp.Sample

/-!
# The samples of the SMP benchmark

For every test and every number of cores the main program takes its samples while exactly these
cores are running with the delay of the test, and stores them under test and number of cores. The
driver reads the results block with a table whose rows have as many columns as there are cores.

## Main definitions

* `Sel4bench.Smp.Sampled` — the samples of a test and a number of cores, in the log.
* `Sel4bench.Smp.Fits` — the counters do not advance too far in a sample.
* `Sel4bench.Smp.resultsBlock` — the block that the driver gets.

## Main results

* `Sel4bench.Smp.ipcThroughput_ends` — what the main program has stored.
* `Sel4bench.Smp.rows_eq_throughput` — the samples of every row, from the numbers of calls.
-/

namespace Sel4bench.Smp

open Total

variable {sp : SmpParams} {trace : ℕ → ℕ → ℕ}

/-! ### The log -/

theorem running_start (log : List Event) (core : ℕ) :
    running (log ++ [.start core]) = Function.update (running log) core true := by
  rw [running, List.foldl_append]
  rfl

theorem running_suspend (log : List Event) (core : ℕ) :
    running (log ++ [.suspend core]) = Function.update (running log) core false := by
  rw [running, List.foldl_append]
  rfl

theorem running_setDelay (log : List Event) (delay : ℚ) :
    running (log ++ [.setDelay delay]) = running log := by
  rw [running, List.foldl_append]
  rfl

theorem currentDelay_setDelay (log : List Event) (delay : ℚ) :
    currentDelay (log ++ [.setDelay delay]) = delay := by
  rw [currentDelay, List.foldl_append]
  rfl

theorem currentDelay_start (log : List Event) (core : ℕ) :
    currentDelay (log ++ [.start core]) = currentDelay log := by
  rw [currentDelay, List.foldl_append]
  rfl

def Event.isSetDelay : Event → Bool
  | .setDelay _ => true
  | _ => false

/-- The tests that have begun: a test begins when its delay is set. -/
def testsBegun (log : List Event) : ℕ := log.countP Event.isSetDelay

theorem testsBegun_append (log l : List Event) :
    testsBegun (log ++ l) = testsBegun log + testsBegun l := List.countP_append

/-- The actions that neither start nor suspend threads nor set the delay. -/
def Event.Passive : Event → Prop
  | .read _ _ | .wait => True
  | _ => False

theorem foldl_passive {β : Type} {f : β → Event → β} (hf : ∀ b e, e.Passive → f b e = b) (b : β)
    {l : List Event} (h : ∀ e ∈ l, e.Passive) : l.foldl f b = b := by
  induction l with
  | nil => rfl
  | cons e l ih =>
    rw [List.foldl_cons, hf b e (h e List.mem_cons_self)]
    exact ih fun e' he' => h e' (List.mem_cons_of_mem _ he')

theorem running_passive (log : List Event) {l : List Event} (h : ∀ e ∈ l, e.Passive) :
    running (log ++ l) = running log := by
  rw [running, List.foldl_append]
  refine foldl_passive (fun b e he => ?_) _ h
  cases e with
  | read | wait => rfl
  | setDelay | start | suspend => exact he.elim

theorem currentDelay_passive (log : List Event) {l : List Event} (h : ∀ e ∈ l, e.Passive) :
    currentDelay (log ++ l) = currentDelay log := by
  rw [currentDelay, List.foldl_append]
  refine foldl_passive (fun b e he => ?_) _ h
  cases e with
  | read | wait => rfl
  | setDelay | start | suspend => exact he.elim

theorem testsBegun_passive (log : List Event) {l : List Event} (h : ∀ e ∈ l, e.Passive) :
    testsBegun (log ++ l) = testsBegun log := by
  have hnone : testsBegun l = 0 := List.countP_eq_zero.mpr fun e he hset => by
    have hpassive := h e he
    cases e with
    | read | wait => exact absurd hset Bool.false_ne_true
    | setDelay | start | suspend => exact hpassive
  rw [testsBegun_append, hnone, Nat.add_zero]

theorem passive_sampleEvents (n : ℕ) (before after : ℕ → ℕ) :
    ∀ e ∈ sampleEvents n before after, e.Passive := by
  have hread : ∀ calls, ∀ e ∈ readEvents n calls, e.Passive := by
    intro calls e he
    obtain ⟨k, -, rfl⟩ := List.mem_map.mp he
    trivial
  intro e he
  rcases List.mem_append.mp he with he | he
  · rcases List.mem_append.mp he with he | he
    · exact hread before e he
    · rw [List.mem_singleton.mp he]
      trivial
  · exact hread after e he

/-- The actions of the first `n` samples for `cores` cores. -/
def samplesEvents (cores n : ℕ) (before after : ℕ → ℕ → ℕ) : List Event :=
  (List.range n).flatMap fun run => sampleEvents cores (before run) (after run)

theorem samplesEvents_succ (cores n : ℕ) (before after : ℕ → ℕ → ℕ) (b a : ℕ → ℕ) :
    samplesEvents cores (n + 1) (Function.update before n b) (Function.update after n a) =
      samplesEvents cores n before after ++ sampleEvents cores b a := by
  have hsame : samplesEvents cores n (Function.update before n b) (Function.update after n a) =
      samplesEvents cores n before after :=
    List.flatMap_congr fun run hrun => by
      rw [Function.update_of_ne (List.mem_range.mp hrun).ne,
        Function.update_of_ne (List.mem_range.mp hrun).ne]
  rw [← hsame]
  simp [samplesEvents, List.range_succ]

theorem passive_samplesEvents (cores n : ℕ) (before after : ℕ → ℕ → ℕ) :
    ∀ e ∈ samplesEvents cores n before after, e.Passive := by
  intro e he
  obtain ⟨run, -, he⟩ := List.mem_flatMap.mp he
  exact passive_sampleEvents _ _ _ e he

theorem exists_sampleEvents (cores : ℕ) {n run : ℕ} (hrun : run < n) (before after : ℕ → ℕ → ℕ) :
    ∃ l l', samplesEvents cores n before after =
      l ++ sampleEvents cores (before run) (after run) ++ l' := by
  obtain ⟨s, t, hst⟩ := List.append_of_mem (List.mem_range.mpr hrun)
  refine ⟨s.flatMap fun run => sampleEvents cores (before run) (after run),
    t.flatMap fun run => sampleEvents cores (before run) (after run), ?_⟩
  rw [samplesEvents, hst, List.flatMap_append, List.flatMap_cons, List.append_assoc]

/-! ### The main program -/

variable (sp) in
/-- The last test that has begun is `test`, and its delay is set. -/
structure InTest (log : List Event) (test : ℕ) : Prop where
  begun : testsBegun log = test + 1
  delay : currentDelay log = sp.delay test

theorem InTest.start {log : List Event} {test : ℕ} (h : InTest sp log test) (core : ℕ) :
    InTest sp (log ++ [.start core]) test where
  begun := (testsBegun_append _ _).trans h.begun
  delay := (currentDelay_start _ _).trans h.delay

theorem InTest.passive {log l : List Event} {test : ℕ} (h : InTest sp log test)
    (hl : ∀ e ∈ l, e.Passive) : InTest sp (log ++ l) test where
  begun := (testsBegun_passive log hl).trans h.begun
  delay := (currentDelay_passive log hl).trans h.delay

variable (sp) in
/-- The samples of a test and `core + 1` cores, in the log: they follow each other within the test
and the threads of exactly these cores are running. In the sample `run` the core `k` completes the
calls from `before run k` to `after run k`. -/
structure Sampled (log : List Event) (test core : ℕ) (before after : ℕ → ℕ → ℕ) : Prop where
  segment : ∃ pre post, log = pre ++ samplesEvents (core + 1) sp.runs before after ++ post ∧
    InTest sp pre test ∧ ∀ k, running pre k = true ↔ k ≤ core
  le : ∀ run < sp.runs, ∀ k ≤ core, before run k ≤ after run k

variable (sp) in
/-- The samples of a test and `core + 1` cores have been taken and stored. -/
def Recorded (test core : ℕ) (s : World) : Prop :=
  ∃ before after, Sampled sp s.log test core before after ∧
    ∀ run < sp.runs, s.results (resultIndex sp test core run) =
      throughput (core + 1) fun k => after run k - before run k

/-- Samples stay recorded as long as the results are not overwritten. -/
theorem Recorded.mono {test core : ℕ} {s s' : World} (h : Recorded sp test core s)
    (hlog : s.log <+: s'.log) (hresults : ∀ run < sp.runs,
      s'.results (resultIndex sp test core run) = s.results (resultIndex sp test core run)) :
    Recorded sp test core s' := by
  obtain ⟨before, after, ⟨⟨pre, post, hseg, htest, hrunning⟩, hle⟩, hmem⟩ := h
  obtain ⟨more, hmore⟩ := hlog
  refine ⟨before, after, ⟨⟨pre, post ++ more, ?_, htest, hrunning⟩, hle⟩, fun run hrun => ?_⟩
  · rw [← hmore, hseg, List.append_assoc]
  · rw [hresults run hrun, hmem run hrun]

/-- The elements of the results block do not overlap. -/
theorem resultIndex_inj {test test' core core' run run' : ℕ} (hcore : core < sp.maxNumNodes)
    (hcore' : core' < sp.maxNumNodes) (hrun : run < sp.runs) (hrun' : run' < sp.runs)
    (h : resultIndex sp test core run = resultIndex sp test' core' run') :
    test = test' ∧ core = core' ∧ run = run' := by
  have hinj : ∀ {n a a' b b' : ℕ}, b < n → b' < n → a * n + b = a' * n + b' → a = a' ∧ b = b' := by
    intro n a a' b b' hb hb' heq
    have hdiv := (Nat.div_mod_unique (Nat.zero_lt_of_lt hb)).mpr
      ⟨(Nat.add_comm b (n * a)).trans (by rw [Nat.mul_comm]), hb⟩
    have hdiv' := (Nat.div_mod_unique (Nat.zero_lt_of_lt hb')).mpr
      ⟨(Nat.add_comm b' (n * a')).trans (by rw [Nat.mul_comm]), hb'⟩
    rw [heq] at hdiv
    exact ⟨hdiv.1.symm.trans hdiv'.1, hdiv.2.symm.trans hdiv'.2⟩
  obtain ⟨hrow, hrun⟩ := hinj hrun hrun' h
  obtain ⟨htest, hcore⟩ := hinj hcore hcore' hrow
  exact ⟨htest, hcore, hrun⟩

variable (sp) in
/-- After the first `n` samples of a test and `core + 1` cores, which started in `s`. -/
structure Sampling (test core n : ℕ) (s s' : World) : Prop where
  samples : ∃ before after, s'.log = s.log ++ samplesEvents (core + 1) n before after ∧
    (∀ run < n, ∀ k ≤ core, before run k ≤ after run k) ∧
    ∀ run < n, s'.results (resultIndex sp test core run) =
      throughput (core + 1) fun k => after run k - before run k
  others : ∀ x, (∀ run < sp.runs, x ≠ resultIndex sp test core run) → s'.results x = s.results x

theorem Sampling.step {test core n : ℕ} {s s₃ : World} (hcore : core < sp.maxNumNodes)
    (hn : n < sp.runs) (h : Sampling sp test core n s s₃) :
    Ends (do
      let value ← benchmarkMulticoreDoPingPong sp trace (core + 1)
      storeResult sp test core n value) s₃ fun _ => Sampling sp test core (n + 1) s := by
  obtain ⟨⟨before, after, hlog₃, hle₃, hmem₃⟩, hother₃⟩ := h
  refine (doPingPong_ends hcore s₃).bind fun value s₄ h₄ => ?_
  obtain ⟨hresults₄, b, a, hle, hlog₄, rfl⟩ := h₄
  refine Ends.bind (Q := fun _ s' => s₄ = s') (ends_checkIndex hcore rfl) ?_
  rintro _ _ rfl
  refine ends_modify.mpr ⟨⟨Function.update before n b, Function.update after n a, ?_,
    fun run hrun k hk => ?_, fun run hrun => ?_⟩, fun x hx => ?_⟩
  · rw [samplesEvents_succ, ← List.append_assoc, ← hlog₃]
    exact hlog₄
  · by_cases heq : run = n
    · subst heq
      simpa only [Function.update_self] using hle k (by omega)
    · simpa only [Function.update_of_ne heq] using hle₃ run (by omega) k hk
  · by_cases heq : run = n
    · subst heq
      simp only [Function.update_self]
    · have hne : resultIndex sp test core run ≠ resultIndex sp test core n := fun h =>
        heq (resultIndex_inj hcore hcore (by omega) hn h).2.2
      simp only [Function.update_of_ne heq, Function.update_of_ne hne, hresults₄]
      exact hmem₃ run (by omega)
  · simp only [Function.update_of_ne (hx n hn), hresults₄]
    exact hother₃ x hx

theorem Sampling.loop {test core : ℕ} (hcore : core < sp.maxNumNodes) (s : World) :
    Ends ((List.range sp.runs).forM fun it => do
      let value ← benchmarkMulticoreDoPingPong sp trace (core + 1)
      storeResult sp test core it value) s fun _ => Sampling sp test core sp.runs s := by
  refine Ends.forM_range (fun n => Sampling sp test core n s) ?_ fun n hn s₃ h => h.step hcore hn
  exact ⟨⟨fun _ _ => 0, fun _ _ => 0, (List.append_nil _).symm,
    fun run hrun => absurd hrun run.not_lt_zero, fun run hrun => absurd hrun run.not_lt_zero⟩,
    fun _ _ => rfl⟩

/-- The body of the loop over the cores: the samples are recorded, and the results of other tests
and numbers of cores do not change. -/
theorem runCore_ends {test core : ℕ} (hcore : core < sp.maxNumNodes) {s : World}
    (htest : InTest sp s.log test)
    (hrunning : ∀ k, running s.log k = true ↔ k < core) :
    Ends (runCore sp trace test core) s fun _ s' => s.log <+: s'.log ∧
      InTest sp s'.log test ∧ (∀ k, running s'.log k = true ↔ k < core + 1) ∧
      Recorded sp test core s' ∧ ∀ x, (∀ run < sp.runs, x ≠ resultIndex sp test core run) →
        s'.results x = s.results x := by
  refine Ends.bind (Q := fun _ s' => s = s') (ends_checkIndex hcore rfl) ?_
  rintro _ _ rfl
  refine Ends.bind (Q := fun _ s' => s'.log = s.log ++ [.start core] ∧ s'.results = s.results)
    (ends_act.mpr ⟨rfl, rfl⟩) ?_
  rintro _ s₁ ⟨hlog₁, hresults₁⟩
  refine Ends.bind (Q := fun _ s' => s'.log = s.log ++ [.start core] ++ [.wait] ∧
    s'.results = s.results) (ends_act.mpr ⟨?_, hresults₁⟩) ?_
  · simp only [World.record, World.advance, hlog₁]
  rintro _ s₂ ⟨hlog₂, hresults₂⟩
  have hwait : ∀ e ∈ [Event.wait], e.Passive := by simp [Event.Passive]
  have htest₂ : InTest sp s₂.log test := by
    rw [hlog₂]
    exact (htest.start core).passive hwait
  have hrunning₂ : ∀ k, running s₂.log k = true ↔ k < core + 1 := by
    intro k
    rw [hlog₂, running_passive _ hwait, running_start]
    by_cases hk : k = core
    · subst hk
      simp
    · rw [Function.update_of_ne hk, hrunning]
      omega
  have hpre : s.log <+: s₂.log := by
    rw [hlog₂, List.append_assoc]
    exact List.prefix_append _ _
  refine (Sampling.loop hcore s₂).mono fun _ s₃ h => ?_
  obtain ⟨⟨before, after, hlog₃, hle₃, hmem₃⟩, hother₃⟩ := h
  have hpassive := passive_samplesEvents (core + 1) sp.runs before after
  refine ⟨hpre.trans (hlog₃ ▸ List.prefix_append _ _), ?_, fun k => ?_,
    ⟨before, after, ⟨⟨s₂.log, [], ?_, htest₂, fun k => ?_⟩, hle₃⟩, hmem₃⟩, fun x hx => ?_⟩
  · rw [hlog₃]
    exact htest₂.passive hpassive
  · rw [hlog₃, running_passive _ hpassive, hrunning₂]
  · rw [List.append_nil, hlog₃]
  · rw [hrunning₂, Nat.lt_succ_iff]
  · rw [hother₃ x hx, hresults₂]

theorem resetTest_ends {cores : ℕ} (hcores : cores ≤ sp.maxNumNodes) {s : World}
    (hrunning : ∀ k, running s.log k = true ↔ k < cores) :
    Ends (benchmarkMulticoreResetTest sp trace cores) s fun _ s' => s.log <+: s'.log ∧
      testsBegun s'.log = testsBegun s.log ∧ (∀ k, running s'.log k = false) ∧
      s'.results = s.results := by
  refine Ends.mono (Ends.forM_range (fun i s' => s.log <+: s'.log ∧
    testsBegun s'.log = testsBegun s.log ∧ (∀ k, running s'.log k = true ↔ i ≤ k ∧ k < cores) ∧
    s'.results = s.results) ?_ ?_) ?_
  · refine ⟨List.prefix_rfl, rfl, fun k => ?_, rfl⟩
    rw [hrunning, and_iff_right (Nat.zero_le k)]
  · rintro i hi s₁ ⟨hlog, hbegun, hrun, hresults⟩
    refine Ends.bind (Q := fun _ s' => s₁ = s') (ends_checkIndex (hi.trans_le hcores) rfl) ?_
    rintro _ _ rfl
    refine Ends.bind (Q := fun _ s' => s'.log = s₁.log ++ [.suspend i] ∧ s'.results = s₁.results)
      (ends_act.mpr ⟨rfl, rfl⟩) ?_
    rintro _ s₂ ⟨hlog₂, hresults₂⟩
    refine ends_modify.mpr ⟨?_, ?_, fun k => ?_, hresults₂.trans hresults⟩
    · exact hlog.trans (hlog₂ ▸ List.prefix_append _ _)
    · change testsBegun s₂.log = _
      rw [hlog₂, testsBegun_append, hbegun]
      rfl
    · change running s₂.log k = true ↔ _
      rw [hlog₂, running_suspend]
      by_cases hk : k = i
      · subst hk
        simp
      · rw [Function.update_of_ne hk, hrun]
        omega
  · rintro _ s₁ ⟨hlog, hbegun, hrun, hresults⟩
    refine ⟨hlog, hbegun, fun k => ?_, hresults⟩
    rw [Bool.eq_false_iff, ne_eq, hrun]
    omega

variable (sp) in
/-- Between two tests no threads are running, and the samples of the tests that are done are
recorded. -/
structure Done (cores test : ℕ) (s : World) : Prop where
  begun : testsBegun s.log = test
  running : ∀ k, running s.log k = false
  recorded : ∀ i < test, ∀ c < cores, Recorded sp i c s

theorem runTest_ends {cores test : ℕ} (hcores : cores ≤ sp.maxNumNodes) {s : World}
    (h : Done sp cores test s) :
    Ends (runTest sp trace cores test) s fun _ => Done sp cores (test + 1) := by
  refine Ends.bind (Q := fun _ s' => s'.log = s.log ++ [.setDelay (sp.delay test)] ∧
    s'.results = s.results) (ends_act.mpr ⟨rfl, rfl⟩) ?_
  rintro _ s₁ ⟨hlog₁, hresults₁⟩
  refine (Ends.forM_range (fun core s' => InTest sp s'.log test ∧
    (∀ k, running s'.log k = true ↔ k < core) ∧
    ∀ i c, c < cores → i < test ∨ i = test ∧ c < core → Recorded sp i c s') ?_ ?_).bind ?_
  · refine ⟨⟨?_, ?_⟩, fun k => ?_, fun i c hc hi => ?_⟩
    · rw [hlog₁, testsBegun_append, h.begun]
      rfl
    · rw [hlog₁, currentDelay_setDelay]
    · rw [hlog₁, running_setDelay, h.running]
      simp
    · have hi : i < test := hi.resolve_right fun hic => absurd hic.2 c.not_lt_zero
      refine (h.recorded i hi c hc).mono (hlog₁ ▸ List.prefix_append _ _) fun run _ => ?_
      rw [hresults₁]
  · rintro core hcore s₂ ⟨htest, hrunning, hrecorded⟩
    refine (runCore_ends (hcore.trans_le hcores) htest hrunning).mono ?_
    rintro _ s₃ ⟨hlog, htest', hrunning', hrecorded', hother⟩
    refine ⟨htest', hrunning', fun i c hc hi => ?_⟩
    by_cases hic : i = test ∧ c = core
    · obtain ⟨rfl, rfl⟩ := hic
      exact hrecorded'
    · refine (hrecorded i c hc (by omega)).mono hlog fun run hrun => ?_
      refine hother _ fun run' hrun' heq => hic ?_
      obtain ⟨heq, hcore, -⟩ := resultIndex_inj (hc.trans_le hcores) (hcore.trans_le hcores)
        hrun hrun' heq
      exact ⟨heq, hcore⟩
  · rintro _ s₂ ⟨htest, hrunning, hrecorded⟩
    refine (resetTest_ends hcores hrunning).mono ?_
    rintro _ s₃ ⟨hlog, hbegun, hrunning', hresults⟩
    refine ⟨hbegun.trans htest.begun, hrunning', fun i hi c hc => ?_⟩
    refine (hrecorded i c hc (by omega)).mono hlog fun run _ => ?_
    rw [hresults]

/-- **The results of the main program.** It ends, and the samples of all tests and numbers of cores
are recorded. -/
theorem ipcThroughput_ends {cores : ℕ} (hcores : cores ≤ sp.maxNumNodes) (trace : ℕ → ℕ → ℕ)
    (mem : ℕ → Time) :
    Ends (benchmarkMulticoreIpcThroughput sp trace cores) { results := mem } fun _ =>
      Done sp cores sp.tests := by
  refine Ends.bind (Q := fun _ s' => s'.log = [.wait]) (ends_act.mpr rfl) ?_
  intro _ s hlog
  refine Ends.forM_range (fun test => Done sp cores test) ?_ fun test _ s h => runTest_ends hcores h
  refine ⟨?_, fun k => ?_, fun i hi => absurd hi i.not_lt_zero⟩
  · rw [hlog]
    rfl
  · rw [hlog]
    rfl

/-! ### The rows -/

/-- In no sample of the log a core completes `2 ^ 32` calls or more. -/
def Fits (log : List Event) : Prop :=
  ∀ pre post n before after, log = pre ++ sampleEvents n before after ++ post →
    ∀ k < n, after k - before k < 2 ^ 32

variable (sp) in
/-- The results block that the driver gets. -/
def resultsBlock (mem : ℕ → Time) : SmpResults 64 where
  array
    | .benchmarksResult test core => fun run => mem (resultIndex sp test core run)
  fields := ()

/-- The number of calls that `core + 1` cores complete in a sample. -/
def callsCompleted (core : ℕ) (before after : ℕ → ℕ) : ℕ :=
  ∑ k ∈ Finset.range (core + 1), (after k - before k)

/-- The samples of one test and number of cores that fit are exact. -/
theorem Sampled.throughput_eq (hnodes : sp.maxNumNodes ≤ 4) {log : List Event} (hfits : Fits log)
    {test core : ℕ} (hcore : core < sp.maxNumNodes) {before after : ℕ → ℕ → ℕ}
    (h : Sampled sp log test core before after) {run : ℕ} (hrun : run < sp.runs) :
    throughput (core + 1) (fun k => after run k - before run k) =
        BitVec.ofNat 64 (10 * callsCompleted core (before run) (after run)) ∧
      callsCompleted core (before run) (after run) * 1000000000 < 2 ^ 64 ∧
      10 * callsCompleted core (before run) (after run) < 2 ^ 64 := by
  obtain ⟨pre, post, hlog, -⟩ := h.segment
  obtain ⟨l, l', hl⟩ := exists_sampleEvents (core + 1) hrun before after
  have hsmall := hfits (pre ++ l) (l' ++ post) (core + 1) (before run) (after run)
    (by rw [hlog, hl]; simp only [List.append_assoc])
  have hcore : core + 1 ≤ 4 := by omega
  obtain ⟨hvalue, hlt⟩ := Smp.throughput_eq hcore hsmall
  exact ⟨hvalue, sum_mul_lt hcore hsmall, hlt⟩

/-- **The rows of the SMP benchmark.** For up to four nodes, every number of cores, every table of
tests and every trace of calls the main program ends. If no counter advances by `2 ^ 32` or more in
a sample, the driver then emits for every test and number of cores the row that has their labels
and whose samples are ten times the numbers of calls that these cores complete in the samples that
are taken within the test, while they are running with its delay. Nothing overflows: neither the
64-bit product of the number of calls and `NS_IN_S` nor the sample. -/
theorem rows_eq_throughput (cfg : Config) (sp : SmpParams) (hruns : sp.runs < 2 ^ 31)
    (hnodes : sp.maxNumNodes ≤ 4) {cores : ℕ} (hcores : cores ≤ sp.maxNumNodes)
    (trace : ℕ → ℕ → ℕ) (mem : ℕ → Time) :
    ∃ s, benchmarkMulticoreIpcThroughput sp trace cores { results := mem } = some ((), s) ∧
      (Fits s.log →
        let out := processSmpResults cfg sp cores (resultsBlock sp s.results)
        ∃ before after : ℕ → ℕ → ℕ → ℕ → ℕ,
          let calls test core run := callsCompleted core (before test core run)
            (after test core run)
          let samples r := (List.range sp.runs).map fun run =>
            BitVec.ofNat 64 (10 * calls (r / cores) (r % cores) run)
          (∀ test < sp.tests, ∀ core < cores,
            Sampled sp s.log test core (before test core) (after test core) ∧
              ∀ run < sp.runs, calls test core run * 1000000000 < 2 ^ 64 ∧
                10 * calls test core run < 2 ^ 64) ∧
          out.1 = some (.array [.object [("Benchmark", .string "SMP Benchmark"),
            ("Results", .array ((List.range (sp.tests * cores)).map fun r => .object
              ([("Cycles", .integer (jsonIntOfRat (sp.delay (r / cores)))),
                ("Cores", .integer (((r % cores : ℕ) : ℤ) + 1))] ++
                resultToJson cfg out.2.deref
                  (calculateResults (samples r) (smpRawData cores r)))))]]) ∧
          ∀ r < sp.tests * cores,
            (List.range sp.runs).map (out.2.deref (smpRawData cores r)) = samples r) := by
  obtain ⟨s, hs, hdone⟩ := (ipcThroughput_ends hcores trace mem).exists_run
  refine ⟨s, hs, fun hfits => ?_⟩
  have hrecorded : ∀ test core, ∃ before after, test < sp.tests → core < cores →
      Sampled sp s.log test core before after ∧ ∀ run < sp.runs,
        s.results (resultIndex sp test core run) =
          throughput (core + 1) fun k => after run k - before run k := by
    intro test core
    by_cases hlt : test < sp.tests ∧ core < cores
    · obtain ⟨before, after, h⟩ := hdone.recorded test hlt.1 core hlt.2
      exact ⟨before, after, fun _ _ => h⟩
    · exact ⟨fun _ _ => 0, fun _ _ => 0, fun h h' => absurd ⟨h, h'⟩ hlt⟩
  choose before after hsampled using hrecorded
  have hsamples : ∀ r < sp.tests * cores, smpSamples sp cores (resultsBlock sp s.results) r =
      (List.range sp.runs).map fun run => BitVec.ofNat 64 (10 * callsCompleted (r % cores)
        (before (r / cores) (r % cores) run) (after (r / cores) (r % cores) run)) := by
    intro r hr
    have hpos : 0 < cores := Nat.pos_of_mul_pos_left (Nat.zero_lt_of_lt hr)
    have htest : r / cores < sp.tests := Nat.div_lt_of_lt_mul (by rwa [Nat.mul_comm])
    obtain ⟨hsampled, hmem⟩ := hsampled (r / cores) (r % cores) htest (Nat.mod_lt r hpos)
    refine List.map_congr_left fun run hrun => ?_
    have hrun := List.mem_range.mp hrun
    refine (hmem run hrun).trans ?_
    exact (hsampled.throughput_eq hnodes hfits ((Nat.mod_lt r hpos).trans_le hcores) hrun).1
  obtain ⟨hrows, hraw⟩ := processSmpResults_eq cfg sp cores (resultsBlock sp s.results) hruns
  refine ⟨before, after, fun test htest core hcore => ?_, ?_, fun r hr => ?_⟩
  · obtain ⟨hsampled, -⟩ := hsampled test core htest hcore
    exact ⟨hsampled, fun run hrun =>
      (hsampled.throughput_eq hnodes hfits (hcore.trans_le hcores) hrun).2⟩
  · rw [hrows]
    refine congrArg (fun rows => some (Json.array [.object
      [("Benchmark", .string "SMP Benchmark"), ("Results", .array rows)]]))
      (List.map_congr_left fun r hr => ?_)
    rw [hsamples r (List.mem_range.mp hr)]
  · rw [hraw r hr, hsamples r hr]

/-- The calls of a core in an action that reads its counter. -/
def Event.callsOf (k : ℕ) : Event → Option ℕ
  | .read core calls => if core = k then some calls else none
  | _ => none

theorem filterMap_readEvents {n k : ℕ} (hk : k < n) (calls : ℕ → ℕ) :
    (readEvents n calls).filterMap (Event.callsOf k) = [calls k] := by
  induction n with
  | zero => exact absurd hk k.not_lt_zero
  | succ n ih =>
    have hsucc : readEvents (n + 1) calls = readEvents n calls ++ [.read n (calls n)] := by
      simp [readEvents, List.range_succ]
    rw [hsucc, List.filterMap_append]
    by_cases heq : k = n
    · subst heq
      have hnone : (readEvents k calls).filterMap (Event.callsOf k) = [] := by
        refine List.filterMap_eq_nil_iff.mpr fun e he => ?_
        obtain ⟨j, hj, rfl⟩ := List.mem_map.mp he
        exact if_neg (List.mem_range.mp hj).ne
      rw [hnone, List.nil_append]
      exact List.filterMap_cons_some (if_pos rfl)
    · rw [ih (by omega)]
      refine congrArg ([calls k] ++ ·) (List.filterMap_cons_none (if_neg fun h => heq h.symm))

/-- It is enough that no counter advances too far from one of its readings to the next. -/
theorem fits_of_isChain {log : List Event} (h : ∀ k,
    (log.filterMap (Event.callsOf k)).IsChain fun a b => b - a < 2 ^ 32) : Fits log := by
  intro pre post n before after hlog k hk
  have hreads : log.filterMap (Event.callsOf k) = pre.filterMap (Event.callsOf k) ++
      ([before k, after k] ++ post.filterMap (Event.callsOf k)) := by
    rw [hlog, sampleEvents, List.append_assoc, List.filterMap_append, List.filterMap_append,
      List.filterMap_append, List.filterMap_append, filterMap_readEvents hk,
      filterMap_readEvents hk]
    rfl
  have hchain := h k
  rw [hreads] at hchain
  exact (List.isChain_cons_cons.mp hchain.right_of_append).1

/-- Two tests with two runs, on two nodes. -/
def twoRuns : SmpParams where
  runs := 2
  maxNumNodes := 2
  params := [("500 cycles", 500), ("4000 cycles", 4000)]

/-- The actions of the main program when two cores complete `8 * 10 ^ 8` calls between any two of
them. -/
def twoRunsLog : List Event :=
  [.wait, .setDelay 500, .start 0, .wait, .read 0 1600000000, .wait, .read 0 3200000000,
    .read 0 4000000000, .wait, .read 0 5600000000, .start 1, .wait, .read 0 8000000000,
    .read 1 2400000000, .wait, .read 0 10400000000, .read 1 4800000000, .read 0 12000000000,
    .read 1 6400000000, .wait, .read 0 14400000000, .read 1 8800000000, .suspend 0, .suspend 1,
    .setDelay 4000, .start 0, .wait, .read 0 17600000000, .wait, .read 0 19200000000,
    .read 0 20000000000, .wait, .read 0 21600000000, .start 1, .wait, .read 0 24000000000,
    .read 1 12800000000, .wait, .read 0 26400000000, .read 1 15200000000, .read 0 28000000000,
    .read 1 16800000000, .wait, .read 0 30400000000, .read 1 19200000000, .suspend 0, .suspend 1]

theorem log_twoRuns : (benchmarkMulticoreIpcThroughput twoRuns (fun _ _ => 800000000) 2
    { results := fun _ => 0 }).map (fun p => p.2.log) = some twoRunsLog := by
  decide +kernel

/-- Two cores that complete `8 * 10 ^ 8` calls between any two actions, so that their counters
wrap. -/
theorem rows_eq_throughput_twoRuns : ∃ s,
    benchmarkMulticoreIpcThroughput twoRuns (fun _ _ => 800000000) 2 { results := fun _ => 0 } =
        some ((), s) ∧
      Fits s.log ∧ (∃ calls, 2 ^ 32 < calls ∧ .read 0 calls ∈ s.log) ∧
      ∃ calls : ℕ → ℕ → ℕ, (∀ r < 4, ∀ run < 2, calls r run * 1000000000 < 2 ^ 64) ∧
        ∀ r < 4, (List.range 2).map ((processSmpResults .plain twoRuns 2
          (resultsBlock twoRuns s.results)).2.deref (smpRawData 2 r)) =
            (List.range 2).map fun run => BitVec.ofNat 64 (10 * calls r run) := by
  obtain ⟨s, hs, hrows⟩ := rows_eq_throughput .plain twoRuns (by decide) (by decide)
    (show 2 ≤ twoRuns.maxNumNodes by decide) (fun _ _ => 800000000) fun _ => 0
  have hlog := log_twoRuns
  rw [hs, Option.map_some, Option.some_inj] at hlog
  have hfits : Fits s.log := hlog ▸ fits_of_isChain fun k => by
    obtain _ | _ | k := k
    · decide
    · decide
    · exact .nil
  obtain ⟨before, after, hsampled, -, hraw⟩ := hrows hfits
  refine ⟨s, hs, hfits, ⟨5600000000, by decide, hlog ▸ by simp [twoRunsLog]⟩, _,
    fun r hr run hrun => ?_, fun r hr => hraw r hr⟩
  have htest : r / 2 < twoRuns.tests := Nat.div_lt_of_lt_mul hr
  exact ((hsampled (r / 2) htest (r % 2) (Nat.mod_lt _ (by decide))).2 run hrun).1

end Sel4bench.Smp
