import Sel4bench.Driver.Rows
import Sel4bench.Ipc.Elapsed
import Sel4bench.Ipc.Pairing
import Sel4bench.Overhead.Warmup

/-!
# What the IPC benchmark publishes

`main` of the IPC application measures the overheads, repeating each measurement a few times until
its samples agree, and then runs every benchmark of the table in each of its rounds. The driver
labels the rows with the same table. A published sample is the time between the two stamps of one
message of its own benchmark and round, less the overhead that the benchmark names, whatever the
interleavings of the runs.

## Main definitions

* `Sel4bench.Ipc.measureOverhead` — `MEASURE_OVERHEAD`.
* `Sel4bench.Ipc.Returns`, `Sel4bench.Ipc.Crossing` — what a run returns, and the stamps of a
  message.
* `Sel4bench.Ipc.ipcMain` — the results block that the application leaves.

## Main results

* `Sel4bench.Ipc.measureOverhead_spec`.
* `Sel4bench.Ipc.ipc_published_rows` — from the readings of the counter to the output.
-/

namespace Sel4bench.Ipc

open Machine

variable {w : ℕ}

/-! ### Measuring the overheads -/

/-- `WARMUPS`. -/
def ipcWarmups : ℕ := ipcRuns

/-- `OVERHEAD_RETRIES`. -/
def overheadRetries : ℕ := 4

/-- The readings around the operation of an overhead, by attempt, run and repetition. -/
abbrev OverheadReadings (w : ℕ) := ℕ → ℕ → ℕ → Ccnt w × Ccnt w

/-- The innermost loop of `MEASURE_OVERHEAD`: the variables `start` and `end` are overwritten in
every repetition. -/
def overheadSample (r : ℕ → Ccnt w × Ccnt w) : Ccnt w :=
  let t := (List.range ipcWarmups).foldl (fun _ k => r k) (0, 0)
  t.2 - t.1

/-- The samples of one attempt. -/
def attempt (r : OverheadReadings w) (i j : ℕ) : Ccnt w := overheadSample (r i j)

/-- The loop of `MEASURE_OVERHEAD` over the runs. -/
def measureRuns (r : OverheadReadings w) (i : ℕ) (dest : ℕ → Ccnt w) : ℕ → Ccnt w :=
  (List.range ipcRuns).foldl (fun dest j => Function.update dest j (overheadSample (r i j))) dest

/-- `MEASURE_OVERHEAD`, from the attempt `i` on with `n` attempts left. -/
def measureOverheadFrom (r : OverheadReadings w) : ℕ → ℕ → (ℕ → Ccnt w) → ℕ → Ccnt w
  | _, 0, dest => dest
  | i, n + 1, dest =>
    let dest := measureRuns r i dest
    if resultsStable dest ipcRuns then dest else measureOverheadFrom r (i + 1) n dest

/-- `MEASURE_OVERHEAD`. -/
def measureOverhead (r : OverheadReadings w) (dest : ℕ → Ccnt w) : ℕ → Ccnt w :=
  measureOverheadFrom r 0 overheadRetries dest

/-- All samples of the attempt are equal. -/
def Agrees (r : OverheadReadings w) (i : ℕ) : Prop :=
  ∀ j < ipcRuns, attempt r i j = attempt r i 0

/-- Storing to the elements below `n`, one after the other. -/
theorem foldl_update_apply {α : Type*} (v : ℕ → α) (n : ℕ) (f : ℕ → α) (j : ℕ) :
    (List.range n).foldl (fun f j => Function.update f j (v j)) f j =
      if j < n then v j else f j := by
  induction n with
  | zero => rfl
  | succ n ih =>
    rw [List.range_succ, List.foldl_append, List.foldl_cons, List.foldl_nil, Function.update_apply,
      ih]
    by_cases hj : j = n
    · rw [if_pos hj, if_pos (by omega), hj]
    · rw [if_neg hj]
      congr 1
      exact propext (by omega)

theorem measureRuns_apply (r : OverheadReadings w) (i : ℕ) (dest : ℕ → Ccnt w) {j : ℕ}
    (hj : j < ipcRuns) : measureRuns r i dest j = attempt r i j :=
  (foldl_update_apply _ _ _ j).trans (if_pos hj)

theorem resultsStable_measureRuns (r : OverheadReadings w) (i : ℕ) (dest : ℕ → Ccnt w) :
    resultsStable (measureRuns r i dest) ipcRuns = true ↔ Agrees r i := by
  have hpos : 0 < ipcRuns := by decide
  rw [resultsStable_iff]
  refine forall₂_congr fun j hj => ?_
  rw [measureRuns_apply r i dest hj, measureRuns_apply r i dest hpos]

/-- The attempts before the one that is kept do not agree, and the one that is kept agrees unless it
is the last one. -/
theorem measureOverheadFrom_spec (r : OverheadReadings w) {n : ℕ} (hn : 0 < n) (i : ℕ)
    (dest : ℕ → Ccnt w) : ∃ k, i ≤ k ∧ k < i + n ∧ (∀ i', i ≤ i' → i' < k → ¬Agrees r i') ∧
      (Agrees r k ∨ k + 1 = i + n) ∧
      ∀ j < ipcRuns, measureOverheadFrom r i n dest j = attempt r k j := by
  induction n generalizing i dest with
  | zero => exact absurd hn (lt_irrefl 0)
  | succ n ih =>
    simp only [measureOverheadFrom]
    by_cases hagrees : Agrees r i
    · rw [if_pos ((resultsStable_measureRuns r i dest).mpr hagrees)]
      exact ⟨i, le_rfl, by omega, fun i' h h' => absurd h' (by omega), .inl hagrees,
        fun j hj => measureRuns_apply r i dest hj⟩
    · rw [if_neg fun h => hagrees ((resultsStable_measureRuns r i dest).mp h)]
      rcases Nat.eq_zero_or_pos n with rfl | hpos
      · exact ⟨i, le_rfl, by omega, fun i' h h' => absurd h' (by omega), .inr rfl,
          fun j hj => measureRuns_apply r i dest hj⟩
      · obtain ⟨k, hle, hlt, hbefore, hkept, hdest⟩ := ih hpos (i + 1) (measureRuns r i dest)
        refine ⟨k, by omega, by omega, fun i' h h' => ?_, hkept.imp_right (by omega), hdest⟩
        rcases eq_or_lt_of_le h with rfl | hlt'
        · exact hagrees
        · exact hbefore i' hlt' h'

/-- **`MEASURE_OVERHEAD`** keeps the samples of the first attempt that agrees, or those of the last
one. -/
theorem measureOverhead_spec (r : OverheadReadings w) (dest : ℕ → Ccnt w) :
    ∃ k < overheadRetries, (∀ i < k, ¬Agrees r i) ∧ (Agrees r k ∨ k + 1 = overheadRetries) ∧
      ∀ j < ipcRuns, measureOverhead r dest j = attempt r k j := by
  obtain ⟨k, -, hlt, hbefore, hkept, hdest⟩ :=
    measureOverheadFrom_spec r (n := overheadRetries) (by decide) 0 dest
  rw [Nat.zero_add] at hlt hkept
  exact ⟨k, hlt, fun i hi => hbefore i (Nat.zero_le i) hi, hkept, hdest⟩

/-! ### Running the benchmarks -/

/-- The helper that reads the stamp before the message of a direction. -/
def Dir.sender : Dir → Party
  | .to => .client
  | .from => .server

/-- The helper that reads the stamp after it. -/
def Dir.receiver : Dir → Party
  | .to => .server
  | .from => .client

/-- In some run of a benchmark `start` and `stop` are the stamps before and after the same
message. -/
def Crossing (params : BenchmarkParams) (start stop : Ccnt w) : Prop :=
  ∃ s n, Reach (code w ipcWarmups) (init w params) s ∧
    Stamp params.direction (Dir.sender params.direction)
      (s.hist (Dir.sender params.direction)) n start ∧
    Stamp params.direction (Dir.receiver params.direction)
      (s.hist (Dir.receiver params.direction)) n stop

/-- In some run of a benchmark `run_bench` stores these values through `ret1` and `ret2`. -/
def Returns (params : BenchmarkParams) (ret : Ccnt w × Ccnt w) : Prop :=
  ∃ s, Reach (code w ipcWarmups) (init w params) s ∧
    delivered (s.hist .driver) = [.result ret.1, .result ret.2]

/-- Two lists of two elements that are permutations of each other. -/
theorem eq_or_swap_of_perm {α : Type*} {a b c d : α} (h : [a, b].Perm [c, d]) :
    a = c ∧ b = d ∨ a = d ∧ b = c := by
  have hmem : a ∈ [c, d] := h.mem_iff.mp List.mem_cons_self
  rcases List.mem_cons.mp hmem with rfl | hmem
  · exact .inl ⟨rfl, List.singleton_perm_singleton.mp (List.perm_cons a |>.mp h)⟩
  · obtain rfl := List.mem_singleton.mp hmem
    have hswap := h.trans (List.Perm.swap a c [])
    exact .inr ⟨rfl, List.singleton_perm_singleton.mp (List.perm_cons a |>.mp hswap)⟩

/-- What a run returns are the stamps of one message, in one order or the other. -/
theorem Returns.exists_crossing {params : BenchmarkParams} (hparams : params ∈ benchmarkParams)
    {ret : Ccnt w × Ccnt w} (h : Returns params ret) : ∃ start stop, Crossing params start stop ∧
      recordedTime ret.1 ret.2 = recordedTime stop start := by
  have hpos : 0 < ipcWarmups := by decide
  obtain ⟨s, hreach, hret⟩ := h
  have hperm := delivered_perm hpos hparams hreach
  have hlength := hperm.length_eq
  rw [hret, List.length_append] at hlength
  have hclient := resultsSent_eq hpos hparams hreach (p := .client) nofun
  have hserver := resultsSent_eq hpos hparams hreach (p := .server) nofun
  rcases hclient with hnone | ⟨tc, hclient, hstampc⟩
  · have hle := resultsSent_length_le hpos hparams hreach (p := .server) nofun
    rw [hnone, List.length_nil] at hlength
    simp only [List.length_cons, List.length_nil] at hlength
    omega
  rcases hserver with hnone | ⟨ts, hserver, hstamps⟩
  · rw [hnone, hclient] at hlength
    simp at hlength
  rw [hret, hclient, hserver] at hperm
  have hsame : recordedTime ret.1 ret.2 = recordedTime tc ts := by
    rcases eq_or_swap_of_perm hperm with ⟨h1, h2⟩ | ⟨h1, h2⟩
    · rw [Msg.result.inj h1, Msg.result.inj h2]
    · rw [Msg.result.inj h1, Msg.result.inj h2, recordedTime_comm]
  cases hdir : params.direction with
  | «to» =>
    rw [hdir] at hstampc hstamps
    refine ⟨tc, ts, ⟨s, (shape ipcWarmups params).crossing, hreach, ?_⟩,
      hsame.trans (recordedTime_comm tc ts)⟩
    rw [hdir]
    exact ⟨hstampc, hstamps⟩
  | «from» =>
    rw [hdir] at hstampc hstamps
    refine ⟨ts, tc, ⟨s, (shape ipcWarmups params).crossing, hreach, ?_⟩, hsame⟩
    rw [hdir]
    exact ⟨hstamps, hstampc⟩

/-! ### The application -/

/-- The readings around the operations of the overheads, and what `run_bench` returns, by round and
by index of the benchmark. -/
structure Measurements (w : ℕ) where
  overheads : Overhead → OverheadReadings w
  returned : ℕ → ℕ → Ccnt w × Ccnt w

variable (m : Measurements w)

/-- `measure_overhead`. -/
def measureOverheads (blk : IpcResults w) : IpcResults w :=
  Overhead.all.foldl (fun blk o => blk.setArray (.overheadBenchmarks o)
    (measureOverhead (m.overheads o) (blk.array (.overheadBenchmarks o)))) blk

/-- The benchmark with index `j` in the round `i` of `main`: the variables `end` and `start` are
stored through `ret1` and `ret2`. -/
def runAndStore (i : ℕ) (blk : IpcResults w) (j : ℕ) : IpcResults w :=
  let (stop, start) := m.returned i j
  blk.setArray (.benchmarks j) (Function.update (blk.array (.benchmarks j)) i
    (recordedTime stop start))

/-- A round of `main`. -/
def runRound (blk : IpcResults w) (i : ℕ) : IpcResults w :=
  (List.range benchmarkParams.length).foldl (runAndStore m i) blk

/-- The results block that `main` leaves. -/
def ipcMain (blk : IpcResults w) : IpcResults w :=
  (List.range ipcRuns).foldl (runRound m) (measureOverheads m blk)

variable {m}

theorem foldl_setArray_apply {l : List Overhead} (hl : l.Nodup) (f : Overhead → (ℕ → Ccnt w) →
    ℕ → Ccnt w) (blk : IpcResults w) (o : Overhead) :
    (l.foldl (fun blk o => blk.setArray (.overheadBenchmarks o)
      (f o (blk.array (.overheadBenchmarks o)))) blk).array (.overheadBenchmarks o) =
        if o ∈ l then f o (blk.array (.overheadBenchmarks o))
        else blk.array (.overheadBenchmarks o) := by
  induction l generalizing blk with
  | nil => rfl
  | cons o' l ih =>
    obtain ⟨hnew, hl⟩ := List.nodup_cons.mp hl
    rw [List.foldl_cons, ih hl]
    by_cases ho : o = o'
    · subst ho
      rw [if_neg hnew, if_pos List.mem_cons_self, Block.setArray_self]
    · have hne : IpcArray.overheadBenchmarks o ≠ .overheadBenchmarks o' := fun h =>
        ho (IpcArray.overheadBenchmarks.inj h)
      rw [Block.setArray_of_ne _ hne]
      simp [ho]

theorem measureOverheads_array (blk : IpcResults w) (o : Overhead) :
    (measureOverheads m blk).array (.overheadBenchmarks o) =
      measureOverhead (m.overheads o) (blk.array (.overheadBenchmarks o)) :=
  (foldl_setArray_apply (by decide) (fun o => measureOverhead (m.overheads o)) blk o).trans
    (if_pos (mem_overheadAll o))

/-- What the first `n` rounds have stored. -/
structure Stored (m : Measurements w) (blk : IpcResults w) (n : ℕ) (blk' : IpcResults w) :
    Prop where
  overheads : ∀ o, blk'.array (.overheadBenchmarks o) = blk.array (.overheadBenchmarks o)
  times : ∀ i < n, ∀ j < benchmarkParams.length, blk'.array (.benchmarks j) i =
    recordedTime (m.returned i j).1 (m.returned i j).2

/-- A round stores one time for each benchmark. -/
theorem runRound_array (blk : IpcResults w) (i : ℕ) :
    (∀ o, (runRound m blk i).array (.overheadBenchmarks o) =
        blk.array (.overheadBenchmarks o)) ∧
      ∀ j < benchmarkParams.length, (runRound m blk i).array (.benchmarks j) =
        Function.update (blk.array (.benchmarks j)) i
          (recordedTime (m.returned i j).1 (m.returned i j).2) := by
  suffices h : ∀ n, (∀ o, ((List.range n).foldl (runAndStore m i) blk).array
      (.overheadBenchmarks o) = blk.array (.overheadBenchmarks o)) ∧
      ∀ j, ((List.range n).foldl (runAndStore m i) blk).array (.benchmarks j) = if j < n then
        Function.update (blk.array (.benchmarks j)) i
          (recordedTime (m.returned i j).1 (m.returned i j).2)
        else blk.array (.benchmarks j) from
    ⟨(h _).1, fun j hj => ((h _).2 j).trans (if_pos hj)⟩
  intro n
  induction n with
  | zero => exact ⟨fun _ => rfl, fun _ => rfl⟩
  | succ n ih =>
    obtain ⟨hoverheads, htimes⟩ := ih
    rw [List.range_succ, List.foldl_append, List.foldl_cons, List.foldl_nil]
    refine ⟨fun o => ?_, fun j => ?_⟩
    · have hne : IpcArray.overheadBenchmarks o ≠ .benchmarks n := nofun
      rw [runAndStore, Block.setArray_of_ne _ hne, hoverheads]
    by_cases hj : j = n
    · subst hj
      rw [if_pos (Nat.lt_succ_self j), runAndStore, Block.setArray_self, htimes,
        if_neg (lt_irrefl j)]
    · have hne : IpcArray.benchmarks j ≠ .benchmarks n := fun h => hj (IpcArray.benchmarks.inj h)
      rw [runAndStore, Block.setArray_of_ne _ hne, htimes]
      congr 1
      exact propext (by omega)

theorem stored_ipcMain (blk : IpcResults w) :
    Stored m (measureOverheads m blk) ipcRuns (ipcMain m blk) := by
  suffices h : ∀ n, Stored m (measureOverheads m blk) n
      ((List.range n).foldl (runRound m) (measureOverheads m blk)) from h ipcRuns
  intro n
  induction n with
  | zero => exact ⟨fun _ => rfl, fun i hi => absurd hi i.not_lt_zero⟩
  | succ n ih =>
    rw [List.range_succ, List.foldl_append, List.foldl_cons, List.foldl_nil]
    obtain ⟨hoverheads, htimes⟩ := runRound_array (m := m) ((List.range n).foldl (runRound m)
      (measureOverheads m blk)) n
    refine ⟨fun o => (hoverheads o).trans (ih.overheads o), fun i hi j hj => ?_⟩
    rw [htimes j hj, Function.update_apply]
    split_ifs with heq
    · rw [heq]
    · exact ih.times i (by omega) j hj

/-! ### The rows of the driver -/

/-- The cells of the extra columns in the row of a benchmark. -/
def rowLabels (cfg : Config) (params : BenchmarkParams) : List (String × Json) :=
  [("Function", .string params.name),
    ("Direction", .string (if params.direction = .to then "client->server" else "server->client")),
    ("Client Prio", .integer ((cfg.maxPrio : ℤ) - params.clientPrio)),
    ("Server Prio", .integer ((cfg.maxPrio : ℤ) - params.serverPrio)),
    ("Same vspace?", .bool params.sameVspace), ("IPC length", .integer params.length)]

/-- The rows of a call that returns a result. -/
theorem processIpcResults_rows (cfg : Config) {blk : IpcResults w}
    (h : (processIpcResults cfg blk).1 ≠ none) :
    (processIpcResults cfg blk).1 = some (.array [.object
      [("Benchmark", .string "One way IPC microbenchmarks"),
        ("Results", .array (benchmarkParams.zipIdx.map fun p => .object (rowLabels cfg p.1 ++
          samplesMembers cfg (lateSamples (blk.array (.benchmarks p.2)) ipcRuns 0
            (ipcOverhead cfg (blk.array (.overheadBenchmarks p.1.overheadId)))))))]]) := by
  have hcheck := checkOverheads_of_processIpcResults cfg h
  have hnodup : (benchmarkParams.zipIdx.map fun p => IpcArray.benchmarks p.2).Nodup := by decide
  let desc (p : BenchmarkParams × ℕ) : ResultDesc w :=
    { name := p.1.name
      overhead := ipcOverhead cfg (blk.array (.overheadBenchmarks p.1.overheadId)) }
  have hstable : ∀ p ∈ benchmarkParams.zipIdx, (desc p).stable = false := fun _ _ => rfl
  have hrows := mapM_processArray_rows cfg hnodup hstable (fun _ _ => Nat.zero_le ipcRuns)
    (by decide) blk
  simp only [processIpcResults, returnJson_apply, ipcOutput, Driver.bind_apply, hcheck,
    Driver.pure_apply, appendResultSet, List.nil_append, Option.map_some, Output.toJson,
    List.map_cons, List.map_nil, Emission.toJson]
  rw [resultSetToJson_zipIdx cfg hrows]
  refine congrArg (fun rows => some (Json.array [.object
    [("Benchmark", .string "One way IPC microbenchmarks"), ("Results", .array rows)]]))
    (List.map_congr_left fun p hp => ?_)
  have hget : benchmarkParams[p.2]? = some p.1 := List.mk_mem_zipIdx_iff_getElem?.mp hp
  simp [rowLabels, getJsonCell, hget, desc]

/-- An overhead that is not allowed to be unstable stops the driver. -/
theorem processIpcResults_eq_none_iff (cfg : Config) (blk : IpcResults w) :
    (processIpcResults cfg blk).1 = none ↔ cfg.allowUnstableOverhead = false ∧ ∃ o : Overhead,
      ∃ j, 1 ≤ j ∧ j < ipcRuns ∧
        blk.array (.overheadBenchmarks o) j ≠ blk.array (.overheadBenchmarks o) 1 := by
  have husable : ∀ o, overheadUsable cfg blk o = true ↔ cfg.allowUnstableOverhead = true ∨
      ∀ j, 1 ≤ j → j < ipcRuns →
        blk.array (.overheadBenchmarks o) j = blk.array (.overheadBenchmarks o) 1 := by
    intro o
    rw [overheadUsable, Bool.or_eq_true, resultsStable_iff, or_comm]
    refine or_congr_right ⟨fun h j hj hlt => ?_, fun h k hk => h (1 + k) (by omega) (by omega)⟩
    obtain ⟨k, rfl⟩ := Nat.exists_eq_add_of_le hj
    exact h k (by omega)
  constructor
  · intro hnone
    by_contra hnot
    refine processIpcResults_ne_none cfg (fun o => (husable o).mpr ?_) hnone
    by_contra hunstable
    rw [not_or] at hunstable
    refine hnot ⟨Bool.eq_false_of_not_eq_true hunstable.1, o, ?_⟩
    simpa using hunstable.2
  · rintro ⟨hoff, o, j, hj, hlt, hne⟩
    refine processIpcResults_eq_none cfg blk ⟨o, Bool.eq_false_of_not_eq_true fun h => ?_⟩
    rcases (husable o).mp h with hon | hstable
    · exact Bool.noConfusion (hoff.symm.trans hon)
    · exact hne (hstable j hj hlt)

/-! ### From the readings to the rows -/

/-- **The published rows of the IPC benchmark.** For every measurement of the overheads and all
interleavings of the runs: each overhead has the samples of the first attempt in which they agree,
or those of the last one; the driver returns nothing exactly when it must not accept an unstable
overhead and the samples of one differ from the second on; and otherwise it emits for every
benchmark of the table the row with its labels, whose samples are, round by round, the recorded
times between the two stamps of one message of that benchmark, less the least of the first samples
of the overhead that it names. -/
theorem ipc_published_rows (cfg : Config) (m : Measurements w) (blk : IpcResults w)
    (hreturned : ∀ i < ipcRuns, ∀ j (hj : j < benchmarkParams.length),
      Returns benchmarkParams[j] (m.returned i j)) :
    ∃ (kept : Overhead → ℕ) (overhead : Overhead → Ccnt w) (start stop : ℕ → ℕ → Ccnt w),
      (∀ o, kept o < overheadRetries ∧ (∀ i < kept o, ¬Agrees (m.overheads o) i) ∧
        (Agrees (m.overheads o) (kept o) ∨ kept o + 1 = overheadRetries) ∧
        IsLeast (attempt (m.overheads o) (kept o) '' Set.Iio (ipcRuns - 1)) (overhead o)) ∧
      (∀ i < ipcRuns, ∀ j (hj : j < benchmarkParams.length),
        Crossing benchmarkParams[j] (start i j) (stop i j)) ∧
      let out := (processIpcResults cfg (ipcMain m blk)).1
      (out = none ↔ cfg.allowUnstableOverhead = false ∧ ∃ o : Overhead, ∃ j, 1 ≤ j ∧ j < ipcRuns ∧
        attempt (m.overheads o) (kept o) j ≠ attempt (m.overheads o) (kept o) 1) ∧
      (out ≠ none → out = some (.array [.object
        [("Benchmark", .string "One way IPC microbenchmarks"),
          ("Results", .array (benchmarkParams.zipIdx.map fun p => .object (rowLabels cfg p.1 ++
            samplesMembers cfg ((List.range ipcRuns).map fun i =>
              recordedTime (stop i p.2) (start i p.2) - overhead p.1.overheadId))))]])) := by
  have hstored := stored_ipcMain (m := m) blk
  have hattempt := fun o => measureOverhead_spec (m.overheads o)
    (blk.array (.overheadBenchmarks o))
  choose kept hlt hbefore hkept hsamples using hattempt
  have hoverheads : ∀ o, ∀ j < ipcRuns, (ipcMain m blk).array (.overheadBenchmarks o) j =
      attempt (m.overheads o) (kept o) j := fun o j hj => by
    rw [hstored.overheads, measureOverheads_array, hsamples o j hj]
  have hcross : ∀ i j, ∃ start stop : Ccnt w, i < ipcRuns → ∀ hj : j < benchmarkParams.length,
      Crossing benchmarkParams[j] start stop ∧
        recordedTime (m.returned i j).1 (m.returned i j).2 = recordedTime stop start := by
    intro i j
    by_cases h : i < ipcRuns ∧ j < benchmarkParams.length
    · obtain ⟨start, stop, hcross⟩ :=
        (hreturned i h.1 j h.2).exists_crossing (List.getElem_mem h.2)
      exact ⟨start, stop, fun _ _ => hcross⟩
    · exact ⟨0, 0, fun hi hj => absurd ⟨hi, hj⟩ h⟩
  choose start stop hcrossing using hcross
  refine ⟨kept, fun o => ipcOverhead cfg ((ipcMain m blk).array (.overheadBenchmarks o)), start,
    stop, fun o => ⟨hlt o, hbefore o, hkept o, ?_⟩, fun i hi j hj => (hcrossing i j hi hj).1, ?_,
    fun hne => ?_⟩
  · have hleast := ipcOverhead_isLeast cfg ((ipcMain m blk).array (.overheadBenchmarks o))
    rwa [Set.image_congr fun j hj => hoverheads o j
      ((Set.mem_Iio.mp hj).trans_le (Nat.sub_le _ _))] at hleast
  · rw [processIpcResults_eq_none_iff]
    refine and_congr_right fun _ => exists_congr fun o => exists_congr fun j =>
      and_congr_right fun _ => and_congr_right fun hj => ?_
    rw [hoverheads o j hj, hoverheads o 1 (by decide)]
  · rw [processIpcResults_rows cfg hne]
    refine congrArg (fun rows => some (Json.array [.object
      [("Benchmark", .string "One way IPC microbenchmarks"), ("Results", .array rows)]]))
      (List.map_congr_left fun p hp => ?_)
    have hp2 : p.2 < benchmarkParams.length :=
      (List.getElem?_eq_some_iff.mp (List.mk_mem_zipIdx_iff_getElem?.mp hp)).1
    congr 3
    rw [lateSamples, window, List.map_map]
    refine List.map_congr_left fun i hi => ?_
    have hi := List.mem_range.mp hi
    rw [Function.comp_apply, Nat.zero_add, hstored.times i hi p.2 hp2,
      (hcrossing i p.2 hi hp2).2]

/-- Every benchmark of the table has a run that returns. -/
theorem exists_returns {params : BenchmarkParams} (hparams : params ∈ benchmarkParams) :
    ∃ ret : Ccnt w × Ccnt w, Returns params ret := by
  have hpos : 0 < ipcWarmups := by decide
  obtain ⟨s, hreach, htwo⟩ := exists_reach_delivered (w := w) hpos hparams .refl
  have hperm := delivered_perm hpos hparams hreach
  have hresult : ∀ x ∈ delivered (s.hist .driver), ∃ t : Ccnt w, x = .result t := by
    intro x hx
    rcases List.mem_append.mp (hperm.mem_iff.mp hx) with hx | hx
    · rcases resultsSent_eq hpos hparams hreach (p := .client) nofun with h | ⟨t, h, -⟩
      · exact absurd (h ▸ hx) List.not_mem_nil
      · exact ⟨t, List.mem_singleton.mp (h ▸ hx)⟩
    · rcases resultsSent_eq hpos hparams hreach (p := .server) nofun with h | ⟨t, h, -⟩
      · exact absurd (h ▸ hx) List.not_mem_nil
      · exact ⟨t, List.mem_singleton.mp (h ▸ hx)⟩
  have hle := delivered_length_le hpos hparams hreach
  obtain ⟨a, b, hab⟩ := List.length_eq_two.mp (le_antisymm hle htwo)
  rw [hab] at hresult
  obtain ⟨t, rfl⟩ := hresult a List.mem_cons_self
  obtain ⟨t', rfl⟩ := hresult b (List.mem_cons_of_mem _ List.mem_cons_self)
  exact ⟨(t, t'), s, hreach, hab⟩

/-- With readings of the counter that take no time, the driver publishes nine rows. -/
theorem ipc_published_rows_nine : ∃ (m : Measurements 64) (start stop : ℕ → ℕ → Ccnt 64),
    Crossing benchmarkParams[0] (start 3 0) (stop 3 0) ∧
      (processIpcResults .plain (ipcMain m ⟨fun _ _ => 0, ()⟩)).1 ≠ none := by
  choose ret hret using fun j : Fin benchmarkParams.length =>
    exists_returns (w := 64) (List.getElem_mem j.isLt)
  let m : Measurements 64 :=
    { overheads := fun _ _ _ _ => (0, 0)
      returned := fun _ j => if hj : j < benchmarkParams.length then ret ⟨j, hj⟩ else (0, 0) }
  have hreturned : ∀ i < ipcRuns, ∀ j (hj : j < benchmarkParams.length),
      Returns benchmarkParams[j] (m.returned i j) := fun i _ j hj => by
    rw [show m.returned i j = ret ⟨j, hj⟩ from dif_pos hj]
    exact hret ⟨j, hj⟩
  obtain ⟨kept, overhead, start, stop, -, hcrossing, hnone, -⟩ :=
    ipc_published_rows .plain m ⟨fun _ _ => 0, ()⟩ hreturned
  refine ⟨m, start, stop, hcrossing 3 (by decide) 0 (by decide), fun h => ?_⟩
  obtain ⟨-, o, j, -, -, hne⟩ := hnone.mp h
  exact hne rfl

end Sel4bench.Ipc
