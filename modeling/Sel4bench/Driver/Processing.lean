import Sel4bench.Driver.Math

/-!
# Processing raw results

`processing.c` of the driver: `process_result` subtracts an overhead in place from the samples of
a raw array that are not ignored, after an optional check that they are all equal, and computes
their statistics. An array of the shared results block is a function of the index. The
statistics refer to the processed samples by a pointer into the block, so that a later change of
the array is seen by a later reader (`Sel4bench.RawRef`).

The driver functions run in the state monad over the results block (`Sel4bench.Driver`).

## Main definitions

* `Sel4bench.Config` — the build configuration the driver reads.
* `Sel4bench.processResult`, `Sel4bench.processAverageResults`, `Sel4bench.processResultEarlyProc`.
* `Sel4bench.Block`, `Sel4bench.Driver`.

## Main results

* `Sel4bench.resultsStable_iff` — a stable window is constant.
* `Sel4bench.processResult_array` — the array after processing.
* `Sel4bench.processResult_min_isLeast` — the reported minimum.
-/

namespace Sel4bench

variable {w : ℕ} {ρ : Type*}

/-- The configuration of the build and of the platform. -/
structure Config where
  /-- `CONFIG_ALLOW_UNSTABLE_OVERHEAD`. -/
  allowUnstableOverhead : Bool
  /-- `CONFIG_OUTPUT_RAW_RESULTS`. -/
  outputRawResults : Bool
  /-- `seL4_WordBits`, also the width of `size_t`. -/
  wordBits : ℕ
  wordBits_eq : wordBits = 32 ∨ wordBits = 64
  /-- `seL4_MinPrio`. -/
  minPrio : ℕ
  /-- `seL4_MaxPrio`. -/
  maxPrio : ℕ
  /-- `GENERIC_EVENT_NAMES`, of length `SEL4BENCH_NUM_GENERIC_EVENTS`. -/
  genericEventNames : List String

/-- `NUM_AVERAGE_EVENTS`: the generic events and the cycle counter. -/
def Config.numAverageEvents (cfg : Config) : ℕ := cfg.genericEventNames.length + 1

/-- A 64-bit platform without generic events, all options off. -/
def Config.plain : Config where
  allowUnstableOverhead := false
  outputRawResults := false
  wordBits := 64
  wordBits_eq := Or.inr rfl
  minPrio := 0
  maxPrio := 255
  genericEventNames := []

/-- `AVERAGE_RUNS`. -/
def averageRuns : ℕ := 10000

/-- `result_desc_t`. Fields a designated initialiser leaves out are zero. -/
structure ResultDesc (w : ℕ) where
  /-- Error if the result should be stable. -/
  stable : Bool := false
  name : Option String := none
  /-- Overhead to subtract from each result before calculations. -/
  overhead : Ccnt w := 0
  /-- Number of samples to ignore (for cold cache values). -/
  ignored : ℕ := 0

/-- The conversion of an integer to the 32-bit type `int`. -/
def cInt (n : ℤ) : ℤ := (BitVec.ofInt 32 n).toInt

/-- `results_stable`. -/
def resultsStable (array : ℕ → Ccnt w) (size : ℕ) : Bool :=
  (List.range (size - 1)).all fun i => array (i + 1) = array i

/-- The variable `int size = n - desc.ignored` of `process_result`, as a number of samples. No
sample is taken where it is negative; the source then reads out of bounds. -/
def windowSize (n ignored : ℕ) : ℕ := (cInt (n - ignored)).toNat

/-- The loop `for (int i = 0; i < size; i++) array[i] -= desc.overhead`, where `array` has been
advanced to its element `ignored`. -/
def subtractOverhead (array : ℕ → Ccnt w) (ignored size : ℕ) (overhead : Ccnt w) : ℕ → Ccnt w :=
  (List.range size).foldl (fun a i => Function.update a (ignored + i) (a (ignored + i) - overhead))
    array

/-- The samples `array[offset], …, array[offset + size - 1]`. -/
def window (array : ℕ → Ccnt w) (offset size : ℕ) : List (Ccnt w) :=
  (List.range size).map fun i => array (offset + i)

/-- `process_result`: the statistics and the array after the call. The element of index `k` of
the array is found at `addr k`. -/
def processResult (cfg : Config) (n : ℕ) (array : ℕ → Ccnt w) (desc : ResultDesc w)
    (addr : ℕ → ρ) : Result ρ w × (ℕ → Ccnt w) :=
  let size := windowSize n desc.ignored
  if desc.stable && !resultsStable (fun i => array (desc.ignored + i)) size &&
      !cfg.allowUnstableOverhead then
    (Result.zero, array)
  else
    let array' := subtractOverhead array desc.ignored size desc.overhead
    (calculateResults (window array' desc.ignored size) (addr desc.ignored), array')

/-- `process_result_early_proc`. -/
def processResultEarlyProc (cfg : Config) (num sum sum2 : Ccnt w) : Result ρ w :=
  calculateResultsEarlyProc cfg.wordBits num sum sum2

/-! ### The window of a result -/

theorem cInt_natCast {n : ℕ} (h : n < 2 ^ 31) : cInt n = n := by
  have hmod : (BitVec.ofNat 32 n).toNat = n := Nat.mod_eq_of_lt (by omega)
  rw [cInt, BitVec.ofInt_natCast, BitVec.toInt_eq_toNat_of_lt (by omega), hmod]

theorem windowSize_eq {n ignored : ℕ} (h : ignored ≤ n) (hn : n - ignored < 2 ^ 31) :
    windowSize n ignored = n - ignored := by
  rw [windowSize, ← Nat.cast_sub h, cInt_natCast hn, Int.toNat_natCast]

@[simp] theorem length_window (array : ℕ → Ccnt w) (offset size : ℕ) :
    (window array offset size).length = size := by
  simp [window]

theorem mem_window {array : ℕ → Ccnt w} {offset size : ℕ} {x : Ccnt w} :
    x ∈ window array offset size ↔ ∃ i < size, array (offset + i) = x := by
  simp [window]

theorem window_ne_nil {array : ℕ → Ccnt w} {offset size : ℕ} (h : 0 < size) :
    window array offset size ≠ [] := by
  rw [← List.length_pos_iff, length_window]
  exact h

/-- A stable window is constant. -/
theorem resultsStable_iff (array : ℕ → Ccnt w) (size : ℕ) :
    resultsStable array size = true ↔ ∀ i < size, array i = array 0 := by
  simp only [resultsStable, List.all_eq_true, List.mem_range, decide_eq_true_eq]
  constructor
  · intro h i
    induction i with
    | zero => exact fun _ => rfl
    | succ i ih => exact fun hi => (h i (by omega)).trans (ih (by omega))
  · intro h i hi
    rw [h (i + 1) (by omega), h i (by omega)]

theorem subtractOverhead_apply (array : ℕ → Ccnt w) (ignored size : ℕ) (overhead : Ccnt w)
    (k : ℕ) : subtractOverhead array ignored size overhead k =
      if ignored ≤ k ∧ k < ignored + size then array k - overhead else array k := by
  induction size with
  | zero => simp [subtractOverhead]
  | succ size ih =>
    have hsucc : subtractOverhead array ignored (size + 1) overhead =
        Function.update (subtractOverhead array ignored size overhead) (ignored + size)
          (subtractOverhead array ignored size overhead (ignored + size) - overhead) := by
      rw [subtractOverhead, List.range_succ, List.foldl_append]
      rfl
    rw [hsucc, Function.update_apply]
    by_cases hk : k = ignored + size
    · subst hk
      rw [ih, if_pos rfl, if_neg (by omega), if_pos (by omega)]
    · rw [if_neg hk, ih]
      congr 1
      apply propext
      omega

/-! ### What `process_result` returns -/

section ProcessResult

variable (cfg : Config) {n : ℕ} (array : ℕ → Ccnt w) (desc : ResultDesc w) (addr : ℕ → ρ)

/-- The check of `process_result` does not stop it. -/
def Accepted (n : ℕ) : Prop :=
  desc.stable = true → cfg.allowUnstableOverhead = false →
    ∀ i < windowSize n desc.ignored, array (desc.ignored + i) = array desc.ignored

instance (n : ℕ) : Decidable (Accepted cfg array desc n) := by
  unfold Accepted
  infer_instance

/-- An accepted array has the overhead subtracted in its window. -/
theorem processResult_of_accepted (h : Accepted cfg array desc n) :
    processResult cfg n array desc addr =
      (calculateResults (window (subtractOverhead array desc.ignored (windowSize n desc.ignored)
          desc.overhead) desc.ignored (windowSize n desc.ignored)) (addr desc.ignored),
        subtractOverhead array desc.ignored (windowSize n desc.ignored) desc.overhead) := by
  rw [processResult]
  refine if_neg fun hstop => ?_
  simp only [Bool.and_eq_true, Bool.not_eq_true', ← Bool.not_eq_true, resultsStable_iff] at hstop
  exact hstop.1.2 (by simpa using h hstop.1.1 (by simpa using hstop.2))

/-- An array that is not accepted yields the zero record and is left alone. -/
theorem processResult_of_not_accepted (h : ¬Accepted cfg array desc n) :
    processResult cfg n array desc addr = (Result.zero, array) := by
  rw [processResult]
  refine if_pos ?_
  simp only [Accepted, not_forall] at h
  obtain ⟨hstable, hallow, hconst⟩ := h
  simp only [hstable, hallow, Bool.true_and, Bool.not_false, Bool.and_true, Bool.not_eq_true',
    ← Bool.not_eq_true, resultsStable_iff]
  simpa using hconst

/-- The samples of an accepted array after processing. -/
theorem processResult_array (h : Accepted cfg array desc n) {k : ℕ} (hk : desc.ignored ≤ k)
    (hk' : k < desc.ignored + windowSize n desc.ignored) :
    (processResult cfg n array desc addr).2 k = array k - desc.overhead := by
  rw [processResult_of_accepted cfg array desc addr h]
  exact (subtractOverhead_apply ..).trans (if_pos ⟨hk, hk'⟩)

theorem processResult_samples (h : Accepted cfg array desc n) :
    (processResult cfg n array desc addr).1.samples = windowSize n desc.ignored := by
  rw [processResult_of_accepted cfg array desc addr h]
  exact length_window _ _ _

/-- The minimum of a result does not depend on where the array is. -/
theorem processResult_min_addr {ρ' : Type} (addr' : ℕ → ρ') :
    (processResult cfg n array desc addr).1.min = (processResult cfg n array desc addr').1.min := by
  simp only [processResult]
  split <;> rfl

/-- The reported minimum of an accepted array. -/
theorem processResult_min_isLeast (h : Accepted cfg array desc n)
    (hsize : 0 < windowSize n desc.ignored) :
    IsLeast {x | ∃ i < windowSize n desc.ignored, array (desc.ignored + i) - desc.overhead = x}
      (processResult cfg n array desc addr).1.min := by
  have hset : {x | ∃ i < windowSize n desc.ignored, array (desc.ignored + i) - desc.overhead = x} =
      {x | x ∈ window (subtractOverhead array desc.ignored (windowSize n desc.ignored)
        desc.overhead) desc.ignored (windowSize n desc.ignored)} := by
    ext x
    rw [Set.mem_ofPred_eq, Set.mem_ofPred_eq, mem_window]
    refine exists_congr fun i => and_congr_right fun hi => ?_
    rw [subtractOverhead_apply, if_pos (by omega)]
  rw [hset, processResult_of_accepted cfg array desc addr h]
  exact calculateResults_min_isLeast (window_ne_nil hsize) _

end ProcessResult

/-! ### The shared results block -/

/-- A pointer to raw samples: into an array of the results block, or to a copy on the heap, which
is not written after it is made. -/
inductive RawRef (A : Type*) (w : ℕ)
  | block (a : A) (offset : ℕ)
  | heap (data : List (Ccnt w))

/-- A results block: its arrays, named by `A`, and its other fields. -/
structure Block (A S : Type) (w : ℕ) where
  array : A → ℕ → Ccnt w
  fields : S

variable {A S : Type} [DecidableEq A]

/-- The block with one of its arrays replaced. -/
def Block.setArray (blk : Block A S w) (a : A) (v : ℕ → Ccnt w) : Block A S w :=
  { blk with array := Function.update blk.array a v }

omit [DecidableEq A] in
/-- Reading through a pointer, at the time of the call. -/
def Block.deref (blk : Block A S w) : RawRef A w → ℕ → Ccnt w
  | .block a offset => fun i => blk.array a (offset + i)
  | .heap data => fun i => data.getD i 0

@[simp] theorem Block.setArray_fields (blk : Block A S w) (a : A) (v : ℕ → Ccnt w) :
    (blk.setArray a v).fields = blk.fields := rfl

@[simp] theorem Block.setArray_self (blk : Block A S w) (a : A) (v : ℕ → Ccnt w) :
    (blk.setArray a v).array a = v :=
  Function.update_self ..

@[simp] theorem Block.setArray_of_ne (blk : Block A S w) {a a' : A} (h : a' ≠ a)
    (v : ℕ → Ccnt w) : (blk.setArray a v).array a' = blk.array a' :=
  Function.update_of_ne h ..

/-- The driver functions over a results block. -/
abbrev Driver (A S : Type) (w : ℕ) := StateM (Block A S w)

section Run

variable {α β : Type}

omit [DecidableEq A]

@[simp] theorem Driver.bind_apply (x : Driver A S w α) (f : α → Driver A S w β)
    (blk : Block A S w) : (x >>= f) blk = f (x blk).1 (x blk).2 := rfl

@[simp] theorem Driver.pure_apply (v : α) (blk : Block A S w) :
    (pure v : Driver A S w α) blk = (v, blk) := rfl

@[simp] theorem Driver.get_apply (blk : Block A S w) :
    (get : Driver A S w (Block A S w)) blk = (blk, blk) := rfl

end Run

/-- `process_result` on the array `a` of the block. -/
def processArray (cfg : Config) (n : ℕ) (a : A) (desc : ResultDesc w) :
    Driver A S w (Result (RawRef A w) w) := fun blk =>
  let p := processResult cfg n (blk.array a) desc (RawRef.block a)
  (p.1, blk.setArray a p.2)

/-- `process_results` on the arrays `a 0, …, a (ncols - 1)`. -/
def processResults (cfg : Config) (ncols nrows : ℕ) (a : ℕ → A) (desc : ResultDesc w) :
    Driver A S w (List (Result (RawRef A w) w)) :=
  (List.range ncols).mapM fun i => processArray cfg nrows (a i) desc

omit [DecidableEq A] in
/-- `process_results_early_proc`. -/
def processResultsEarlyProc (cfg : Config) (ncols : ℕ) (nums sums sum2s : ℕ → Ccnt w) :
    List (Result (RawRef A w) w) :=
  (List.range ncols).map fun i => processResultEarlyProc cfg (nums i) (sums i) (sum2s i)

/-- `process_average_results` on the table whose rows are the arrays `row 0, …`: every cell is
divided by `AVERAGE_RUNS`, then every column is copied to the heap and processed. -/
def processAverageResults (rows cols : ℕ) (row : ℕ → A) :
    Driver A S w (List (Result (RawRef A w) w)) := do
  (List.range rows).forM fun r => modify fun blk => blk.setArray (row r) fun c =>
    if c < cols then blk.array (row r) c / BitVec.ofNat w averageRuns else blk.array (row r) c
  let blk ← get
  return (List.range cols).map fun col =>
    let rawData := (List.range rows).map fun i => blk.array (row i) col
    calculateResults rawData (.heap rawData)

/-! ### Processing without an overhead -/

section Zero

variable {ρ A S : Type} [DecidableEq A] (cfg : Config) (n : ℕ)

theorem subtractOverhead_zero (array : ℕ → Ccnt w) (ignored size : ℕ) :
    subtractOverhead array ignored size 0 = array := by
  funext k
  rw [subtractOverhead_apply, sub_zero, ite_self]

theorem processResult_array_of_overhead_zero (array : ℕ → Ccnt w) (desc : ResultDesc w)
    (addr : ℕ → ρ) (h : desc.overhead = 0) :
    (processResult cfg n array desc addr).2 = array := by
  by_cases hacc : Accepted cfg array desc n
  · rw [processResult_of_accepted cfg array desc addr hacc, h, subtractOverhead_zero]
  · rw [processResult_of_not_accepted cfg array desc addr hacc]

/-- An array from which nothing is subtracted is left as it is. -/
theorem processArray_block_of_overhead_zero (a : A) (desc : ResultDesc w) (blk : Block A S w)
    (h : desc.overhead = 0) : (processArray cfg n a desc blk).2 = blk := by
  have harray := processResult_array_of_overhead_zero cfg n (blk.array a) desc
    (RawRef.block (w := w) a) h
  simp only [processArray, harray, Block.setArray, Function.update_eq_self]

end Zero

end Sel4bench
