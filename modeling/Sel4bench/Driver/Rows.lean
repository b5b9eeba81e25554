import Sel4bench.Driver.Plan

/-!
# Rows as functions of their samples

A row of the output has the statistics of an array and its raw results, which `result_to_json`
reads through a pointer into the results block. When the pointer shows the samples that the
statistics are of, the row is a function of these samples alone
(`Sel4bench.samplesMembers`), so that the output of a driver function can be compared with what its
application has measured.

## Main definitions

* `Sel4bench.lateSamples` — the samples of an array after processing.
* `Sel4bench.samplesMembers`, `Sel4bench.singleSet` — a row and a result set with one row.

## Main results

* `Sel4bench.processArray_apply` — what processing an array returns and leaves behind.
* `Sel4bench.foldlM_processAppend` — a loop that processes arrays and appends a set for each.
* `Sel4bench.mapM_processArray_rows` — a loop that processes arrays for one set.
* `Sel4bench.averageCounters_rows` — the rows of a table of averages.
-/

namespace Sel4bench

variable {w : ℕ} {ρ : Type*}

/-- The samples of an array with `n` runs, of which the first `ignored` are left out and `overhead`
is subtracted from the others. -/
def lateSamples (array : ℕ → Ccnt w) (n ignored : ℕ) (overhead : Ccnt w) : List (Ccnt w) :=
  (window array ignored (n - ignored)).map (· - overhead)

@[simp] theorem length_lateSamples (array : ℕ → Ccnt w) (n ignored : ℕ) (overhead : Ccnt w) :
    (lateSamples array n ignored overhead).length = n - ignored := by
  rw [lateSamples, List.length_map, length_window]

theorem getD_lateSamples (array : ℕ → Ccnt w) {n ignored i : ℕ} (overhead : Ccnt w)
    (hi : i < n - ignored) :
    (lateSamples array n ignored overhead).getD i 0 = array (ignored + i) - overhead := by
  simp [lateSamples, window, hi]

/-- Only the samples that are not ignored matter. -/
theorem lateSamples_congr {array array' : ℕ → Ccnt w} {n ignored : ℕ} (overhead : Ccnt w)
    (h : ∀ i, ignored ≤ i → i < n → array i = array' i) :
    lateSamples array n ignored overhead = lateSamples array' n ignored overhead := by
  rw [lateSamples, lateSamples, window, window]
  congr 1
  refine List.map_congr_left fun i hi => ?_
  have hi := List.mem_range.mp hi
  exact h _ (by omega) (by omega)

/-- The window that `process_result` takes the statistics of. -/
theorem window_subtractOverhead (array : ℕ → Ccnt w) (n ignored : ℕ) (overhead : Ccnt w) :
    window (subtractOverhead array ignored (n - ignored) overhead) ignored (n - ignored) =
      lateSamples array n ignored overhead := by
  rw [lateSamples, window, window, List.map_map]
  refine List.map_congr_left fun i hi => ?_
  have hi := List.mem_range.mp hi
  exact (subtractOverhead_apply ..).trans (if_pos (by omega))

/-- The least of the samples that are not ignored. -/
theorem isLeast_min_lateSamples (array : ℕ → Ccnt w) {n ignored : ℕ} (h : ignored < n) (p : ρ) :
    IsLeast (array '' Set.Ico ignored n)
      (calculateResults (lateSamples array n ignored 0) p).min := by
  have hsamples : lateSamples array n ignored 0 = window array ignored (n - ignored) := by
    simp [lateSamples]
  have hset : array '' Set.Ico ignored n = {x | x ∈ window array ignored (n - ignored)} := by
    ext x
    rw [Set.mem_ofPred_eq, mem_window]
    constructor
    · rintro ⟨i, ⟨hi, hlt⟩, rfl⟩
      exact ⟨i - ignored, by omega, by rw [Nat.add_sub_cancel' hi]⟩
    · rintro ⟨i, hi, rfl⟩
      exact ⟨ignored + i, ⟨by omega, by omega⟩, rfl⟩
  rw [hsamples, hset]
  exact calculateResults_min_isLeast (window_ne_nil (by omega)) p

/-! ### Rows -/

/-- The members that `result_to_json` adds to the row of these samples. -/
def samplesMembers (cfg : Config) (data : List (Ccnt w)) : List (String × Json) :=
  resultToJson cfg (fun l i => l.getD i 0) (calculateResults data data)

/-- The row of a result whose pointer shows its samples. -/
theorem resultToJson_calculateResults (cfg : Config) {deref : ρ → ℕ → Ccnt w}
    {data : List (Ccnt w)} {p : ρ} (h : ∀ i < data.length, deref p i = data.getD i 0) :
    resultToJson cfg deref (calculateResults data p) = samplesMembers cfg data := by
  have hraw : (List.range data.length).map (fun i => jsonInteger (deref p i).toNat) =
      (List.range data.length).map fun i => jsonInteger (data.getD i 0).toNat :=
    List.map_congr_left fun i hi => by rw [h i (List.mem_range.mp hi)]
  simp only [samplesMembers, resultToJson, calculateResults]
  cases cfg.outputRawResults with
  | false => rfl
  | true => simp only [hraw]

/-- The members that `result_to_json` adds to the row of a measurement with early processing. -/
def earlyMembers (cfg : Config) (num sum sum2 : Ccnt w) : List (String × Json) :=
  resultToJson cfg (fun (_ : Unit) _ => 0) (processResultEarlyProc cfg num sum sum2)

/-- A result of early processing has no raw results. -/
theorem resultToJson_early (cfg : Config) (deref : ρ → ℕ → Ccnt w) (num sum sum2 : Ccnt w) :
    resultToJson cfg deref (processResultEarlyProc cfg num sum sum2) =
      earlyMembers cfg num sum sum2 := by
  simp only [earlyMembers, resultToJson, processResultEarlyProc, calculateResultsEarlyProc,
    Result.zero]
  cases cfg.outputRawResults <;> rfl

/-- The zero record has no raw results. -/
theorem resultToJson_zero (cfg : Config) (deref : ρ → ℕ → Ccnt w) {ρ' : Type*}
    (deref' : ρ' → ℕ → Ccnt w) :
    resultToJson cfg deref Result.zero = resultToJson cfg deref' Result.zero := by
  simp only [resultToJson, Result.zero]
  cases cfg.outputRawResults <;> rfl

/-- A result set without extra columns and with one row. -/
def singleSet (name : String) (members : List (String × Json)) : Json :=
  .object [("Benchmark", .string name), ("Results", .array [.object members])]

theorem resultSetToJson_singleton (cfg : Config) (deref : ρ → ℕ → Ccnt w) (name : String)
    (r : Result ρ w) : resultSetToJson cfg deref { name := name, results := [r] } =
      singleSet name (resultToJson cfg deref r) := rfl

/-! ### Processing an array -/

section ProcessArray

variable {A S : Type} [DecidableEq A] (cfg : Config) {n : ℕ} {a : A} {desc : ResultDesc w}
  {blk : Block A S w}

/-- The block after an accepted array has been processed. -/
def Block.subtract (blk : Block A S w) (a : A) (n ignored : ℕ) (overhead : Ccnt w) :
    Block A S w :=
  blk.setArray a (subtractOverhead (blk.array a) ignored (n - ignored) overhead)

/-- **Processing an accepted array.** -/
theorem processArray_apply (h : Accepted cfg (blk.array a) desc n) (hle : desc.ignored ≤ n)
    (hlt : n < 2 ^ 31) : processArray cfg n a desc blk =
      (calculateResults (lateSamples (blk.array a) n desc.ignored desc.overhead)
        (.block a desc.ignored), blk.subtract a n desc.ignored desc.overhead) := by
  have hsize : windowSize n desc.ignored = n - desc.ignored := windowSize_eq hle (by omega)
  have hresult := processResult_of_accepted cfg (blk.array a) desc (RawRef.block (w := w) a) h
  rw [hsize, window_subtractOverhead] at hresult
  simp only [processArray, hresult, Block.subtract]

/-- The pointer of the result shows the processed samples. -/
theorem deref_subtract (blk : Block A S w) (a : A) {n ignored i : ℕ} (overhead : Ccnt w)
    (hi : i < n - ignored) : (blk.subtract a n ignored overhead).deref (.block a ignored) i =
      (lateSamples (blk.array a) n ignored overhead).getD i 0 := by
  rw [getD_lateSamples _ _ hi, Block.subtract]
  simp only [Block.deref, Block.setArray_self]
  exact (subtractOverhead_apply ..).trans (if_pos (by omega))

/-- The row of a processed array, as long as the array stays as it is. -/
theorem resultToJson_of_array_eq {blk blk' : Block A S w} {ignored : ℕ} {overhead : Ccnt w}
    (h : blk'.array a = (blk.subtract a n ignored overhead).array a) :
    resultToJson cfg blk'.deref
        (calculateResults (lateSamples (blk.array a) n ignored overhead) (.block a ignored)) =
      samplesMembers cfg (lateSamples (blk.array a) n ignored overhead) := by
  refine resultToJson_calculateResults cfg fun i hi => ?_
  rw [length_lateSamples] at hi
  rw [← deref_subtract blk a overhead hi]
  exact congrFun h _

/-- The row of an array that has just been processed. -/
theorem resultToJson_subtract (blk : Block A S w) (a : A) (n ignored : ℕ) (overhead : Ccnt w) :
    resultToJson cfg (blk.subtract a n ignored overhead).deref
        (calculateResults (lateSamples (blk.array a) n ignored overhead) (.block a ignored)) =
      samplesMembers cfg (lateSamples (blk.array a) n ignored overhead) :=
  resultToJson_of_array_eq cfg rfl

omit [DecidableEq A] in
/-- Without the check for stability every array is accepted. -/
theorem accepted_of_stable_eq_false {array : ℕ → Ccnt w} (h : desc.stable = false) (n : ℕ) :
    Accepted cfg array desc n := fun hstable => absurd (hstable.symm.trans h) Bool.noConfusion

omit [DecidableEq A] in
/-- Only the samples that are not ignored matter for the check. -/
theorem accepted_congr {array array' : ℕ → Ccnt w} (hlt : desc.ignored < n) (hn : n < 2 ^ 31)
    (h : ∀ i, desc.ignored ≤ i → i < n → array i = array' i) (hacc : Accepted cfg array desc n) :
    Accepted cfg array' desc n := by
  intro hstable hallow i hi
  have hsize : windowSize n desc.ignored = n - desc.ignored := windowSize_eq hlt.le (by omega)
  have heq := hacc hstable hallow i hi
  rwa [h _ (by omega) (by omega), h _ le_rfl hlt] at heq

theorem Block.subtract_of_ne (blk : Block A S w) {a a' : A} (h : a' ≠ a) (n ignored : ℕ)
    (overhead : Ccnt w) : (blk.subtract a n ignored overhead).array a' = blk.array a' :=
  Block.setArray_of_ne blk h _

@[simp] theorem Block.subtract_fields (blk : Block A S w) (a : A) (n ignored : ℕ)
    (overhead : Ccnt w) : (blk.subtract a n ignored overhead).fields = blk.fields := rfl

/-- Processing an array and appending a set with its row. -/
def processAppend (n : ℕ) (desc : ResultDesc w) (array : Output A S w) (name : String) (a : A) :
    Driver A S w (Output A S w) := do
  let result ← processArray cfg n a desc
  appendResultSet array { name := name, results := [result] }

section Post

variable {α : Type} {Q : α → Block A S w → Prop} {array : Output A S w} {name : String}

theorem post_processArray_apply {k : Result (RawRef A w) w → Driver A S w α}
    (h : Accepted cfg (blk.array a) desc n) (hle : desc.ignored ≤ n) (hlt : n < 2 ^ 31)
    (hQ : Post (k (calculateResults (lateSamples (blk.array a) n desc.ignored desc.overhead)
      (.block a desc.ignored))) (blk.subtract a n desc.ignored desc.overhead) Q) :
    Post (processArray cfg n a desc >>= k) blk Q := by
  rw [post_bind, Post, processArray_apply cfg h hle hlt]
  exact hQ

/-- The rule of processing an array from which nothing is subtracted. -/
theorem post_processArray_zero {k : Result (RawRef A w) w → Driver A S w α}
    (hoverhead : desc.overhead = 0)
    (hQ : Post (k (processResult cfg n (blk.array a) desc (RawRef.block a)).1) blk Q) :
    Post (processArray cfg n a desc >>= k) blk Q := by
  rw [post_bind, Post, processArray_block_of_overhead_zero cfg n a desc blk hoverhead]
  exact hQ

omit [DecidableEq A] in
theorem post_appendRow {k : Output A S w → Driver A S w α} {r : Result (RawRef A w) w}
    {members : List (String × Json)} (hr : resultToJson cfg blk.deref r = members)
    (hQ : ∀ array' : Output A S w, array'.map (Emission.toJson cfg) =
      array.map (Emission.toJson cfg) ++ [singleSet name members] → Post (k array') blk Q) :
    Post (appendResultSet array { name := name, results := [r] } >>= k) blk Q := by
  refine hQ _ ?_
  rw [List.map_append, ← hr, ← resultSetToJson_singleton]
  rfl

/-- The rule of processing an accepted array and appending a set with its row. -/
theorem post_processArray_append {k : Result (RawRef A w) w → Output A S w → Driver A S w α}
    (h : Accepted cfg (blk.array a) desc n) (hle : desc.ignored ≤ n) (hlt : n < 2 ^ 31)
    (hQ : ∀ array' : Output A S w, array'.map (Emission.toJson cfg) =
      array.map (Emission.toJson cfg) ++ [singleSet name
        (samplesMembers cfg (lateSamples (blk.array a) n desc.ignored desc.overhead))] →
      Post (k (calculateResults (lateSamples (blk.array a) n desc.ignored desc.overhead)
        (.block a desc.ignored)) array') (blk.subtract a n desc.ignored desc.overhead) Q) :
    Post (processArray cfg n a desc >>= fun result =>
      appendResultSet array { name := name, results := [result] } >>= k result) blk Q :=
  post_processArray_apply cfg h hle hlt
    (post_appendRow cfg (resultToJson_subtract cfg blk a n desc.ignored desc.overhead) hQ)

omit [DecidableEq A] in
/-- The rule of appending a set with a row of early processing. -/
theorem post_appendEarly {k : Output A S w → Driver A S w α} {num sum sum2 : Ccnt w}
    (hQ : ∀ array' : Output A S w, array'.map (Emission.toJson cfg) =
      array.map (Emission.toJson cfg) ++ [singleSet name (earlyMembers cfg num sum sum2)] →
        Post (k array') blk Q) :
    Post (appendResultSet array
      { name := name, results := [processResultEarlyProc cfg num sum sum2] } >>= k) blk Q :=
  post_appendRow cfg (resultToJson_early cfg blk.deref num sum sum2) hQ

end Post

theorem processAppend_apply (h : Accepted cfg (blk.array a) desc n) (hle : desc.ignored ≤ n)
    (hlt : n < 2 ^ 31) (array : Output A S w) (name : String) :
    (processAppend cfg n desc array name a blk).1.map (Emission.toJson cfg) =
        array.map (Emission.toJson cfg) ++ [singleSet name
          (samplesMembers cfg (lateSamples (blk.array a) n desc.ignored desc.overhead))] ∧
      (processAppend cfg n desc array name a blk).2 =
        blk.subtract a n desc.ignored desc.overhead := by
  rw [processAppend, Driver.bind_apply, processArray_apply cfg h hle hlt, ← resultToJson_subtract,
    ← resultSetToJson_singleton]
  exact ⟨List.map_append, rfl⟩

/-- **A loop over different arrays.** Each set has the row of its own array. -/
theorem foldlM_processAppend {l : List (String × A)} (hl : (l.map Prod.snd).Nodup)
    (hstable : desc.stable = false) (hle : desc.ignored ≤ n) (hlt : n < 2 ^ 31)
    (array : Output A S w) (blk : Block A S w) :
    (l.foldlM (fun array r => processAppend cfg n desc array r.1 r.2) array blk).1.map
        (Emission.toJson cfg) = array.map (Emission.toJson cfg) ++ l.map fun r => singleSet r.1
          (samplesMembers cfg (lateSamples (blk.array r.2) n desc.ignored desc.overhead)) := by
  induction l generalizing array blk with
  | nil => exact (List.append_nil _).symm
  | cons r l ih =>
    rw [List.map_cons, List.nodup_cons] at hl
    obtain ⟨hr, hl⟩ := hl
    have hacc : Accepted cfg (blk.array r.2) desc n := accepted_of_stable_eq_false cfg hstable n
    obtain ⟨harray, hblock⟩ := processAppend_apply cfg hacc hle hlt array r.1
    rw [List.foldlM_cons, Driver.bind_apply, ih hl, harray, hblock, List.append_assoc,
      List.map_cons]
    refine congrArg (array.map (Emission.toJson cfg) ++ _ :: ·)
      (List.map_congr_left fun r' hr' => ?_)
    have hne : r'.2 ≠ r.2 := fun h => hr (h ▸ List.mem_map_of_mem hr')
    rw [Block.subtract_of_ne blk hne]

/-- **A loop over different arrays, for one set.** Each row is that of its own array. -/
theorem mapM_processArray_rows {ι : Type} {f : ι → A} {desc : ι → ResultDesc w} {l : List ι}
    (hl : (l.map f).Nodup) (hstable : ∀ i ∈ l, (desc i).stable = false)
    (hle : ∀ i ∈ l, (desc i).ignored ≤ n) (hlt : n < 2 ^ 31) (blk : Block A S w) :
    let x : Driver A S w _ := l.mapM fun i => processArray cfg n (f i) (desc i)
    (x blk).1.map (resultToJson cfg (x blk).2.deref) = l.map fun i => samplesMembers cfg
      (lateSamples (blk.array (f i)) n (desc i).ignored (desc i).overhead) := by
  intro x
  obtain ⟨hresults, harrays⟩ := mapM_processArray desc cfg n hl blk
  rw [hresults, List.map_map]
  refine List.map_congr_left fun i hi => ?_
  have hacc : Accepted cfg (blk.array (f i)) (desc i) n :=
    accepted_of_stable_eq_false cfg (hstable i hi) n
  have happly := processArray_apply cfg hacc (hle i hi) hlt
  have hresult := congrArg Prod.fst happly
  have harray : (x blk).2.array (f i) =
      (blk.subtract (f i) n (desc i).ignored (desc i).overhead).array (f i) := by
    rw [harrays i hi, ← processArray_array, happly]
  rw [Function.comp_apply]
  exact (congrArg _ hresult).trans (resultToJson_of_array_eq cfg harray)

omit [DecidableEq A] in
/-- The index of a row is that of the element it comes from. -/
theorem zipIdx_map_zipIdx {ι β : Type*} (g : ι × ℕ → β) (l : List ι) :
    (l.zipIdx.map g).zipIdx = l.zipIdx.map fun p => (g p, p.2) := by
  refine List.ext_getElem (by simp) fun i h1 h2 => ?_
  simp

/-! ### Averages -/

/-- The block after the loop that divides the cells of a table. -/
theorem post_divideRows {row : ℕ → A} (hrow : Function.Injective row) (rows cols : ℕ)
    (blk : Block A S w) :
    Post ((List.range rows).forM fun r => modify fun blk => blk.setArray (row r) fun c =>
      if c < cols then blk.array (row r) c / BitVec.ofNat w averageRuns
      else blk.array (row r) c) blk fun _ blk' => (∀ i < rows, ∀ c < cols,
        blk'.array (row i) c = blk.array (row i) c / BitVec.ofNat w averageRuns) ∧
        ∀ i, rows ≤ i → blk'.array (row i) = blk.array (row i) := by
  refine post_forM_range (fun n blk' => (∀ i < n, ∀ c < cols,
    blk'.array (row i) c = blk.array (row i) c / BitVec.ofNat w averageRuns) ∧
    ∀ i, n ≤ i → blk'.array (row i) = blk.array (row i))
    ⟨fun i hi => absurd hi i.not_lt_zero, fun _ _ => rfl⟩ ?_
  rintro n - blk' ⟨hdone, hrest⟩
  refine ⟨fun i hi c hc => ?_, fun i hi => ?_⟩
  · by_cases heq : i = n
    · subst heq
      refine (congrFun (Block.setArray_self ..) c).trans ((if_pos hc).trans ?_)
      rw [hrest i le_rfl]
    · refine (congrFun (Block.setArray_of_ne _ (fun h => heq (hrow h)) _) c).trans ?_
      exact hdone i (by omega) c hc
  · refine (Block.setArray_of_ne _ (fun h => ?_) _).trans (hrest i (by omega))
    exact absurd (hrow h) (by omega)

/-- **The rows of a table of averages.** The row of an event is that of its column. -/
theorem averageCounters_rows {row : ℕ → A} (hrow : Function.Injective row) (rows : ℕ)
    (array : Output A S w) (name : String) (blk : Block A S w) :
    Post (processAverageResults rows cfg.numAverageEvents row >>=
      appendAverageCounters array name) blk fun array' _ => array'.map (Emission.toJson cfg) =
        array.map (Emission.toJson cfg) ++ [.object [("Benchmark", .string name),
          ("Results", .array ((cfg.genericEventNames ++ ["Cycle counter"]).zipIdx.map fun r =>
            .object (("Event", .string r.1) ::
              samplesMembers cfg (averageColumn blk row rows r.2))))]] := by
  rw [post_bind, processAverageResults, post_bind]
  refine (post_divideRows hrow rows cfg.numAverageEvents blk).mono fun _ blk' h => ?_
  obtain ⟨hcells, -⟩ := h
  rw [post_bind, post_get, post_pure]
  refine List.map_append.trans (congrArg (fun rows => array.map (Emission.toJson cfg) ++
    [Json.object [("Benchmark", .string name), ("Results", .array rows)]]) ?_)
  refine List.ext_getElem (by simp [Config.numAverageEvents]) fun i h1 h2 => ?_
  have hi : i < cfg.numAverageEvents := by simpa [Config.numAverageEvents] using h2
  have hcolumn : (List.range rows).map (fun k => blk'.array (row k) i) =
      averageColumn blk row rows i :=
    List.map_congr_left fun k hk => hcells k (List.mem_range.mp hk) i hi
  have hmembers : resultToJson cfg blk'.deref (calculateResults (averageColumn blk row rows i)
      (.heap (averageColumn blk row rows i))) = samplesMembers cfg (averageColumn blk row rows i) :=
    resultToJson_calculateResults cfg fun _ _ => rfl
  simp only [List.getElem_map, List.getElem_zip, List.getElem_range,
    List.getElem_zipIdx, Nat.zero_add, hcolumn, hmembers]

end ProcessArray

/-- A result set whose results belong to the elements of a list. -/
theorem resultSetToJson_zipIdx (cfg : Config) {deref : ρ → ℕ → Ccnt w} {ι : Type*} {l : List ι}
    {members : ι × ℕ → List (String × Json)} {set : ResultSet ρ w}
    (h : set.results.map (resultToJson cfg deref) = l.zipIdx.map members) :
    resultSetToJson cfg deref set = .object [("Benchmark", .string set.name),
      ("Results", .array (l.zipIdx.map fun p =>
        .object (set.extraCols.map (fun c => (c.header, getJsonCell c p.2)) ++ members p)))] := by
  have hrows : (set.results.zipIdx.map fun r => Json.object
      (set.extraCols.map (fun c => (c.header, getJsonCell c r.2)) ++ resultToJson cfg deref r.1)) =
      ((set.results.map (resultToJson cfg deref)).zipIdx.map fun q => Json.object
        (set.extraCols.map (fun c => (c.header, getJsonCell c q.2)) ++ q.1)) := by
    rw [List.zipIdx_map, List.map_map]
    rfl
  rw [resultSetToJson, hrows, h, zipIdx_map_zipIdx, List.map_map]
  rfl

end Sel4bench
