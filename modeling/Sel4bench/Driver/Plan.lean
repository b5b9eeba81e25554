import Sel4bench.Driver.Frame

/-!
# What a driver function does to its results block

A driver function changes some arrays of its block in place, keeps results that point into them,
and writes result sets to the output from time to time. Its *plan* (`Sel4bench.Plan`) says what
becomes of each array: it is left alone, an overhead is subtracted from its samples, or its cells
are divided. The function follows the plan if it changes every array at most once and every row
that it writes has the statistics of the samples that its pointer shows at that moment
(`Sel4bench.Follows`).

The rules of this module go through a driver function from the top. The state of the argument is
the set of arrays that have been changed (`Sel4bench.Plan.After`): processing an array demands that
it has not been changed before, and a result is known to have the statistics of a changed array
(`Sel4bench.Plan.Known`), which does not change again.

## Main definitions

* `Sel4bench.Plan`, `Sel4bench.Plan.After`, `Sel4bench.Plan.Known`.
* `Sel4bench.Row`, `Sel4bench.Plan.Writes`, `Sel4bench.Follows`.

## Main results

* `Sel4bench.Plan.post_processArray`, `Sel4bench.Plan.post_mapM_processArray`,
  `Sel4bench.Plan.post_processAverageResults`, `Sel4bench.Plan.post_appendResultSet`.
* `Sel4bench.Plan.Writes.consistent` — the extremes of a row are those of its raw results.
-/

namespace Sel4bench

variable {w : ℕ} {A S : Type}

/-- What becomes of an array. -/
inductive Change (w : ℕ)
  | keep
  | subtract (overhead : Ccnt w)
  | average

/-- What a driver function does to the arrays of a block, with the number of runs of the sample
arrays, the number of ignored runs and the number of columns of the tables of averages. A table is
given by the arrays of its rows, one for each run. -/
structure Plan (A : Type) (w : ℕ) where
  runs : ℕ
  ignored : ℕ
  cols : ℕ
  change : A → Change w
  tables : List (ℕ → A)
  ignored_lt : ignored < runs
  runs_lt : runs < 2 ^ 31
  change_table : ∀ row ∈ tables, ∀ i < runs, change (row i) = .average

/-- The change of an array. -/
def Plan.apply (plan : Plan A w) (a : A) (array : ℕ → Ccnt w) : ℕ → Ccnt w :=
  match plan.change a with
  | .keep => array
  | .subtract overhead => fun k =>
    if plan.ignored ≤ k ∧ k < plan.runs then array k - overhead else array k
  | .average => fun k =>
    if k < plan.cols then array k / BitVec.ofNat w averageRuns else array k

/-- A column of a table, every cell divided by the number of averaged runs. -/
def averageColumn (blk : Block A S w) (row : ℕ → A) (rows col : ℕ) : List (Ccnt w) :=
  (List.range rows).map fun i => blk.array (row i) col / BitVec.ofNat w averageRuns

theorem averageColumn_ne_nil (blk : Block A S w) (row : ℕ → A) {rows : ℕ} (h : 0 < rows)
    (col : ℕ) : averageColumn blk row rows col ≠ [] := by
  simpa [averageColumn] using h.ne'

/-- The results of a table of averages, column by column. -/
def averageResults (blk : Block A S w) (row : ℕ → A) (rows cols : ℕ) :
    List (Result (RawRef A w) w) :=
  (List.range cols).map fun col =>
    calculateResults (averageColumn blk row rows col) (.heap (averageColumn blk row rows col))

/-- A row that is written when the block is `blk`: the record of a failed check or of early
processing, which has no raw results, or the statistics of the raw results. -/
inductive Row (cfg : Config) (plan : Plan A w) (blk₀ blk : Block A S w) :
    Result (RawRef A w) w → Prop
  | zero : Row cfg plan blk₀ blk Result.zero
  | early (num sum sum2 : Ccnt w) : Row cfg plan blk₀ blk (processResultEarlyProc cfg num sum sum2)
  | block (a : A) (h : blk.array a = plan.apply a (blk₀.array a)) : Row cfg plan blk₀ blk
      (calculateResults (window (blk.array a) plan.ignored (plan.runs - plan.ignored))
        (.block a plan.ignored))

/-- What a piece of output consists of: the rows of a result set, or all columns of a table of
averages of the plan. -/
def Plan.Writes (cfg : Config) (plan : Plan A w) (blk₀ : Block A S w) (e : Emission A S w) :
    Prop :=
  match e.content with
  | .resultSet set => ∀ r ∈ set.results, Row cfg plan blk₀ e.block r
  | .averageCounters _ results =>
    ∃ row ∈ plan.tables, results = averageResults blk₀ row plan.runs plan.cols

/-- A driver function follows a plan: whenever it returns an array, the arrays of the block are
changed as planned, and the rows that it has written have the statistics of their raw results. -/
def Follows (cfg : Config) (plan : Plan A w) (x : Driver A S w (Option (Output A S w)))
    (blk₀ : Block A S w) : Prop :=
  ∀ out, (x blk₀).1 = some out →
    (∀ a, (x blk₀).2.array a = plan.apply a (blk₀.array a)) ∧ ∀ e ∈ out, plan.Writes cfg blk₀ e

/-! ### Rows -/

/-- The number of elements from a pointer to the end of its array. -/
def RawRef.size (runs : ℕ) : RawRef A w → ℕ
  | .block _ offset => runs - offset
  | .heap data => data.length

/-- The result has the extremes of the samples that the pointer shows. -/
structure Result.Consistent (runs : ℕ) (blk : Block A S w) (p : RawRef A w)
    (r : Result (RawRef A w) w) : Prop where
  pos : 0 < r.samples
  samples : r.samples = p.size runs
  min : IsLeast {x | ∃ i < r.samples, blk.deref p i = x} r.min
  max : IsGreatest {x | ∃ i < r.samples, blk.deref p i = x} r.max

/-- A result with the statistics of the samples that the pointer shows. -/
theorem Result.consistent_calculateResults {runs n : ℕ} {blk : Block A S w} {p : RawRef A w}
    (hpos : 0 < n) (hsize : n = p.size runs) :
    (calculateResults ((List.range n).map (blk.deref p)) p).Consistent runs blk p := by
  have hne : (List.range n).map (blk.deref p) ≠ [] := by
    simpa using hpos.ne'
  have hsamples : (calculateResults ((List.range n).map (blk.deref p)) p).samples = n :=
    (List.length_map _).trans List.length_range
  have hset : {x | ∃ i < n, blk.deref p i = x} =
      {x | x ∈ (List.range n).map (blk.deref p)} := by
    ext x
    simp
  refine ⟨hsamples.symm ▸ hpos, hsamples.trans hsize, ?_, ?_⟩
  · rw [hsamples, hset]
    exact calculateResults_min_isLeast hne p
  · rw [hsamples, hset]
    exact calculateResults_max_isGreatest hne p

section Row

variable {cfg : Config} {plan : Plan A w} {blk₀ blk blk' : Block A S w}
  {r : Result (RawRef A w) w} {p : RawRef A w}

/-- A row is consistent with its raw results, which are still there when all arrays have been
changed. -/
theorem Row.consistent (h : Row cfg plan blk₀ blk r) (hp : r.rawData = some p)
    (hblk' : ∀ a, blk'.array a = plan.apply a (blk₀.array a)) :
    r.Consistent plan.runs blk p ∧ blk'.deref p = blk.deref p := by
  cases h with
  | zero => exact absurd hp (Option.some_ne_none p).symm
  | early num sum sum2 => exact absurd hp (Option.some_ne_none p).symm
  | block a h =>
    obtain rfl := Option.some.inj hp
    refine ⟨Result.consistent_calculateResults (Nat.sub_pos_of_lt plan.ignored_lt) rfl, ?_⟩
    simp only [Block.deref, h, hblk' a]

/-- The averages of a column are a copy that nothing changes. -/
theorem consistent_averageResults {row : ℕ → A}
    (h : r ∈ averageResults blk₀ row plan.runs plan.cols) (hp : r.rawData = some p) :
    r.Consistent plan.runs blk p ∧ blk'.deref p = blk.deref p := by
  obtain ⟨col, -, rfl⟩ := List.mem_map.mp h
  obtain rfl := Option.some.inj hp
  set data := averageColumn blk₀ row plan.runs col with hdata
  have hne : data ≠ [] := averageColumn_ne_nil blk₀ row (Nat.zero_lt_of_lt plan.ignored_lt) col
  have hderef : (List.range data.length).map (blk.deref (.heap data)) = data := by
    refine List.ext_getElem (by simp) fun i h1 h2 => ?_
    simp [Block.deref, h2]
  have hconsistent : (calculateResults ((List.range data.length).map (blk.deref (.heap data)))
      (RawRef.heap data)).Consistent plan.runs blk (.heap data) :=
    Result.consistent_calculateResults (List.length_pos_of_ne_nil hne) rfl
  rw [hderef] at hconsistent
  exact ⟨hconsistent, rfl⟩

/-- **A row is consistent** with the raw results that its pointer shows, and these are not changed
any more. -/
theorem Plan.Writes.consistent {e : Emission A S w} (h : plan.Writes cfg blk₀ e)
    (hr : r ∈ e.content.results) (hp : r.rawData = some p)
    (hblk' : ∀ a, blk'.array a = plan.apply a (blk₀.array a)) :
    r.Consistent plan.runs e.block p ∧ blk'.deref p = e.block.deref p := by
  obtain ⟨blk, content⟩ := e
  cases content with
  | resultSet set => exact (h r hr).consistent hp hblk'
  | averageCounters name results =>
    obtain ⟨row, -, rfl⟩ := h
    exact consistent_averageResults hr hp

end Row

/-! ### Running a driver function -/

/-- The function ends with a value and a block for which `Q` holds. -/
def Post {α : Type} (x : Driver A S w α) (blk : Block A S w) (Q : α → Block A S w → Prop) : Prop :=
  Q (x blk).1 (x blk).2

section Post

variable {α β ι : Type} {blk : Block A S w}

@[simp] theorem post_bind {x : Driver A S w α} {f : α → Driver A S w β}
    {Q : β → Block A S w → Prop} :
    Post (x >>= f) blk Q ↔ Post x blk fun v blk' => Post (f v) blk' Q := Iff.rfl

@[simp] theorem post_pure {v : α} {Q : α → Block A S w → Prop} :
    Post (pure v : Driver A S w α) blk Q ↔ Q v blk := Iff.rfl

@[simp] theorem post_get {Q : Block A S w → Block A S w → Prop} :
    Post (get : Driver A S w (Block A S w)) blk Q ↔ Q blk blk := Iff.rfl

@[simp] theorem post_map {x : Driver A S w α} {f : α → β} {Q : β → Block A S w → Prop} :
    Post (f <$> x) blk Q ↔ Post x blk fun v => Q (f v) := Iff.rfl

@[simp] theorem post_returnJson {cfg : Config} {x : Driver A S w (Option (Output A S w))}
    {Q : Option Json → Block A S w → Prop} : Post (returnJson cfg x) blk Q ↔
      Post x blk fun out => Q (out.map (Output.toJson cfg)) := Iff.rfl

theorem Post.mono {x : Driver A S w α} {Q Q' : α → Block A S w → Prop} (h : Post x blk Q)
    (hQ : ∀ v blk', Q v blk' → Q' v blk') : Post x blk Q' := hQ _ _ h

/-- A loop over the numbers below `n`. -/
theorem post_forM_range {f : ℕ → Driver A S w PUnit} {n : ℕ} (I : ℕ → Block A S w → Prop)
    (h0 : I 0 blk) (step : ∀ i < n, ∀ blk, I i blk → Post (f i) blk fun _ => I (i + 1)) :
    Post ((List.range n).forM f) blk fun _ => I n := by
  induction n with
  | zero => exact h0
  | succ n ih =>
    have hsucc : (List.range (n + 1)).forM f = ((List.range n).forM f >>= fun _ => f n) := by
      simp [List.range_succ]
    rw [hsucc, post_bind]
    exact (ih fun i hi => step i (by omega)).mono fun _ blk' h => step n n.lt_succ_self blk' h

end Post

namespace Plan

variable (cfg : Config) (plan : Plan A w) (blk₀ : Block A S w)

/-- The arrays of the set `done` are changed as planned, the others are not changed. -/
structure After (done : Set A) (blk : Block A S w) : Prop where
  changed : ∀ a ∈ done, blk.array a = plan.apply a (blk₀.array a)
  rest : ∀ a ∉ done, blk.array a = blk₀.array a

/-- A result that may be written when the arrays of the set `done` have been changed. -/
inductive Known (done : Set A) : Result (RawRef A w) w → Prop
  | zero : Known done Result.zero
  | early (num sum sum2 : Ccnt w) : Known done (processResultEarlyProc cfg num sum sum2)
  | block (a : A) (h : a ∈ done) : Known done
      (calculateResults (window (plan.apply a (blk₀.array a)) plan.ignored
        (plan.runs - plan.ignored)) (.block a plan.ignored))

variable {cfg plan blk₀} {done : Set A} {blk : Block A S w}

theorem After.init : plan.After blk₀ ∅ blk₀ where
  changed _ h := absurd h (Set.notMem_empty _)
  rest _ _ := rfl

/-- Arrays from which nothing is subtracted need not be touched. -/
theorem After.union (hafter : plan.After blk₀ done blk) {idle : Set A}
    (hidle : ∀ a ∈ idle, plan.change a = .subtract 0) : plan.After blk₀ (done ∪ idle) blk where
  changed a ha := by
    by_cases hdone : a ∈ done
    · exact hafter.changed a hdone
    · rw [hafter.rest a hdone, Plan.apply, hidle a (ha.resolve_left hdone)]
      simp only [sub_zero, ite_self]
  rest a ha := hafter.rest a fun h => ha (Set.mem_union_left _ h)

theorem Known.mono {done' : Set A} {r : Result (RawRef A w) w} (h : plan.Known cfg blk₀ done r)
    (hsub : done ⊆ done') : plan.Known cfg blk₀ done' r := by
  cases h with
  | zero => exact .zero
  | early num sum sum2 => exact .early num sum sum2
  | block a h => exact .block a (hsub h)

theorem Known.row {r : Result (RawRef A w) w} (h : plan.Known cfg blk₀ done r)
    (hafter : plan.After blk₀ done blk) : Row cfg plan blk₀ blk r := by
  cases h with
  | zero => exact .zero
  | early num sum sum2 => exact .early num sum sum2
  | block a h =>
    rw [← hafter.changed a h]
    exact .block a (hafter.changed a h)

/-! ### The output -/

variable {out : Output A S w} {Q : Output A S w → Block A S w → Prop}

theorem writes_append {e : Emission A S w} (hout : ∀ e ∈ out, plan.Writes cfg blk₀ e)
    (he : plan.Writes cfg blk₀ e) : ∀ e' ∈ out ++ [e], plan.Writes cfg blk₀ e' := by
  rw [List.forall_mem_append, List.forall_mem_singleton]
  exact ⟨hout, he⟩

theorem post_appendResultSet (hafter : plan.After blk₀ done blk)
    (hout : ∀ e ∈ out, plan.Writes cfg blk₀ e) {set : ResultSet (RawRef A w) w}
    (hset : ∀ r ∈ set.results, plan.Known cfg blk₀ done r)
    (hQ : ∀ out', (∀ e ∈ out', plan.Writes cfg blk₀ e) → Q out' blk) :
    Post (appendResultSet out set) blk Q :=
  hQ _ (writes_append hout fun r hr => (hset r hr).row hafter)

theorem post_appendAverageCounters (hout : ∀ e ∈ out, plan.Writes cfg blk₀ e) {name : String}
    {row : ℕ → A} (hrow : row ∈ plan.tables)
    (hQ : ∀ out', (∀ e ∈ out', plan.Writes cfg blk₀ e) → Q out' blk) :
    Post (appendAverageCounters out name (averageResults blk₀ row plan.runs plan.cols)) blk Q :=
  hQ _ (writes_append hout ⟨row, hrow, rfl⟩)

theorem known_processResultsEarlyProc {ncols : ℕ} {nums sums sum2s : ℕ → Ccnt w}
    {r : Result (RawRef A w) w} (h : r ∈ processResultsEarlyProc cfg ncols nums sums sum2s) :
    plan.Known cfg blk₀ done r := by
  obtain ⟨i, _, rfl⟩ := List.mem_map.mp h
  exact .early _ _ _

/-! ### Changing arrays -/

section Change

variable [DecidableEq A]

/-- Replacing an array by what the plan makes of it. -/
theorem After.setArray (hafter : plan.After blk₀ done blk) {a : A} (ha : a ∉ done)
    {v : ℕ → Ccnt w} (hv : v = plan.apply a (blk₀.array a)) :
    plan.After blk₀ (insert a done) (blk.setArray a v) where
  changed a' ha' := by
    rcases Set.mem_insert_iff.mp ha' with rfl | ha'
    · rw [Block.setArray_self, hv]
    · have hne : a' ≠ a := fun h => ha (h ▸ ha')
      rw [Block.setArray_of_ne blk hne, hafter.changed a' ha']
  rest a' ha' := by
    rw [Set.mem_insert_iff, not_or] at ha'
    rw [Block.setArray_of_ne blk ha'.1, hafter.rest a' ha'.2]

/-- Processing `n` samples of the array `a` with the description `desc` does what the plan says. A
check that may stop `process_result` is allowed only where there is nothing to subtract. -/
structure Fits (plan : Plan A w) (n : ℕ) (a : A) (desc : ResultDesc w) : Prop where
  runs : n = plan.runs
  change : plan.change a = .subtract desc.overhead
  ignored : desc.ignored = plan.ignored
  stop : desc.stable = false ∨ desc.overhead = 0

omit [DecidableEq A] in
/-- `process_result` does what the plan says, and its record has the statistics of the array after
the change, unless the check has stopped it. -/
theorem Fits.processResult (cfg : Config) {n : ℕ} {a : A} {desc : ResultDesc w}
    (h : plan.Fits n a desc) (array : ℕ → Ccnt w) :
    (processResult cfg n array desc (RawRef.block (w := w) a)).2 = plan.apply a array ∧
      ((processResult cfg n array desc (RawRef.block (w := w) a)).1 = Result.zero ∨
        (processResult cfg n array desc (RawRef.block (w := w) a)).1 =
          calculateResults (window (plan.apply a array) plan.ignored (plan.runs - plan.ignored))
            (.block a plan.ignored)) := by
  obtain rfl := h.runs
  have hlt := plan.ignored_lt
  have hsize : windowSize plan.runs desc.ignored = plan.runs - plan.ignored := by
    rw [h.ignored]
    exact windowSize_eq hlt.le ((Nat.sub_le _ _).trans_lt plan.runs_lt)
  have hsub : subtractOverhead array desc.ignored (plan.runs - plan.ignored) desc.overhead =
      plan.apply a array := by
    funext k
    rw [subtractOverhead_apply, Plan.apply, h.change, h.ignored]
    congr 1
    exact propext (and_congr_right fun _ => by omega)
  by_cases hacc : Accepted cfg array desc plan.runs
  · rw [processResult_of_accepted cfg array desc _ hacc, hsize, hsub, h.ignored]
    exact ⟨rfl, Or.inr rfl⟩
  · rw [processResult_of_not_accepted cfg array desc _ hacc]
    refine ⟨?_, Or.inl rfl⟩
    have hzero : desc.overhead = 0 := h.stop.resolve_left fun hstable =>
      hacc fun hstable' => absurd (hstable'.symm.trans hstable) Bool.noConfusion
    funext k
    rw [Plan.apply, h.change, hzero]
    simp

variable {n : ℕ} {a : A} {desc : ResultDesc w}

theorem post_processArray (hafter : plan.After blk₀ done blk) (ha : a ∉ done)
    (hfits : plan.Fits n a desc) {Q : Result (RawRef A w) w → Block A S w → Prop}
    (hQ : ∀ r blk', r = (Sel4bench.processResult cfg n (blk₀.array a) desc
      (RawRef.block a)).1 → plan.After blk₀ (insert a done) blk' →
        plan.Known cfg blk₀ (insert a done) r → Q r blk') :
    Post (processArray cfg n a desc) blk Q := by
  obtain ⟨harray, hresult⟩ := hfits.processResult cfg (blk₀.array a)
  have hsame : blk.array a = blk₀.array a := hafter.rest a ha
  refine hQ _ _ (by rw [processArray, hsame]) (hafter.setArray ha (by rw [hsame, harray])) ?_
  rw [processArray, hsame]
  rcases hresult with hzero | hblock
  · rw [hzero]
    exact .zero
  · rw [hblock]
    exact .block a (Set.mem_insert a done)

theorem post_mapM_processArray {ι : Type} (name : ι → A) (desc : ι → ResultDesc w) {l : List ι}
    (hl : (l.map name).Nodup) (hafter : plan.After blk₀ done blk) (hnew : ∀ i ∈ l, name i ∉ done)
    (hfits : ∀ i ∈ l, plan.Fits n (name i) (desc i))
    {Q : List (Result (RawRef A w) w) → Block A S w → Prop}
    (hQ : ∀ results blk', plan.After blk₀ (done ∪ {a | a ∈ l.map name}) blk' →
      (∀ r ∈ results, plan.Known cfg blk₀ (done ∪ {a | a ∈ l.map name}) r) → Q results blk') :
    Post (l.mapM fun i => processArray cfg n (name i) (desc i)) blk Q := by
  induction l generalizing done blk Q with
  | nil => exact hQ [] blk (by simpa using hafter) (by simp)
  | cons i l ih =>
    obtain ⟨hi, hl⟩ := List.nodup_cons.mp hl
    have hunion : insert (name i) done ∪ {a | a ∈ l.map name} =
        done ∪ {a | a ∈ (i :: l).map name} := by
      ext a
      simp only [Set.mem_union, Set.mem_insert_iff, Set.mem_ofPred_eq, List.map_cons,
        List.mem_cons]
      tauto
    rw [List.mapM_cons, post_bind]
    refine post_processArray hafter (hnew i List.mem_cons_self) (hfits i List.mem_cons_self)
      fun r blk₁ _ hafter₁ hknown => ?_
    rw [post_bind]
    refine ih hl hafter₁ (fun j hj => ?_) (fun j hj => hfits j (List.mem_cons_of_mem _ hj))
      fun results blk₂ hafter₂ hknown₂ => ?_
    · rw [Set.mem_insert_iff, not_or]
      exact ⟨fun h => hi (h ▸ List.mem_map_of_mem hj), hnew j (List.mem_cons_of_mem _ hj)⟩
    · rw [hunion] at hafter₂ hknown₂
      refine hQ _ _ hafter₂ fun r' hr' => ?_
      rcases List.mem_cons.mp hr' with rfl | hr'
      · exact hknown.mono (hunion ▸ Set.subset_union_left)
      · exact hknown₂ r' hr'

theorem post_processResults {ncols : ℕ} {name : ℕ → A} (hname : Function.Injective name)
    (hafter : plan.After blk₀ done blk) (hnew : ∀ i, name i ∉ done)
    (hfits : ∀ i < ncols, plan.Fits n (name i) desc)
    {Q : List (Result (RawRef A w) w) → Block A S w → Prop}
    (hQ : ∀ results blk', plan.After blk₀ (done ∪ name '' Set.Iio ncols) blk' →
      (∀ r ∈ results, plan.Known cfg blk₀ (done ∪ name '' Set.Iio ncols) r) → Q results blk') :
    Post (processResults cfg ncols n name desc) blk Q := by
  have hset : {a | a ∈ (List.range ncols).map name} = name '' Set.Iio ncols := by
    ext a
    simp
  refine post_mapM_processArray name (fun _ => desc) (List.nodup_range.map hname) hafter
    (fun i _ => hnew i) (fun i hi => hfits i (List.mem_range.mp hi)) ?_
  rw [hset]
  exact hQ

theorem post_processTable {runs m n : ℕ} {name : ℕ → ℕ → A} (hname : Function.Injective2 name)
    {desc : ℕ → ResultDesc w} (hafter : plan.After blk₀ done blk) (hnew : ∀ i j, name i j ∉ done)
    (hfits : ∀ i < m, ∀ j < n, plan.Fits runs (name i j) (desc i))
    {Q : List (List (Result (RawRef A w) w)) → Block A S w → Prop}
    (hQ : ∀ results blk', plan.After blk₀ (done ∪ Set.image2 name (Set.Iio m) (Set.Iio n)) blk' →
      (∀ r ∈ results.flatten,
        plan.Known cfg blk₀ (done ∪ Set.image2 name (Set.Iio m) (Set.Iio n)) r) →
          Q results blk') :
    Post ((List.range m).mapM fun i => (List.range n).mapM fun j =>
      processArray cfg runs (name i j) (desc i)) blk Q := by
  set x : Driver A S w (List (List (Result (RawRef A w) w))) := (List.range m).mapM fun i =>
    (List.range n).mapM fun j => processArray cfg runs (name i j) (desc i) with hx
  set pairs := (List.range m).flatMap fun i => (List.range n).map (Prod.mk i) with hpairs
  have hmem : ∀ p : ℕ × ℕ, p ∈ pairs ↔ p.1 < m ∧ p.2 < n := fun p => by
    simp [hpairs, Prod.ext_iff]
  have hset : {a | a ∈ pairs.map fun p => name p.1 p.2} =
      Set.image2 name (Set.Iio m) (Set.Iio n) := by
    ext a
    simp [hmem, and_assoc]
  have hnodup : (pairs.map fun p => name p.1 p.2).Nodup := by
    refine List.Nodup.map (fun p q h => Prod.ext (hname h).1 (hname h).2) ?_
    rw [hpairs, flatMap_range]
    refine List.nodup_range.map fun r s h => ?_
    rw [← Nat.div_add_mod r n, ← Nat.div_add_mod s n]
    exact congrArg₂ (fun q m => n * q + m) (congrArg Prod.fst h) (congrArg Prod.snd h)
  have hflat : Post (List.flatten <$> x) blk fun results blk' =>
      plan.After blk₀ (done ∪ Set.image2 name (Set.Iio m) (Set.Iio n)) blk' ∧ ∀ r ∈ results,
        plan.Known cfg blk₀ (done ∪ Set.image2 name (Set.Iio m) (Set.Iio n)) r := by
    rw [hx, mapM_mapM_flatten, ← hpairs]
    refine post_mapM_processArray (fun p : ℕ × ℕ => name p.1 p.2) (fun p => desc p.1) hnodup
      hafter (fun p _ => hnew p.1 p.2)
      (fun p hp => hfits p.1 ((hmem p).mp hp).1 p.2 ((hmem p).mp hp).2) ?_
    rw [hset]
    exact fun results blk' h₁ h₂ => ⟨h₁, h₂⟩
  exact hQ _ _ hflat.1 hflat.2

/-- Dividing the cells of a table of averages. -/
theorem post_processAverageResults {rows cols : ℕ} (hrows : rows = plan.runs)
    (hcols : cols = plan.cols) {row : ℕ → A} (hrow : row ∈ plan.tables)
    (hinj : Function.Injective row) (hafter : plan.After blk₀ done blk) (hnew : ∀ i, row i ∉ done)
    {Q : List (Result (RawRef A w) w) → Block A S w → Prop}
    (hQ : ∀ blk', plan.After blk₀ (done ∪ row '' Set.Iio rows) blk' →
      Q (averageResults blk₀ row plan.runs plan.cols) blk') :
    Post (processAverageResults rows cols row) blk Q := by
  subst hrows hcols
  have hchange := plan.change_table row hrow
  have hloop : Post ((List.range plan.runs).forM fun r => modify fun blk =>
      blk.setArray (row r) fun c => if c < plan.cols then
        blk.array (row r) c / BitVec.ofNat w averageRuns else blk.array (row r) c) blk
          fun _ => plan.After blk₀ (done ∪ row '' Set.Iio plan.runs) :=
    post_forM_range (fun i => plan.After blk₀ (done ∪ row '' Set.Iio i)) (by simpa using hafter)
      fun i hi blk hblk => by
      have hi' : row i ∉ done ∪ row '' Set.Iio i := by
        rintro (h | ⟨j, hj, h⟩)
        · exact hnew i h
        · exact absurd (hinj h ▸ hj) (lt_irrefl i)
      have hunion : insert (row i) (done ∪ row '' Set.Iio i) = done ∪ row '' Set.Iio (i + 1) := by
        rw [Set.union_comm, ← Set.insert_union, ← Set.image_insert_eq, Set.union_comm]
        congr 2
        ext j
        simp only [Set.mem_insert_iff, Set.mem_Iio]
        omega
      have hset := hblk.setArray hi' (v := fun c =>
        if c < plan.cols then blk.array (row i) c / BitVec.ofNat w averageRuns
        else blk.array (row i) c) (by
          funext c
          rw [hblk.rest _ hi', Plan.apply, hchange i hi])
      rw [hunion] at hset
      exact hset
  rw [processAverageResults, post_bind]
  refine hloop.mono fun _ blk' hafter' => ?_
  have hcolumn : ∀ col < plan.cols, (List.range plan.runs).map (fun i => blk'.array (row i) col) =
      averageColumn blk₀ row plan.runs col := by
    refine fun col hcol => List.map_congr_left fun i hi => ?_
    have hi := List.mem_range.mp hi
    rw [hafter'.changed _ (.inr ⟨i, hi, rfl⟩), Plan.apply, hchange i hi]
    exact if_pos hcol
  have hresults : ((List.range plan.cols).map fun col =>
      let rawData := (List.range plan.runs).map fun i => blk'.array (row i) col
      calculateResults rawData (RawRef.heap (A := A) rawData)) =
        averageResults blk₀ row plan.runs plan.cols :=
    List.map_congr_left fun col hcol => by simp only [hcolumn col (List.mem_range.mp hcol)]
  rw [post_bind, post_get, post_pure, hresults]
  exact hQ blk' hafter'

end Change

/-- The end of a driver function: all arrays that the plan changes are changed. -/
theorem follows_of_post {x : Driver A S w (Option (Output A S w))}
    (h : plan.After blk₀ ∅ blk₀ → Post x blk₀ fun array blk => array = none ∨ ∃ out done,
      array = some out ∧ (∀ e ∈ out, plan.Writes cfg blk₀ e) ∧ plan.After blk₀ done blk ∧
        ∀ a ∉ done, plan.change a = .keep) : Follows cfg plan x blk₀ := by
  intro out hx
  replace h := h .init
  unfold Post at h
  rw [hx] at h
  rcases h with hnone | ⟨out', done, hsome, hout, hafter, hkeep⟩
  · exact absurd hnone (Option.some_ne_none _)
  · obtain rfl := Option.some.inj hsome
    refine ⟨fun a => ?_, hout⟩
    by_cases ha : a ∈ done
    · exact hafter.changed a ha
    · rw [hafter.rest a ha, Plan.apply, hkeep a ha]

end Plan

end Sel4bench
