import Sel4bench.Driver.Json

/-!
# What the driver functions leave alone

A driver function *keeps* an array of the results block when it never changes it
(`Sel4bench.Keeps`). Appending to the output keeps all arrays, and processing an array keeps the
others. The samples that a driver function leaves in an array are then found by going to the one
step that processes it.

## Main definitions

* `Sel4bench.Keeps`.

## Main results

* `Sel4bench.mapM_processArray`, `Sel4bench.processTable` — loops that process arrays.
* `Sel4bench.processResults_array` — the arrays of a table after `process_results`.
-/

namespace Sel4bench

variable {w : ℕ} {A S : Type} {α β : Type}

/-- The function does not change the array `a`. -/
def Keeps (a : A) (x : Driver A S w α) : Prop := ∀ blk, (x blk).2.array a = blk.array a

theorem keeps_pure (a : A) (v : α) : Keeps a (pure v : Driver A S w α) := fun _ => rfl

theorem keeps_get (a : A) : Keeps a (get : Driver A S w (Block A S w)) := fun _ => rfl

theorem Keeps.bind {a : A} {x : Driver A S w α} {f : α → Driver A S w β} (hx : Keeps a x)
    (hf : ∀ v, Keeps a (f v)) : Keeps a (x >>= f) := fun blk =>
  (hf (x blk).1 (x blk).2).trans (hx blk)

@[simp] theorem appendResultSet_block (array : Output A S w) (set : ResultSet (RawRef A w) w)
    (blk : Block A S w) : (appendResultSet array set blk).2 = blk := rfl

@[simp] theorem appendAverageCounters_block (array : Output A S w) (name : String)
    (results : List (Result (RawRef A w) w)) (blk : Block A S w) :
    (appendAverageCounters array name results blk).2 = blk := rfl

variable [DecidableEq A]

theorem keeps_processArray {a a' : A} (h : a ≠ a') (cfg : Config) (n : ℕ) (desc : ResultDesc w) :
    Keeps a (processArray cfg n a' desc : Driver A S w _) := fun blk =>
  Block.setArray_of_ne blk h _

theorem processArray_array (cfg : Config) (n : ℕ) (a : A) (desc : ResultDesc w)
    (blk : Block A S w) : (processArray cfg n a desc blk).2.array a =
      (processResult cfg n (blk.array a) desc (RawRef.block (w := w) a)).2 :=
  Block.setArray_self blk a _

omit [DecidableEq A] in
theorem keeps_mapM {ι : Type} {a : A} {f : ι → Driver A S w α} (l : List ι)
    (h : ∀ i ∈ l, Keeps a (f i)) : Keeps a (l.mapM f) := by
  induction l with
  | nil => exact keeps_pure a _
  | cons i l ih =>
    rw [List.mapM_cons]
    exact (h i List.mem_cons_self).bind fun _ =>
      (ih fun j hj => h j (List.mem_cons_of_mem _ hj)).bind fun _ => keeps_pure a _

omit [DecidableEq A] in
theorem keeps_forM {ι : Type} {a : A} {f : ι → Driver A S w PUnit} (l : List ι)
    (h : ∀ i, Keeps a (f i)) : Keeps a (l.forM f) := by
  induction l with
  | nil => exact keeps_pure a _
  | cons i l ih => exact (h i).bind fun _ => ih

theorem keeps_processResults {a : A} {a' : ℕ → A} (h : ∀ i, a ≠ a' i) (cfg : Config)
    (ncols nrows : ℕ) (desc : ResultDesc w) :
    Keeps a (processResults cfg ncols nrows a' desc : Driver A S w _) :=
  keeps_mapM _ fun i _ => keeps_processArray (h i) cfg nrows desc

theorem keeps_processAverageResults {a : A} {row : ℕ → A} (h : ∀ i, a ≠ row i) (rows cols : ℕ) :
    Keeps a (processAverageResults rows cols row : Driver A S w _) :=
  (keeps_forM _ fun r blk => Block.setArray_of_ne blk (h r) _).bind fun _ =>
    (keeps_get a).bind fun _ => keeps_pure a _

section MapM

variable {ι κ : Type}

/-- Processing different arrays one after the other. -/
theorem mapM_processArray {name : ι → A} (desc : ι → ResultDesc w) (cfg : Config) (n : ℕ)
    {l : List ι} (hl : (l.map name).Nodup) (blk : Block A S w) :
    (l.mapM (fun i => processArray cfg n (name i) (desc i)) blk).1 =
        l.map (fun i => (processResult cfg n (blk.array (name i)) (desc i)
          (RawRef.block (w := w) (name i))).1) ∧
      ∀ i ∈ l, (l.mapM (fun i => processArray cfg n (name i) (desc i)) blk).2.array (name i) =
        (processResult cfg n (blk.array (name i)) (desc i) (RawRef.block (w := w) (name i))).2 := by
  induction l generalizing blk with
  | nil => exact ⟨rfl, by simp⟩
  | cons i l ih =>
    rw [List.map_cons, List.nodup_cons] at hl
    obtain ⟨hi, hl⟩ := hl
    set blk' := (processArray cfg n (name i) (desc i) blk).2 with hblk'
    have hsame : ∀ j ∈ l, blk'.array (name j) = blk.array (name j) := fun j hj =>
      keeps_processArray (fun h => hi (List.mem_map.mpr ⟨j, hj, h⟩)) cfg n (desc i) blk
    obtain ⟨hresults, harrays⟩ := ih hl blk'
    rw [List.mapM_cons]
    simp only [Driver.bind_apply, Driver.pure_apply, ← hblk', hresults]
    refine ⟨?_, fun j hj => ?_⟩
    · rw [List.map_cons]
      congr 1
      refine List.map_congr_left fun j hj => ?_
      rw [hsame j hj]
    · rcases List.mem_cons.mp hj with rfl | hj
      · have hkeep : Keeps (name j) (l.mapM fun i => processArray cfg n (name i) (desc i) :
            Driver A S w _) := keeps_mapM l fun k hk =>
          keeps_processArray (fun h => hi (List.mem_map.mpr ⟨k, hk, h.symm⟩)) cfg n _
        rw [hkeep, hblk', processArray_array]
      · rw [harrays j hj, hsame j hj]

omit [DecidableEq A] in
/-- Nested loops, as one loop over the pairs. -/
theorem mapM_mapM_flatten (f : ι → κ → Driver A S w α) (l : List ι) (m : List κ) :
    (List.flatten <$> l.mapM fun i => m.mapM (f i)) =
      (l.flatMap fun i => m.map (Prod.mk i)).mapM fun p => f p.1 p.2 := by
  induction l with
  | nil => simp
  | cons i l ih =>
    have hcurry : (fun p : ι × κ => f p.1 p.2) ∘ Prod.mk i = f i := rfl
    simp [← ih, hcurry]

/-- The pairs of a table with `n` columns, as one list. -/
theorem flatMap_range (m n : ℕ) :
    ((List.range m).flatMap fun i => (List.range n).map (Prod.mk i)) =
      (List.range (m * n)).map fun r => (r / n, r % n) := by
  induction m with
  | zero => simp
  | succ m ih =>
    rw [List.range_succ, List.flatMap_append, ih, Nat.succ_mul, List.range_add, List.map_append,
      List.flatMap_singleton, List.map_map]
    congr 1
    refine List.map_congr_left fun j hj => ?_
    have hj := List.mem_range.mp hj
    simp only [Function.comp_apply]
    rw [Nat.mul_comm m n, Nat.mul_add_div (by omega), Nat.div_eq_of_lt hj, Nat.mul_add_mod,
      Nat.mod_eq_of_lt hj, Nat.add_zero]

/-- Processing the arrays of a table, row after row. -/
theorem processTable {name : ℕ → ℕ → A} (hname : Function.Injective2 name)
    (desc : ℕ → ResultDesc w) (cfg : Config) (runs m n : ℕ) (blk : Block A S w) :
    let x : Driver A S w (List (List (Result (RawRef A w) w))) := (List.range m).mapM fun i =>
      (List.range n).mapM fun j => processArray cfg runs (name i j) (desc i)
    let process (r : ℕ) := processResult cfg runs (blk.array (name (r / n) (r % n))) (desc (r / n))
      (RawRef.block (w := w) (name (r / n) (r % n)))
    (x blk).1.flatten = (List.range (m * n)).map (fun r => (process r).1) ∧
      ∀ r < m * n, (x blk).2.array (name (r / n) (r % n)) = (process r).2 := by
  intro x process
  have hflatten : (List.flatten <$> x) =
      ((List.range (m * n)).map fun r => (r / n, r % n)).mapM fun p =>
        processArray cfg runs (name p.1 p.2) (desc p.1) := by
    rw [mapM_mapM_flatten, flatMap_range]
  have hnodup : (((List.range (m * n)).map fun r => (r / n, r % n)).map
      fun p => name p.1 p.2).Nodup := by
    rw [List.map_map]
    refine List.nodup_range.map fun r s h => ?_
    obtain ⟨hdiv, hmod⟩ := hname h
    rw [← Nat.div_add_mod r n, ← Nat.div_add_mod s n]
    exact congrArg₂ (fun q m => n * q + m) hdiv hmod
  obtain ⟨hresults, harrays⟩ := mapM_processArray (fun p : ℕ × ℕ => desc p.1) cfg runs hnodup
    blk
  rw [← hflatten] at hresults harrays
  refine ⟨hresults.trans (List.map_map ..), fun r hr => ?_⟩
  exact harrays (r / n, r % n) (List.mem_map.mpr ⟨r, List.mem_range.mpr hr, rfl⟩)

theorem map_range_zipIdx (f : ℕ → α) (n : ℕ) :
    ((List.range n).map f).zipIdx = (List.range n).map fun i => (f i, i) := by
  refine List.ext_getElem (by simp) fun i h1 h2 => ?_
  simp

end MapM

/-- Every column of `process_results` is processed once. -/
theorem processResults_array {a : ℕ → A} (ha : Function.Injective a) (cfg : Config)
    (ncols nrows : ℕ) (desc : ResultDesc w) (blk : Block A S w) {i : ℕ} (hi : i < ncols) :
    (processResults cfg ncols nrows a desc blk).2.array (a i) =
      (processResult cfg nrows (blk.array (a i)) desc (RawRef.block (w := w) (a i))).2 :=
  (mapM_processArray (fun _ => desc) cfg nrows (List.nodup_range.map ha) blk).2 i
    (List.mem_range.mpr hi)

end Sel4bench
