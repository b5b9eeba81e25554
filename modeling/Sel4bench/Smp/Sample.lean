import Mathlib.Algebra.BigOperators.Group.Finset.Basic
import Mathlib.Algebra.Order.BigOperators.Group.Finset
import Sel4bench.Smp.Program

/-!
# A sample of the SMP benchmark

A sample is the difference of two readings of the counters of all cores that have been started.
The counters wrap, but their differences do not as long as a core completes fewer than `2 ^ 32`
calls between the two readings, and for four cores the product with `NS_IN_S` fits 64 bits.

## Main definitions

* `Sel4bench.Smp.sampleEvents` — the actions of a sample.
* `Sel4bench.Smp.throughput` — the value of a sample, from the numbers of calls.

## Main results

* `Sel4bench.Smp.throughput_eq` — the value is exact.
* `Sel4bench.Smp.doPingPong_ends` — what `benchmark_multicore_do_ping_pong` returns.
-/

namespace Sel4bench.Smp

open Total

/-! ### The value of a sample -/

/-- The value of a sample in which the core `k` has completed `d k` calls. -/
def throughput (n : ℕ) (d : ℕ → ℕ) : Time :=
  (List.range n).foldl (fun total k => total + (BitVec.ofNat 32 (d k)).setWidth 64) 0 *
    nsInS / sampleTime

/-- The sum over the cores, while no core has completed too many calls. -/
theorem foldl_setWidth {n : ℕ} {d : ℕ → ℕ} (h : ∀ k < n, d k < 2 ^ 32) :
    (List.range n).foldl (fun total k => total + (BitVec.ofNat 32 (d k)).setWidth 64) (0 : Time) =
      BitVec.ofNat 64 (∑ k ∈ Finset.range n, d k) := by
  induction n with
  | zero => rfl
  | succ n ih =>
    have hsmall : (BitVec.ofNat 32 (d n)).setWidth 64 = BitVec.ofNat 64 (d n) := by
      refine BitVec.eq_of_toNat_eq ?_
      rw [BitVec.toNat_setWidth, BitVec.toNat_ofNat, BitVec.toNat_ofNat,
        Nat.mod_eq_of_lt (h n n.lt_succ_self)]
    rw [List.range_succ, List.foldl_append, ih fun k hk => h k (by omega), List.foldl_cons,
      List.foldl_nil, hsmall, ← BitVec.ofNat_add, Finset.sum_range_succ]

/-- Four cores together complete few enough calls for the product with `NS_IN_S`. -/
theorem sum_mul_lt {n : ℕ} {d : ℕ → ℕ} (hn : n ≤ 4) (h : ∀ k < n, d k < 2 ^ 32) :
    (∑ k ∈ Finset.range n, d k) * 1000000000 < 2 ^ 64 := by
  have hle : ∑ k ∈ Finset.range n, d k ≤ n * (2 ^ 32 - 1) := by
    refine (Finset.sum_le_card_nsmul _ _ (2 ^ 32 - 1) fun k hk => ?_).trans_eq ?_
    · have hlt := h k (Finset.mem_range.mp hk)
      omega
    · rw [Finset.card_range, Nat.nsmul_eq_mul]
  have hcores : n * (2 ^ 32 - 1) ≤ 4 * (2 ^ 32 - 1) := Nat.mul_le_mul_right _ hn
  omega

/-- **A sample is exact.** It is ten times the number of calls, and neither the 64-bit product nor
the result overflows. -/
theorem throughput_eq {n : ℕ} {d : ℕ → ℕ} (hn : n ≤ 4) (h : ∀ k < n, d k < 2 ^ 32) :
    throughput n d = BitVec.ofNat 64 (10 * ∑ k ∈ Finset.range n, d k) ∧
      10 * ∑ k ∈ Finset.range n, d k < 2 ^ 64 := by
  have hlt := sum_mul_lt hn h
  rw [throughput, foldl_setWidth h]
  generalize ∑ k ∈ Finset.range n, d k = total at hlt
  refine ⟨BitVec.eq_of_toNat_eq ?_, by omega⟩
  have hdiv : total * 1000000000 / 100000000 = 10 * total := by omega
  have hsum : total < 2 ^ 64 := by omega
  have hten : 10 * total < 2 ^ 64 := by omega
  rw [BitVec.toNat_udiv, BitVec.toNat_mul, BitVec.toNat_ofNat, BitVec.toNat_ofNat,
    Nat.mod_eq_of_lt hsum, Nat.mod_eq_of_lt hten]
  change total * 1000000000 % 2 ^ 64 / 100000000 = 10 * total
  rw [Nat.mod_eq_of_lt hlt, hdiv]

/-- The difference of two readings of a counter that may have wrapped. -/
theorem counter_sub (base : BitVec 32) {a b : ℕ} (h : a ≤ b) :
    (base + BitVec.ofNat 32 b) - (base + BitVec.ofNat 32 a) = BitVec.ofNat 32 (b - a) := by
  obtain ⟨d, rfl⟩ := Nat.exists_eq_add_of_le h
  rw [Nat.add_sub_cancel_left, BitVec.ofNat_add]
  ring

theorem totalCalls_eq {n : ℕ} {start stop : ℕ → BitVec 32} {d : ℕ → ℕ}
    (h : ∀ k < n, stop k - start k = BitVec.ofNat 32 (d k)) :
    totalCalls n start stop =
      (List.range n).foldl (fun total k => total + (BitVec.ofNat 32 (d k)).setWidth 64) 0 := by
  induction n with
  | zero => rfl
  | succ n ih =>
    have hstep := ih fun k hk => h k (by omega)
    simp only [totalCalls] at hstep ⊢
    rw [List.range_succ, List.foldl_append, List.foldl_append, hstep, List.foldl_cons,
      List.foldl_cons, List.foldl_nil, List.foldl_nil, h n n.lt_succ_self]

/-! ### The actions of a sample -/

/-- Reading the counters of `n` cores. -/
def readEvents (n : ℕ) (calls : ℕ → ℕ) : List Event :=
  (List.range n).map fun k => .read k (calls k)

theorem readEvents_succ (n : ℕ) (calls : ℕ → ℕ) (c : ℕ) :
    readEvents (n + 1) (Function.update calls n c) = readEvents n calls ++ [.read n c] := by
  have hsame : readEvents n (Function.update calls n c) = readEvents n calls :=
    List.map_congr_left fun k hk => by rw [Function.update_of_ne (List.mem_range.mp hk).ne]
  rw [← hsame]
  simp [readEvents, List.range_succ]

/-- The actions of a sample: the core `k` has completed `before k` calls when its counter is read
first and `after k` when it is read again. -/
def sampleEvents (n : ℕ) (before after : ℕ → ℕ) : List Event :=
  readEvents n before ++ [.wait] ++ readEvents n after

variable {sp : SmpParams} {trace : ℕ → ℕ → ℕ}

/-- While no counter is reset, it counts the calls from `base` on. -/
def Counting (base : ℕ → BitVec 32) (s : World) : Prop :=
  ∀ k, s.callsCompleted k = base k + BitVec.ofNat 32 (s.calls k)

theorem exists_counting (s : World) : ∃ base, Counting base s :=
  ⟨fun k => s.callsCompleted k - BitVec.ofNat 32 (s.calls k), fun k => by
    rw [BitVec.sub_add_cancel]⟩

theorem Counting.advance {base : ℕ → BitVec 32} {s : World} (h : Counting base s) :
    Counting base (s.advance trace) := fun k => by
  simp only [World.advance, BitVec.ofNat_add, h k]
  ring

theorem calls_le_advance (s : World) (k : ℕ) : s.calls k ≤ (s.advance trace).calls k :=
  Nat.le_add_right _ _

/-- What actions without an effect on the counters and the results keep. -/
structure Keeps (base : ℕ → BitVec 32) (s s' : World) : Prop where
  counting : Counting base s'
  calls : ∀ k, s.calls k ≤ s'.calls k
  results : s'.results = s.results

theorem Keeps.trans {base : ℕ → BitVec 32} {s s' s'' : World} (h : Keeps base s s')
    (h' : Keeps base s' s'') : Keeps base s s'' :=
  ⟨h'.counting, fun k => (h.calls k).trans (h'.calls k), h'.results.trans h.results⟩

theorem Counting.keeps {base : ℕ → BitVec 32} {s : World} (h : Counting base s) : Keeps base s s :=
  ⟨h, fun _ => le_rfl, rfl⟩

/-- An action after the threads have run. -/
theorem Counting.keeps_advance {base : ℕ → BitVec 32} {s : World} (h : Counting base s)
    (trace : ℕ → ℕ → ℕ) (e : Event) : Keeps base s ((s.advance trace).record e) :=
  ⟨h.advance, calls_le_advance s, rfl⟩

@[simp] theorem ends_act {e : Event} {s : World} {Q : Unit → World → Prop} :
    Ends (act trace e) s Q ↔ Q () ((s.advance trace).record e) := ends_modify

theorem ends_checkIndex {i : ℕ} (hi : i < sp.maxNumNodes) {s : World} {Q : Unit → World → Prop}
    (h : Q () s) : Ends (checkIndex sp i) s Q := by
  rw [checkIndex, if_pos hi]
  exact ends_pure.mpr h

theorem readCalls_ends {base : ℕ → BitVec 32} {i : ℕ} (hi : i < sp.maxNumNodes) {s : World}
    (h : Counting base s) : Ends (readCalls sp trace i) s fun (calls : BitVec 32) (s' : World) =>
      Keeps base s s' ∧ ∃ c, s.calls i ≤ c ∧ c ≤ s'.calls i ∧ s'.log = s.log ++ [.read i c] ∧
        calls = base i + BitVec.ofNat 32 c := by
  refine Ends.bind (Q := fun _ s' => s = s') (ends_checkIndex hi rfl) ?_
  rintro _ _ rfl
  simp only [ends_bind, ends_modify, ends_get, ends_pure]
  exact ⟨h.keeps_advance trace _, _, calls_le_advance s i, le_rfl, rfl, h.advance i⟩

theorem readAll_ends {base : ℕ → BitVec 32} {n : ℕ} (hn : n ≤ sp.maxNumNodes) {s : World}
    (h : Counting base s) : Ends (readAll sp trace n) s fun (values : ℕ → BitVec 32) (s' : World) =>
      Keeps base s s' ∧ ∃ calls : ℕ → ℕ, s'.log = s.log ++ readEvents n calls ∧
        ∀ k < n, s.calls k ≤ calls k ∧ calls k ≤ s'.calls k ∧
          values k = base k + BitVec.ofNat 32 (calls k) := by
  refine Ends.foldlM_range (fun i (values : ℕ → BitVec 32) s' =>
    Keeps base s s' ∧ ∃ calls : ℕ → ℕ,
    s'.log = s.log ++ readEvents i calls ∧ ∀ k < i, s.calls k ≤ calls k ∧
      calls k ≤ s'.calls k ∧ values k = base k + BitVec.ofNat 32 (calls k)) ?_ ?_
  · exact ⟨h.keeps, fun _ => 0, (List.append_nil _).symm, fun k hk => absurd hk k.not_lt_zero⟩
  · rintro i hi values s' ⟨hkeeps, calls, hlog, hcalls⟩
    refine (readCalls_ends (hi.trans_le hn) hkeeps.counting).bind fun value s'' hread => ?_
    obtain ⟨hkeeps', c, hle, hle', hlog', rfl⟩ := hread
    refine ends_pure.mpr ⟨hkeeps.trans hkeeps', Function.update calls i c, ?_, fun k hk => ?_⟩
    · rw [hlog', hlog, readEvents_succ, List.append_assoc]
    · by_cases hki : k = i
      · subst hki
        simp only [Function.update_self]
        exact ⟨(hkeeps.calls k).trans hle, hle', trivial⟩
      · obtain ⟨h1, h2, h3⟩ := hcalls k (by omega)
        simp only [Function.update_of_ne hki]
        exact ⟨h1, h2.trans (hkeeps'.calls k), h3⟩

/-- **`benchmark_multicore_do_ping_pong`.** The value is the throughput for the calls that the cores
have completed between the two readings of their counters. -/
theorem doPingPong_ends {n : ℕ} (hn : n ≤ sp.maxNumNodes) (s : World) :
    Ends (benchmarkMulticoreDoPingPong sp trace n) s fun value s' =>
      s'.results = s.results ∧ ∃ before after : ℕ → ℕ, (∀ k < n, before k ≤ after k) ∧
        s'.log = s.log ++ sampleEvents n before after ∧
        value = throughput n fun k => after k - before k := by
  obtain ⟨base, hbase⟩ := exists_counting s
  refine (readAll_ends hn hbase).bind fun start s₁ h₁ => ?_
  obtain ⟨hkeeps₁, before, hlog₁, hbefore⟩ := h₁
  refine Ends.bind (Q := fun _ s' => s' = (s₁.advance trace).record .wait) (ends_act.mpr rfl) ?_
  rintro _ s₂ rfl
  have hkeeps₂ := hkeeps₁.trans (hkeeps₁.counting.keeps_advance trace .wait)
  refine (readAll_ends hn hkeeps₂.counting).bind fun stop s₃ h₃ => ?_
  obtain ⟨hkeeps₃, after, hlog₃, hafter⟩ := h₃
  have hle : ∀ k < n, before k ≤ after k := fun k hk =>
    (hbefore k hk).2.1.trans ((calls_le_advance s₁ k).trans (hafter k hk).1)
  refine ends_pure.mpr ⟨(hkeeps₂.trans hkeeps₃).results, before, after, hle, ?_, ?_⟩
  · rw [hlog₃, World.record, sampleEvents]
    simp only [World.advance, hlog₁, List.append_assoc]
  · rw [throughput, totalCalls_eq fun k hk => ?_]
    rw [(hafter k hk).2.2, (hbefore k hk).2.2]
    exact counter_sub (base k) (hle k hk)

end Sel4bench.Smp
