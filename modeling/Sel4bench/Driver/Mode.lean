import Sel4bench.Driver.Math

/-!
# The mode of the samples

`results_mode` goes once over the sorted samples and compares the length of a run of equal values
with the best one when the next value is different. The last run ends with the array, so that it
is never compared: the function returns a most frequent value among those below the greatest one
(`Sel4bench.ModeInv`), and the common value when all samples are equal. That is a mode of the
samples exactly when the greatest value is not more frequent than all others
(`Sel4bench.isMode_resultsMode_iff`).

## Main definitions

* `Sel4bench.IsMode`.
* `Sel4bench.ModeInv` — what the loop knows of the samples it has seen.

## Main results

* `Sel4bench.ModeInv.foldl` — the loop keeps its invariant.
* `Sel4bench.isMode_resultsMode_iff` — when the returned value is a mode.
-/

namespace Sel4bench

variable {w : ℕ}

/-- The value occurs in the data, at least as often as every other value. -/
def IsMode (data : List (Ccnt w)) (m : Ccnt w) : Prop :=
  m ∈ data ∧ ∀ x ∈ data, data.count x ≤ data.count m

/-- The variables of the loop after the samples `data`: the run that is still open, and the best
run among the closed ones, if there is one. -/
structure ModeInv (data : List (Ccnt w)) (s : ModeState w) : Prop where
  last : data.getLast? = some s.currentValue
  le_current : ∀ x ∈ data, x ≤ s.currentValue
  currentFreq : s.currentFreq.toNat = data.count s.currentValue
  mode_mem : s.mode ∈ data
  count_le : ∀ x ∈ data, x ≠ s.currentValue → data.count x ≤ s.modeFreq.toNat
  closed : (s.mode = s.currentValue ∧ s.modeFreq = 0 ∧ ∀ x ∈ data, x = s.currentValue) ∨
    (s.mode ≠ s.currentValue ∧ s.modeFreq.toNat = data.count s.mode)

section Concat

variable {data : List (Ccnt w)} {x y : Ccnt w}

theorem mem_of_mem_concat (hy : y ∈ data ++ [x]) (hyx : y ≠ x) : y ∈ data :=
  (List.mem_append.mp hy).resolve_right fun hy => hyx (List.mem_singleton.mp hy)

theorem le_concat (hx : ∀ y ∈ data, y ≤ x) : ∀ y ∈ data ++ [x], y ≤ x :=
  List.forall_mem_append.mpr ⟨hx, List.forall_mem_singleton.mpr (BitVec.le_refl x)⟩

theorem count_concat_of_ne (hyx : y ≠ x) : (data ++ [x]).count y = data.count y := by
  rw [List.count_append, List.count_singleton, if_neg (by simpa using Ne.symm hyx), Nat.add_zero]

end Concat

namespace ModeInv

variable {data : List (Ccnt w)} {s : ModeState w} {x : Ccnt w}

theorem current_mem (h : ModeInv data s) : s.currentValue ∈ data :=
  List.mem_of_getLast? h.last

theorem init (hw : 1 < 2 ^ w) (x : Ccnt w) : ModeInv [x] ⟨x, x, 1, 0⟩ where
  last := rfl
  le_current _ hy := BitVec.le_of_eq (List.mem_singleton.mp hy)
  currentFreq := by
    rw [List.count_singleton_self]
    exact Nat.mod_eq_of_lt hw
  mode_mem := List.mem_singleton_self x
  count_le _ hy hne := absurd (List.mem_singleton.mp hy) hne
  closed := .inl ⟨rfl, rfl, fun _ hy => List.mem_singleton.mp hy⟩

/-- The next sample extends the open run. -/
theorem extend (h : ModeInv data s) (hlen : data.length + 1 < 2 ^ w) :
    ModeInv (data ++ [s.currentValue]) { s with currentFreq := s.currentFreq + 1 } where
  last := List.getLast?_concat
  le_current := le_concat h.le_current
  currentFreq := by
    have hcount : data.count s.currentValue ≤ data.length := List.count_le_length
    have hone : (1 : Ccnt w).toNat = 1 := Nat.mod_eq_of_lt (by omega : 1 < 2 ^ w)
    rw [List.count_append, List.count_singleton_self, ← h.currentFreq, BitVec.toNat_add, hone]
    exact Nat.mod_eq_of_lt (by rw [h.currentFreq]; omega)
  mode_mem := List.mem_append_left _ h.mode_mem
  count_le y hy hne := by
    rw [count_concat_of_ne hne]
    exact h.count_le y (mem_of_mem_concat hy hne) hne
  closed := by
    obtain ⟨hmode, hfreq, hall⟩ | ⟨hmode, hfreq⟩ := h.closed
    · refine .inl ⟨hmode, hfreq, fun y hy => ?_⟩
      rw [List.mem_append, List.mem_singleton] at hy
      exact hy.elim (hall y) id
    · refine .inr ⟨hmode, ?_⟩
      rw [count_concat_of_ne hmode]
      exact hfreq

section Close

variable (h : ModeInv data s) (hx : ∀ y ∈ data, y ≤ x) (hne : s.currentValue ≠ x)

include h hx hne

/-- A sample that closes the open run is new. -/
theorem not_mem_of_close : x ∉ data := fun hmem =>
  hne (BitVec.le_antisymm (hx _ h.current_mem) (h.le_current x hmem))

theorem count_of_close {y : Ccnt w} (hy : y ∈ data) : (data ++ [x]).count y = data.count y :=
  count_concat_of_ne fun hyx => h.not_mem_of_close hx hne (hyx ▸ hy)

/-- The new run has one sample. -/
theorem freq_of_close (hw : 1 < 2 ^ w) : (1 : Ccnt w).toNat = (data ++ [x]).count x := by
  rw [List.count_append, List.count_singleton_self,
    List.count_eq_zero_of_not_mem (h.not_mem_of_close hx hne)]
  exact Nat.mod_eq_of_lt hw

/-- The run that is closed is the best one so far. -/
theorem close_best (hw : 1 < 2 ^ w) (hgt : s.currentFreq > s.modeFreq) :
    ModeInv (data ++ [x]) ⟨s.currentValue, x, 1, s.currentFreq⟩ := by
  have hcount := fun {y} hy => h.count_of_close hx hne (y := y) hy
  refine ⟨List.getLast?_concat, le_concat hx, h.freq_of_close hx hne hw,
    List.mem_append_left _ h.current_mem, fun y hy hyx => ?_, .inr ⟨hne, ?_⟩⟩
  · have hy' := mem_of_mem_concat hy hyx
    rw [hcount hy']
    by_cases hcur : y = s.currentValue
    · rw [hcur, h.currentFreq]
    · exact (h.count_le y hy' hcur).trans (BitVec.le_def.mp (BitVec.le_of_lt hgt))
  · rw [hcount h.current_mem, h.currentFreq]

/-- The run that is closed is no longer than the best one. -/
theorem close_other (hw : 1 < 2 ^ w) (hgt : ¬s.currentFreq > s.modeFreq) :
    ModeInv (data ++ [x]) ⟨s.mode, x, 1, s.modeFreq⟩ := by
  have hcount := fun {y} hy => h.count_of_close hx hne (y := y) hy
  have hle : data.count s.currentValue ≤ s.modeFreq.toNat := by
    rw [← h.currentFreq]
    exact not_lt.mp fun hlt => hgt (BitVec.lt_def.mpr hlt)
  have hpos : 0 < data.count s.currentValue := List.count_pos_iff.mpr h.current_mem
  -- The first run that is closed is longer than the initial `mode_freq`.
  obtain ⟨-, hzero, -⟩ | ⟨-, hmode⟩ := h.closed
  · have hfreq : s.modeFreq.toNat = 0 := by rw [hzero, BitVec.ofNat_eq_ofNat, BitVec.toNat_zero]
    omega
  refine ⟨List.getLast?_concat, le_concat hx, h.freq_of_close hx hne hw,
    List.mem_append_left _ h.mode_mem, fun y hy hyx => ?_, .inr ⟨fun heq => ?_, ?_⟩⟩
  · have hy' := mem_of_mem_concat hy hyx
    rw [hcount hy']
    by_cases hcur : y = s.currentValue
    · rw [hcur]
      exact hle
    · exact h.count_le y hy' hcur
  · have hmode : s.mode = x := heq
    exact h.not_mem_of_close hx hne (hmode ▸ h.mode_mem)
  · rw [hcount h.mode_mem]
    exact hmode

/-- A greater sample closes the open run, which becomes the best one if it is longer. -/
theorem close (hw : 1 < 2 ^ w) : ModeInv (data ++ [x]) (s.step x) := by
  have hstep : s.step x = if s.currentFreq > s.modeFreq then
      ⟨s.currentValue, x, 1, s.currentFreq⟩ else ⟨s.mode, x, 1, s.modeFreq⟩ := by
    rw [ModeState.step, if_neg hne]
    split_ifs <;> rfl
  rw [hstep]
  split_ifs with hgt
  · exact h.close_best hx hne hw hgt
  · exact h.close_other hx hne hw hgt

end Close

/-- The loop keeps its invariant. -/
theorem foldl (h : ModeInv data s) (rest : List (Ccnt w))
    (hsorted : (data ++ rest).Pairwise (· ≤ ·)) (hlen : (data ++ rest).length < 2 ^ w) :
    ModeInv (data ++ rest) (rest.foldl ModeState.step s) := by
  induction rest generalizing data s with
  | nil => rwa [List.append_nil]
  | cons x rest ih =>
    rw [← List.singleton_append, ← List.append_assoc] at hsorted hlen ⊢
    refine ih ?_ hsorted hlen
    have hx : ∀ y ∈ data, y ≤ x := fun y hy =>
      (List.pairwise_append.mp (List.pairwise_append.mp hsorted).1).2.2 y hy x
        (List.mem_singleton_self x)
    rw [List.length_append, List.length_append, List.length_singleton] at hlen
    by_cases hcur : s.currentValue = x
    · subst hcur
      rw [ModeState.step, if_pos rfl]
      exact h.extend (by omega)
    · exact h.close hx hcur (by omega)

end ModeInv

theorem resultsMode_cons (x : Ccnt w) (rest : List (Ccnt w)) :
    resultsMode (x :: rest) = (rest.foldl ModeState.step ⟨x, x, 1, 0⟩).mode := by
  cases rest with
  | nil => rfl
  | cons y rest => rfl

/-- **The mode of sorted samples.** The array has fewer elements than a counter has values. The
value that `results_mode` returns is a mode if and only if all samples are equal, or a value other
than the last one occurs as often as the last one. -/
theorem isMode_resultsMode_iff {sortedData : List (Ccnt w)} (hne : sortedData ≠ [])
    (hsorted : sortedData.Pairwise (· ≤ ·)) (hlen : sortedData.length < 2 ^ w) :
    IsMode sortedData (resultsMode sortedData) ↔
      (∀ x ∈ sortedData, x = sortedData.getLast hne) ∨
        ∃ x ∈ sortedData, x ≠ sortedData.getLast hne ∧
          sortedData.count (sortedData.getLast hne) ≤ sortedData.count x := by
  obtain ⟨x, rest, rfl⟩ := List.exists_cons_of_ne_nil hne
  have hw : 1 < 2 ^ w := lt_of_le_of_lt (by simp) hlen
  have hinv : ModeInv (x :: rest) _ := (ModeInv.init hw x).foldl rest hsorted hlen
  set s := rest.foldl ModeState.step ⟨x, x, 1, 0⟩ with hs
  have hlast : (x :: rest).getLast hne = s.currentValue :=
    Option.some_injective _ ((List.getLast?_eq_some_getLast hne).symm.trans hinv.last)
  rw [resultsMode_cons, ← hs, hlast]
  obtain ⟨hmode, -, hall⟩ | ⟨hmode, hfreq⟩ := hinv.closed
  · refine iff_of_true ⟨hinv.mode_mem, fun y hy => ?_⟩ (.inl hall)
    rw [hall y hy, hmode]
  · constructor
    · exact fun h => .inr ⟨s.mode, hinv.mode_mem, hmode, h.2 _ hinv.current_mem⟩
    · rintro (hall | ⟨y, hy, hyne, hcount⟩)
      · exact absurd (hall _ hinv.mode_mem) hmode
      · refine ⟨hinv.mode_mem, fun z hz => ?_⟩
        by_cases hzc : z = s.currentValue
        · rw [hzc, ← hfreq]
          exact hcount.trans (hinv.count_le y hy hyne)
        · rw [← hfreq]
          exact hinv.count_le z hz hzc

/-- The samples `1`, `2` and `2` have the mode `2`, and `results_mode` returns `1`. -/
theorem resultsMode_not_isMode : ([1, 2, 2] : List (Ccnt 64)).Pairwise (· ≤ ·) ∧
    resultsMode ([1, 2, 2] : List (Ccnt 64)) = 1 ∧
    ¬IsMode [1, 2, 2] (resultsMode ([1, 2, 2] : List (Ccnt 64))) := by
  refine ⟨by decide, by decide, fun h => ?_⟩
  exact absurd (h.2 2 (by decide)) (by decide)

/-- The samples `1`, `1` and `2`. -/
theorem isMode_resultsMode_iff_closed :
    IsMode [1, 1, 2] (resultsMode ([1, 1, 2] : List (Ccnt 64))) :=
  (isMode_resultsMode_iff (by decide) (by decide) (by decide)).mpr
    (.inr ⟨1, by decide, by decide, by decide⟩)

end Sel4bench
