import Sel4bench.EarlyProcessing

/-!
# The recorded time of an IPC run

A helper sends its timestamp in message registers (`send_result`), and `run_bench` reads two
timestamps in the order in which they arrive (`get_result`). Since that order is not known,
`main` records the difference of the larger and the smaller timestamp. The registers deliver the
timestamp (`Sel4bench.Ipc.getResultMrs_sendResultMrs`); the difference is the elapsed time, in
either order, exactly when the counter does not wrap between the two readings
(`Sel4bench.Ipc.recordedTime_eq_iff`). The difference modulo the counter range, which the other
benchmarks record, does not need this.

## Main definitions

* `Sel4bench.Ipc.sendResultMrs`, `Sel4bench.Ipc.getResultMrs`.
* `Sel4bench.Ipc.recordedTime`.

## Main results

* `Sel4bench.Ipc.getResultMrs_sendResultMrs`.
* `Sel4bench.Ipc.recordedTime_eq_iff`.
-/

namespace Sel4bench.Ipc

variable {b w : ℕ}

/-! ### Timestamps in message registers -/

/-- `sizeof(ccnt_t) / sizeof(seL4_Word)`. -/
def resultLength (b w : ℕ) : ℕ := w / b

/-- The distance by which a timestamp is shifted from register to register. -/
def resultShift (b w : ℕ) : ℕ := if 1 < resultLength b w then b else 0

/-- The loop of `send_result`: from the last register to the first. -/
def sendResultLoop (b shift : ℕ) (registers : List ℕ) (mr : ℕ → Word b) (result : Ccnt w) :
    (ℕ → Word b) × Ccnt w :=
  registers.foldl (fun acc i => (Function.update acc.1 i (acc.2.setWidth b), acc.2 >>> shift))
    (mr, result)

/-- The message registers after `send_result`. -/
def sendResultMrs (b : ℕ) (result : Ccnt w) : ℕ → Word b :=
  (sendResultLoop b (resultShift b w) (List.range (resultLength b w)).reverse (fun _ => 0)
    result).1

/-- `get_result`, with the length that `send_result` sets. -/
def getResultMrs (w : ℕ) (mr : ℕ → Word b) : Ccnt w :=
  (List.range (resultLength b w)).foldl
    (fun result i => (result <<< resultShift b w) + (mr i).setWidth w) 0

/-- The registers after the loop of `send_result`. -/
theorem sendResultLoop_apply (shift n : ℕ) (mr : ℕ → Word b) (result : Ccnt w) (i : ℕ) :
    (sendResultLoop b shift (List.range n).reverse mr result).1 i =
      if i < n then (result >>> ((n - 1 - i) * shift)).setWidth b else mr i := by
  induction n generalizing mr result with
  | zero => rfl
  | succ n ih =>
    have hloop : sendResultLoop b shift (List.range (n + 1)).reverse mr result =
        sendResultLoop b shift (List.range n).reverse
          (Function.update mr n (result.setWidth b)) (result >>> shift) := by
      rw [List.range_succ, List.reverse_append]
      rfl
    rw [hloop, ih]
    rcases Nat.lt_trichotomy i n with hlt | rfl | hgt
    · rw [if_pos hlt, if_pos (by omega), ← BitVec.shiftRight_add,
        show n + 1 - 1 - i = n - 1 - i + 1 by omega, Nat.add_one_mul, Nat.add_comm shift]
    · simp
    · rw [if_neg (by omega), if_neg (by omega), Function.update_of_ne (by omega)]

/-- A value is its upper part and its last word. -/
theorem shiftLeft_ushiftRight_add (x : Ccnt w) (hb : b ≤ w) :
    ((x >>> b) <<< b) + (x.setWidth b).setWidth w = x := by
  have hpow : 2 ^ b ≤ 2 ^ w := Nat.pow_le_pow_right (by omega) hb
  have hdiv : x.toNat / 2 ^ b * 2 ^ b + x.toNat % 2 ^ b = x.toNat := Nat.div_add_mod' _ _
  have hlt := x.isLt
  have hmod : x.toNat % 2 ^ b < 2 ^ b := Nat.mod_lt _ (Nat.two_pow_pos b)
  apply BitVec.eq_of_toNat_eq
  rw [BitVec.toNat_add, BitVec.toNat_shiftLeft, BitVec.toNat_ushiftRight, Nat.shiftRight_eq_div_pow,
    Nat.shiftLeft_eq, BitVec.toNat_setWidth, BitVec.toNat_setWidth,
    Nat.mod_eq_of_lt (hmod.trans_le hpow), Nat.mod_add_mod, hdiv, Nat.mod_eq_of_lt hlt]

/-- The first `k` registers hold the upper part of the timestamp. -/
theorem getResultMrs_foldl (n : ℕ) (t : Ccnt (n * b)) {k : ℕ} (hk : k ≤ n) :
    (List.range k).foldl (fun (result : Ccnt (n * b)) i =>
      (result <<< b) + ((t >>> ((n - 1 - i) * b)).setWidth b).setWidth (n * b)) 0 =
        t >>> ((n - k) * b) := by
  induction k with
  | zero =>
    apply BitVec.eq_of_toNat_eq
    rw [List.range_zero, List.foldl_nil, Nat.sub_zero, BitVec.toNat_ushiftRight,
      Nat.shiftRight_eq_div_pow, Nat.div_eq_of_lt t.isLt, BitVec.ofNat_eq_ofNat, BitVec.toNat_zero]
  | succ k ih =>
    rw [List.range_succ, List.foldl_append, ih (by omega), List.foldl_cons, List.foldl_nil,
      show n - k = n - 1 - k + 1 by omega, show n - (k + 1) = n - 1 - k by omega,
      Nat.add_one_mul, BitVec.shiftRight_add]
    exact shiftLeft_ushiftRight_add _ (Nat.le_mul_of_pos_left b (by omega))

/-- **The registers deliver the timestamp**, on a platform whose counter has `n` words. -/
theorem getResultMrs_sendResultMrs {n : ℕ} (hb : 0 < b) (hn : 0 < n) (t : Ccnt (n * b)) :
    getResultMrs (n * b) (sendResultMrs b t) = t := by
  have hlength : resultLength b (n * b) = n := Nat.mul_div_cancel n hb
  rw [getResultMrs, hlength]
  have hmr : ∀ i < n, sendResultMrs b t i =
      (t >>> ((n - 1 - i) * resultShift b (n * b))).setWidth b := fun i hi => by
    rw [sendResultMrs, sendResultLoop_apply, hlength, if_pos hi]
  rcases Nat.lt_or_ge 1 n with hlt | hge
  · have hshift : resultShift b (n * b) = b := if_pos (hlength.symm ▸ hlt)
    have hfold := getResultMrs_foldl n t le_rfl
    rw [Nat.sub_self, Nat.zero_mul, BitVec.ushiftRight_zero] at hfold
    rw [hshift] at hmr ⊢
    refine Eq.trans (List.foldl_ext _ _ _ fun result i hi => ?_) hfold
    rw [hmr i (List.mem_range.mp hi)]
  · -- One register holds the whole timestamp.
    obtain rfl : n = 1 := by omega
    rw [List.range_one, List.foldl_cons, List.foldl_nil, hmr 0 hn]
    simp

/-! ### The recorded time -/

/-- The store of `main` after `run_bench(…, &end, &start, …)`. -/
def recordedTime (stop start : Ccnt w) : Ccnt w :=
  if stop > start then stop - start else start - stop

/-- The larger and the smaller timestamp do not depend on their order. -/
theorem recordedTime_comm (x y : Ccnt w) : recordedTime x y = recordedTime y x := by
  rw [recordedTime, recordedTime]
  rcases BitVec.le_total x y with h | h
  · rcases eq_or_ne x y with rfl | hne
    · rfl
    · rw [if_neg (BitVec.not_lt.mpr h), if_pos (BitVec.lt_of_le_ne h hne)]
  · rcases eq_or_ne x y with rfl | hne
    · rfl
    · rw [if_pos (BitVec.lt_of_le_ne h hne.symm), if_neg (BitVec.not_lt.mpr h)]

/-- The recorded time is the elapsed one where the counter does not wrap. -/
theorem recordedTime_add_eq_iff (s d : Ccnt w) (hd : d.toNat < 2 ^ (w - 1)) :
    recordedTime (s + d) s = d ↔ s.toNat + d.toNat < 2 ^ w := by
  have hs := s.isLt
  have hhalf := add_lt_of_lt_half hd hd
  have hle : s + d - s = d := add_sub_cancel_left s d
  have hneg : s - (s + d) = -d := sub_add_cancel_left s d
  constructor
  · intro h
    by_contra hwrap
    have hdlt := d.isLt
    have hsum : (s + d).toNat = s.toNat + d.toNat - 2 ^ w := by
      rw [BitVec.toNat_add, Nat.mod_eq_sub_mod (by omega), Nat.mod_eq_of_lt (by omega)]
    rw [recordedTime, if_neg (BitVec.not_lt.mpr (BitVec.le_def.mpr (by omega))), hneg] at h
    have hzero := congrArg BitVec.toNat h
    rw [BitVec.toNat_neg] at hzero
    rcases Nat.eq_zero_or_pos d.toNat with h0 | hpos
    · omega
    · rw [Nat.mod_eq_of_lt (by omega)] at hzero
      omega
  · intro h
    have hsum : (s + d).toNat = s.toNat + d.toNat := by
      rw [BitVec.toNat_add, Nat.mod_eq_of_lt h]
    rw [recordedTime]
    split_ifs with hgt
    · exact hle
    · have h0 : d.toNat = 0 := by
        rw [gt_iff_lt, BitVec.lt_def] at hgt
        omega
      obtain rfl : d = 0 := BitVec.eq_of_toNat_eq h0
      simp

/-- **The recorded IPC time.** Whichever of the two timestamps arrives first, `main` records the
elapsed time if and only if the counter does not wrap between them. -/
theorem recordedTime_eq_iff {n : ℕ} (hb : 0 < b) (hn : 0 < n) (s d : Ccnt (n * b))
    (hd : d.toNat < 2 ^ (n * b - 1)) {stop start : Ccnt (n * b)}
    (horder : (stop, start) = (s, s + d) ∨ (stop, start) = (s + d, s)) :
    recordedTime (getResultMrs (n * b) (sendResultMrs b stop))
        (getResultMrs (n * b) (sendResultMrs b start)) = d ↔
      s.toNat + d.toNat < 2 ^ (n * b) := by
  rw [getResultMrs_sendResultMrs hb hn, getResultMrs_sendResultMrs hb hn]
  rcases horder with h | h
  · obtain ⟨rfl, rfl⟩ := Prod.mk.inj h
    rw [recordedTime_comm]
    exact recordedTime_add_eq_iff _ d hd
  · obtain ⟨rfl, rfl⟩ := Prod.mk.inj h
    exact recordedTime_add_eq_iff _ d hd

/-- Five cycles from the last counter value are recorded as the rest of the counter range. -/
theorem recordedTime_wraps :
    (5 : Ccnt 64).toNat < 2 ^ (64 - 1) ∧
    recordedTime (getResultMrs 64 (sendResultMrs 64 (2 ^ 64 - 1 : Ccnt 64)))
        (getResultMrs 64 (sendResultMrs 64 (2 ^ 64 - 1 + 5 : Ccnt 64))) ≠ 5 ∧
    recordedTime (getResultMrs 64 (sendResultMrs 64 (2 ^ 64 - 1 + 5 : Ccnt 64)))
        (getResultMrs 64 (sendResultMrs 64 (2 ^ 64 - 1 : Ccnt 64))) ≠ 5 := by
  decide +kernel

/-- Five cycles from counter value `100`, on a 32-bit platform with a counter of two words. -/
theorem recordedTime_eq_iff_hundred :
    recordedTime (getResultMrs (2 * 32) (sendResultMrs 32 (100 : Ccnt (2 * 32))))
        (getResultMrs (2 * 32) (sendResultMrs 32 (100 + 5 : Ccnt (2 * 32)))) = 5 :=
  (recordedTime_eq_iff (by decide) (by decide) 100 5 (by decide) (.inl rfl)).mpr (by decide)

end Sel4bench.Ipc
