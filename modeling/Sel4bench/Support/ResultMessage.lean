import Sel4bench.Ipc.Elapsed
import Sel4bench.Lib.Words

/-!
# Result messages

`send_result` splits a cycle count into words and writes them into the message registers, the most
significant word first; `get_result` puts a message together, of whatever length it is. On a
platform whose cycle count has `k` words the two are inverse to each other: a result arrives as it
was sent (`Sel4bench.Support.getResult_deliver_sendResult`), and a message of `k` words is the one
that is sent for its result (`Sel4bench.Support.sendResult_getResult`).

## Main definitions

* `Sel4bench.Support.Message`.
* `Sel4bench.Support.sendResult`, `Sel4bench.Support.getResult`.

## Main results

* `Sel4bench.Support.toNat_getResult` — the decoded result as a number.
* `Sel4bench.Support.result_roundTrip`.
-/

namespace Sel4bench.Support

open Ipc

variable {b w : ℕ}

/-- A message: the length in its tag, and the message registers. -/
structure Message (b : ℕ) where
  length : ℕ
  mr : ℕ → Word b

/-- `shift`, for a message of the given length. -/
def wordShift (b length : ℕ) : ℕ := if 1 < length then b else 0

/-- `send_result`, with the message registers before it. -/
def sendResult (mr : ℕ → Word b) (result : Ccnt w) : Message b where
  length := resultLength b w
  mr := (sendResultLoop b (wordShift b (resultLength b w)) (List.range (resultLength b w)).reverse
    mr result).1

/-- `get_result`. -/
def getResult (w : ℕ) (message : Message b) : Ccnt w :=
  (List.range message.length).foldl
    (fun result i => (result <<< wordShift b message.length) + (message.mr i).setWidth w) 0

/-- The message at a receiver, whose registers beyond the length stay what they were. The kernel
transfers `maxLength` registers at most. -/
def deliver (maxLength : ℕ) (message : Message b) (mr : ℕ → Word b) : Message b where
  length := min message.length maxLength
  mr i := if i < min message.length maxLength then message.mr i else mr i

/-! ### Registers -/

/-- Only the registers below the length are read. -/
theorem getResult_congr {message message' : Message b} (hlength : message.length = message'.length)
    (h : ∀ i < message.length, message.mr i = message'.mr i) :
    getResult w message = getResult w message' := by
  rw [getResult, getResult, ← hlength]
  exact List.foldl_ext _ _ _ fun result i hi => by rw [h i (List.mem_range.mp hi)]

/-- A message is delivered as it was sent, if it fits into the registers. -/
theorem getResult_deliver {maxLength : ℕ} {message : Message b} (h : message.length ≤ maxLength)
    (mr : ℕ → Word b) : getResult w (deliver maxLength message mr) = getResult w message :=
  getResult_congr (Nat.min_eq_left h) fun _ hi => if_pos hi

theorem sendResult_mr (mr : ℕ → Word b) (result : Ccnt w) (i : ℕ) :
    (sendResult mr result).mr i =
      if i < resultLength b w then
        (result >>> ((resultLength b w - 1 - i) * wordShift b (resultLength b w))).setWidth b
      else mr i :=
  sendResultLoop_apply ..

/-- The registers of a result, where all are zero before. -/
theorem sendResultMrs_eq (result : Ccnt w) :
    sendResultMrs b result = (sendResult (fun _ => 0) result).mr := rfl

/-- The result of a message of the length that `send_result` sets. -/
theorem getResultMrs_eq (mr : ℕ → Word b) :
    getResultMrs w mr = getResult w ⟨resultLength b w, mr⟩ := rfl

/-- **A result is decoded as it was encoded.** -/
theorem getResult_sendResult {k : ℕ} (hb : 0 < b) (hk : 0 < k) (mr : ℕ → Word b)
    (result : Ccnt (k * b)) : getResult (k * b) (sendResult mr result) = result := by
  have hregisters : ∀ i < (sendResult mr result).length,
      (sendResult mr result).mr i = (sendResult (fun _ => 0) result).mr i := by
    intro i hi
    have hi' : i < resultLength b (k * b) := hi
    rw [sendResult_mr, sendResult_mr, if_pos hi', if_pos hi']
  calc getResult (k * b) (sendResult mr result)
      = getResult (k * b) (sendResult (fun _ => (0 : Word b)) result) :=
        getResult_congr rfl hregisters
    _ = getResultMrs (k * b) (sendResultMrs b result) := by
        rw [getResultMrs_eq, sendResultMrs_eq]
        rfl
    _ = result := getResultMrs_sendResultMrs hb hk result

/-- **A result arrives as it was sent**, if its words fit into the registers that the kernel
transfers. -/
theorem getResult_deliver_sendResult {k maxLength : ℕ} (hb : 0 < b) (hk : 0 < k)
    (hmax : k ≤ maxLength) (mr mr' : ℕ → Word b) (result : Ccnt (k * b)) :
    getResult (k * b) (deliver maxLength (sendResult mr result) mr') = result := by
  have hlength : (sendResult mr result).length = k := Nat.mul_div_cancel k hb
  rw [getResult_deliver (hlength.trans_le hmax), getResult_sendResult hb hk]

/-! ### The number in a message -/

/-- A step of `get_result`: the words so far move up by one word, and nothing is lost. The shift of
a message of one word does not matter, since there are no words so far. -/
theorem toNat_getResult_step (hb : 0 < b) {k n : ℕ} (hn : n < k) (mr : ℕ → Word b)
    {result : Ccnt (k * b)} (h : result.toNat = Words.value mr n) :
    ((result <<< wordShift b k) + (mr n).setWidth (k * b)).toNat = Words.value mr (n + 1) := by
  have hpow : 2 ^ ((n + 1) * b) ≤ 2 ^ (k * b) :=
    Nat.pow_le_pow_right Nat.two_pos (Nat.mul_le_mul_right b hn)
  have hlt := (Words.value_lt hb mr (n + 1)).trans_le hpow
  rw [Words.value_succ] at hlt ⊢
  have hmr : ((mr n).setWidth (k * b)).toNat = (mr n).toNat := by
    rw [BitVec.toNat_setWidth, Nat.mod_eq_of_lt (by omega)]
  have hshift : (result <<< wordShift b k).toNat = 2 ^ b * Words.value mr n := by
    rw [BitVec.toNat_shiftLeft, Nat.shiftLeft_eq, h]
    rcases Nat.eq_zero_or_pos n with rfl | hpos
    · rw [Words.value_zero, Nat.zero_mul, Nat.zero_mod, Nat.mul_zero]
    · rw [wordShift, if_pos (by omega), Nat.mul_comm, Nat.mod_eq_of_lt (by omega)]
  rw [BitVec.toNat_add, hshift, hmr, Nat.add_comm, Nat.mod_eq_of_lt hlt]

/-- **The decoded result** is the number in the message, when the cycle count has as many words. -/
theorem toNat_getResult (hb : 0 < b) {k : ℕ} {message : Message b} (hlength : message.length = k) :
    (getResult (k * b) message).toNat = Words.value message.mr k := by
  have hfold : ∀ n ≤ k, ((List.range n).foldl (fun (result : Ccnt (k * b)) i =>
      (result <<< wordShift b k) + (message.mr i).setWidth (k * b)) 0).toNat =
        Words.value message.mr n := by
    intro n hn
    induction n with
    | zero => exact BitVec.toNat_zero
    | succ n ih =>
      rw [List.range_succ, List.foldl_append]
      exact toNat_getResult_step hb hn _ (ih (Nat.le_of_succ_le hn))
  rw [getResult, hlength]
  exact hfold k le_rfl

/-- **A message is what is sent for its result.** -/
theorem sendResult_getResult (hb : 0 < b) {k : ℕ} {message : Message b}
    (hlength : message.length = k) (mr : ℕ → Word b) {i : ℕ} (hi : i < k) :
    (sendResult mr (getResult (k * b) message)).mr i = message.mr i := by
  have hwords : resultLength b (k * b) = k := Nat.mul_div_cancel k hb
  -- A message of one word is not shifted.
  have hshift : (k - 1 - i) * wordShift b k = (k - 1 - i) * b := by
    rw [wordShift]
    split_ifs with hlt
    · rfl
    · rw [show k - 1 - i = 0 by omega, Nat.zero_mul, Nat.zero_mul]
  have hupper := Words.value_add_div message.mr (i + 1) (k - 1 - i)
  rw [show i + 1 + (k - 1 - i) = k by omega] at hupper
  rw [sendResult_mr, hwords, if_pos hi, hshift]
  apply BitVec.eq_of_toNat_eq
  rw [BitVec.toNat_setWidth, BitVec.toNat_ushiftRight, Nat.shiftRight_eq_div_pow,
    toNat_getResult hb hlength, hupper, Words.value_succ_mod]

/-- **Result messages.** On a platform whose cycle count has `k` words, `get_result` returns what
`send_result` was given, and `send_result` writes the words from which `get_result` has read. -/
theorem result_roundTrip {k : ℕ} (hb : 0 < b) (hk : 0 < k) :
    (∀ (result : Ccnt (k * b)) (mr : ℕ → Word b),
      getResult (k * b) (sendResult mr result) = result) ∧
    ∀ (message : Message b) (mr : ℕ → Word b), message.length = k →
      (sendResult mr (getResult (k * b) message)).length = k ∧
      ∀ i < k, (sendResult mr (getResult (k * b) message)).mr i = message.mr i :=
  ⟨fun result mr => getResult_sendResult hb hk mr result, fun _ mr hlength =>
    ⟨Nat.mul_div_cancel k hb, fun _ hi => sendResult_getResult hb hlength mr hi⟩⟩

/-- A cycle count of two words of 32 bits. -/
theorem result_roundTrip_two :
    getResult (2 * 32) (sendResult (fun _ => (0 : Word 32)) (0x500000007 : Ccnt (2 * 32))) =
      0x500000007 ∧
    (sendResult (fun _ => (0 : Word 32)) (getResult (2 * 32)
      (⟨2, fun i => if i = 0 then 5 else 7⟩ : Message 32))).mr 0 = 5 := by
  have h := result_roundTrip (b := 32) (k := 2) (by decide) (by decide)
  exact ⟨h.1 _ _, (h.2 ⟨2, fun i => if i = 0 then 5 else 7⟩ _ rfl).2 0 (by decide)⟩

end Sel4bench.Support
