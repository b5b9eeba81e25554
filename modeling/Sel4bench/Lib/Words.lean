import Mathlib.Data.Nat.Digits.Lemmas

/-!
# Numbers in words

A sequence of words of `b` bits, the most significant word first, stands for a number. Its first
words are the number divided by a power of `2 ^ b`, its last word is the remainder modulo `2 ^ b`.

## Main definitions

* `Words.value`.

## Main results

* `Words.value_lt` — the number fits into its words.
* `Words.value_add_div`, `Words.value_succ_mod` — the upper words and the last one.
-/

namespace Words

variable {b : ℕ}

/-- The number in the first `n` words. -/
def value (word : ℕ → BitVec b) (n : ℕ) : ℕ :=
  Nat.ofDigits (2 ^ b) ((List.range n).reverse.map fun i => (word i).toNat)

@[simp]
theorem value_zero (word : ℕ → BitVec b) : value word 0 = 0 := rfl

theorem value_succ (word : ℕ → BitVec b) (n : ℕ) :
    value word (n + 1) = (word n).toNat + 2 ^ b * value word n := by
  rw [value, List.range_succ, List.reverse_append, List.reverse_singleton, List.singleton_append,
    List.map_cons, Nat.ofDigits_cons]
  rfl

theorem value_lt (hb : 0 < b) (word : ℕ → BitVec b) (n : ℕ) : value word n < 2 ^ (n * b) := by
  have hlt : value word n <
      (2 ^ b) ^ ((List.range n).reverse.map fun i => (word i).toNat).length := by
    refine Nat.ofDigits_lt_base_pow_length (Nat.one_lt_two_pow hb.ne') fun x hx => ?_
    obtain ⟨i, -, rfl⟩ := List.mem_map.mp hx
    exact (word i).isLt
  rwa [List.length_map, List.length_reverse, List.length_range, ← pow_mul, Nat.mul_comm] at hlt

/-- The number in the upper words. -/
theorem value_add_div (word : ℕ → BitVec b) (n j : ℕ) :
    value word (n + j) / 2 ^ (j * b) = value word n := by
  induction j with
  | zero => rw [Nat.zero_mul, pow_zero, Nat.div_one, Nat.add_zero]
  | succ j ih =>
    rw [← Nat.add_assoc, value_succ, Nat.add_one_mul, Nat.add_comm (j * b), pow_add,
      ← Nat.div_div_eq_div_mul, Nat.add_mul_div_left _ _ (Nat.two_pow_pos b),
      Nat.div_eq_of_lt (word (n + j)).isLt, Nat.zero_add, ih]

/-- The last word. -/
theorem value_succ_mod (word : ℕ → BitVec b) (n : ℕ) :
    value word (n + 1) % 2 ^ b = (word n).toNat := by
  rw [value_succ, Nat.add_mul_mod_self_left, Nat.mod_eq_of_lt (word n).isLt]

end Words
