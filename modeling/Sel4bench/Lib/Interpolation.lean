import Mathlib.Algebra.Order.Floor.Semiring
import Mathlib.Algebra.Order.Floor.Ring
import Mathlib.Data.Rat.Floor
import Mathlib.Tactic.FieldSimp
import Mathlib.Tactic.Linarith
import Mathlib.Tactic.Ring

/-!
# Piecewise-linear interpolation of a sequence

A sequence `f` with values in an ordered field is continued to the nonnegative positions by the
polygon through the points `(k, f k)`. The value of the polygon of a monotone sequence lies
between the two neighbours of the position, and grows with the position also where the two
positions are in different intervals (`Interpolation.interpolate_monotoneOn`).

## Main definitions

* `Interpolation.interpolate`.

## Main results

* `Interpolation.interpolate_natCast_add` — the polygon on one closed interval.
* `Interpolation.interpolate_mem_Icc` — the value lies between the neighbours.
* `Interpolation.interpolate_monotoneOn` — the polygon of a monotone sequence is monotone.
* `Interpolation.interpolate_sub_const` — the polygon of a translated sequence.
-/

namespace Interpolation

variable {K : Type*} [Field K] [LinearOrder K] [IsStrictOrderedRing K] [FloorSemiring K]
  {f : ℕ → K} {x y : K}

/-- The polygon through the points `(k, f k)`, at position `x`. -/
def interpolate (f : ℕ → K) (x : K) : K :=
  (1 - (x - ⌊x⌋₊)) * f ⌊x⌋₊ + (x - ⌊x⌋₊) * f (⌊x⌋₊ + 1)

@[simp] theorem interpolate_natCast (f : ℕ → K) (n : ℕ) : interpolate f n = f n := by
  simp [interpolate]

/-- The polygon on the closed interval from `n` to `n + 1`. -/
theorem interpolate_natCast_add (f : ℕ → K) (n : ℕ) {t : K} (h0 : 0 ≤ t) (h1 : t ≤ 1) :
    interpolate f (n + t) = (1 - t) * f n + t * f (n + 1) := by
  rcases h1.eq_or_lt with rfl | hlt
  · have hcast : (n : K) + 1 = ((n + 1 : ℕ) : K) := by push_cast; rfl
    rw [hcast, interpolate_natCast]
    ring
  · have hfloor : ⌊(n : K) + t⌋₊ = n := by
      rw [Nat.floor_eq_iff (by positivity)]
      constructor <;> linarith
    rw [interpolate, hfloor, add_sub_cancel_left]

/-- A position is its floor and a fraction. -/
theorem exists_eq_natCast_add (hx : 0 ≤ x) : ∃ t, 0 ≤ t ∧ t < 1 ∧ x = ⌊x⌋₊ + t := by
  refine ⟨x - ⌊x⌋₊, ?_, ?_, by ring⟩
  · linarith [Nat.floor_le hx]
  · linarith [Nat.lt_floor_add_one x]

/-- **The value lies between the two neighbours** of the position. -/
theorem interpolate_mem_Icc (hf : Monotone f) (hx : 0 ≤ x) :
    f ⌊x⌋₊ ≤ interpolate f x ∧ interpolate f x ≤ f (⌊x⌋₊ + 1) := by
  obtain ⟨t, h0, h1, hxt⟩ := exists_eq_natCast_add hx
  have hstep : f ⌊x⌋₊ ≤ f (⌊x⌋₊ + 1) := hf (Nat.le_succ _)
  have heq : interpolate f x = (1 - t) * f ⌊x⌋₊ + t * f (⌊x⌋₊ + 1) := by
    conv_lhs => rw [hxt]
    exact interpolate_natCast_add f _ h0 h1.le
  rw [heq]
  constructor <;> nlinarith

/-- **The polygon of a monotone sequence is monotone.** Positions in one interval are compared
by their fractions, positions in different intervals through the node after the smaller one. -/
theorem interpolate_monotoneOn (hf : Monotone f) : MonotoneOn (interpolate f) (Set.Ici 0) := by
  intro x hx y hy hxy
  rcases (Nat.floor_mono hxy).eq_or_lt with hfloor | hlt
  · obtain ⟨s, hs0, hs1, hxs⟩ := exists_eq_natCast_add hx
    obtain ⟨t, ht0, ht1, hyt⟩ := exists_eq_natCast_add hy
    rw [← hfloor] at hyt
    have hst : s ≤ t := by linarith
    have hstep : f ⌊x⌋₊ ≤ f (⌊x⌋₊ + 1) := hf (Nat.le_succ _)
    calc interpolate f x = (1 - s) * f ⌊x⌋₊ + s * f (⌊x⌋₊ + 1) := by
          conv_lhs => rw [hxs]
          exact interpolate_natCast_add f _ hs0 hs1.le
      _ ≤ (1 - t) * f ⌊x⌋₊ + t * f (⌊x⌋₊ + 1) := by nlinarith
      _ = interpolate f y := by
          conv_rhs => rw [hyt]
          exact (interpolate_natCast_add f _ ht0 ht1.le).symm
  · calc interpolate f x ≤ f (⌊x⌋₊ + 1) := (interpolate_mem_Icc hf hx).2
      _ ≤ f ⌊y⌋₊ := hf hlt
      _ ≤ interpolate f y := (interpolate_mem_Icc hf hy).1

omit [IsStrictOrderedRing K] in
theorem interpolate_sub_const (f : ℕ → K) (c x : K) :
    interpolate (fun k => f k - c) x = interpolate f x - c := by
  rw [interpolate, interpolate]
  ring

end Interpolation
