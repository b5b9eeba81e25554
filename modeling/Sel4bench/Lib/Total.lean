import Mathlib.Control.Monad.Basic
import Mathlib.Data.List.Basic

/-!
# Total correctness of programs with a state and failure

A program in the monad `StateT σ Option` may read and change a state and may fail.
`Total.Ends x s Q` says that the program `x`, started in the state `s`, ends without failure, with a
result and a state for which `Q` holds. The rules for the operations of the monad are equivalences,
so that `simp` executes a program symbolically. A loop over a list has the rule of an invariant over
the elements that are done (`Total.Ends.forM`).

## Main definitions

* `Total.Ends`.
* `Total.cAssert` — an assertion.

## Main results

* `Total.ends_bind` — the rule of sequential composition.
* `Total.Ends.forM`, `Total.Ends.forM_range`, `Total.Ends.foldlM_range` — the rules of loops.
-/

namespace Total

universe u v

variable {σ α β : Type u} {γ : Type v}

/-- Started in `s`, the program `x` ends without failure, and `Q` holds of the result and the state
in the end. -/
def Ends (x : StateT σ Option α) (s : σ) (Q : α → σ → Prop) : Prop :=
  ∃ a s', x s = some (a, s') ∧ Q a s'

variable {x : StateT σ Option α} {s : σ} {Q Q' : α → σ → Prop}

/-- The rule of consequence. -/
theorem Ends.mono (h : Ends x s Q) (hQ : ∀ a s', Q a s' → Q' a s') : Ends x s Q' := by
  obtain ⟨a, s', hx, hq⟩ := h
  exact ⟨a, s', hx, hQ a s' hq⟩

/-- A program has at most one run, so that two postconditions hold together. -/
theorem Ends.and (h : Ends x s Q) (h' : Ends x s Q') : Ends x s fun a s' => Q a s' ∧ Q' a s' := by
  obtain ⟨a, s', hx, hq⟩ := h
  obtain ⟨a', s'', hx', hq'⟩ := h'
  obtain ⟨rfl, rfl⟩ := Prod.mk.inj (Option.some.inj (hx.symm.trans hx'))
  exact ⟨a, s', hx, hq, hq'⟩

/-- A program that ends has a run. -/
theorem Ends.exists_run {R : σ → Prop} {x : StateT σ Option PUnit} (h : Ends x s fun _ => R) :
    ∃ s', x s = some (⟨⟩, s') ∧ R s' := by
  obtain ⟨_, s', hx, hr⟩ := h
  exact ⟨s', hx, hr⟩

@[simp]
theorem ends_pure {a : α} : Ends (pure a) s Q ↔ Q a s := by
  constructor
  · rintro ⟨a', s', h, hq⟩
    obtain ⟨rfl, rfl⟩ := Prod.mk.inj (Option.some.inj h)
    exact hq
  · intro hq
    exact ⟨a, s, rfl, hq⟩

/-- Sequential composition. -/
@[simp]
theorem ends_bind {f : α → StateT σ Option β} {R : β → σ → Prop} :
    Ends (x >>= f) s R ↔ Ends x s fun a s' => Ends (f a) s' R := by
  constructor
  · rintro ⟨b, s'', h, hr⟩
    obtain ⟨⟨a, s'⟩, hx, hf⟩ := Option.bind_eq_some_iff.mp h
    exact ⟨a, s', hx, b, s'', hf, hr⟩
  · rintro ⟨a, s', hx, b, s'', hf, hr⟩
    exact ⟨b, s'', Option.bind_eq_some_iff.mpr ⟨⟨a, s'⟩, hx, hf⟩, hr⟩

theorem Ends.bind {f : α → StateT σ Option β} {R : β → σ → Prop} (hx : Ends x s Q)
    (hf : ∀ a s', Q a s' → Ends (f a) s' R) : Ends (x >>= f) s R :=
  ends_bind.mpr (hx.mono hf)

@[simp]
theorem ends_map {f : α → β} {R : β → σ → Prop} :
    Ends (f <$> x) s R ↔ Ends x s fun a => R (f a) := by
  rw [← bind_pure_comp, ends_bind]
  simp only [ends_pure]

@[simp]
theorem ends_get {Q : σ → σ → Prop} : Ends get s Q ↔ Q s s :=
  ends_pure

@[simp]
theorem ends_set {s' : σ} {Q : PUnit → σ → Prop} : Ends (set s') s Q ↔ Q ⟨⟩ s' :=
  ends_pure

@[simp]
theorem ends_modify {f : σ → σ} {Q : PUnit → σ → Prop} : Ends (modify f) s Q ↔ Q ⟨⟩ (f s) :=
  ends_pure

@[simp]
theorem not_ends_failure : ¬Ends (failure : StateT σ Option α) s Q := by
  rintro ⟨a, s', h, -⟩
  exact Option.some_ne_none (a, s') (h : none = some (a, s')).symm

theorem ends_ite_failure {c : Prop} [Decidable c] :
    Ends (if c then x else failure) s Q ↔ c ∧ Ends x s Q := by
  split_ifs with hc
  · exact (and_iff_right hc).symm
  · exact iff_of_false not_ends_failure fun h => hc h.1

/-- The assertion `assert` of C: the program fails unless the condition holds. -/
def cAssert (c : Prop) [Decidable c] : StateT σ Option PUnit := if c then pure ⟨⟩ else failure

@[simp]
theorem ends_cAssert {c : Prop} [Decidable c] {Q : PUnit → σ → Prop} :
    Ends (cAssert c) s Q ↔ c ∧ Q ⟨⟩ s := by
  rw [cAssert, ends_ite_failure, ends_pure]

/-- A loop: `I` holds of the elements that are done and the state. -/
theorem Ends.forM {f : γ → StateT σ Option PUnit} {l : List γ} (I : List γ → σ → Prop)
    (h0 : I [] s)
    (step : ∀ done c todo, l = done ++ c :: todo → ∀ s, I done s →
      Ends (f c) s fun _ => I (done ++ [c])) :
    Ends (l.forM f) s fun _ => I l := by
  suffices h : ∀ todo done, l = done ++ todo → ∀ s, I done s →
      Ends (todo.forM f) s fun _ => I l from h l [] rfl s h0
  intro todo
  induction todo with
  | nil =>
    rintro done rfl s hI
    simpa using hI
  | cons c todo ih =>
    intro done hl s hI
    refine Ends.bind (step done c todo hl s hI) fun _ s' hI' => ?_
    exact ih (done ++ [c]) (by simpa using hl) s' hI'

theorem forM_range_succ (f : ℕ → StateT σ Option PUnit) (n : ℕ) :
    (List.range (n + 1)).forM f = (List.range n).forM f >>= fun _ => f n := by
  simp [List.range_succ]

/-- A loop over the numbers below `n`. -/
theorem Ends.forM_range {n : ℕ} {f : ℕ → StateT σ Option PUnit} (I : ℕ → σ → Prop) (h0 : I 0 s)
    (step : ∀ i < n, ∀ s, I i s → Ends (f i) s fun _ => I (i + 1)) :
    Ends ((List.range n).forM f) s fun _ => I n := by
  induction n with
  | zero => simpa using h0
  | succ n ih =>
    rw [forM_range_succ]
    exact (ih fun i hi => step i (by omega)).bind fun _ s' h => step n n.lt_succ_self s' h

/-- A loop over the numbers below `n` that changes variables. -/
theorem Ends.foldlM_range {n : ℕ} {f : β → ℕ → StateT σ Option β} {b : β} (I : ℕ → β → σ → Prop)
    (h0 : I 0 b s) (step : ∀ i < n, ∀ b s, I i b s → Ends (f b i) s (I (i + 1))) :
    Ends ((List.range n).foldlM f b) s (I n) := by
  induction n with
  | zero => simpa using h0
  | succ n ih =>
    rw [List.range_succ, List.foldlM_append]
    refine (ih fun i hi => step i (by omega)).bind fun b' s' h => ?_
    simpa using step n n.lt_succ_self b' s' h

end Total
