import Sel4bench.Lib.Machine
import Mathlib.Data.Set.Finite.Lemmas

/-!
# Fixed priorities

A scheduler with fixed priorities lets a thread run only while all threads of higher priority are
blocked. The priorities are part of the kernel state, so that threads can change them. A step of
two parties is taken by one of them, the other one waits; the rule does not ask which.

## Main definitions

* `Machine.FixedPriority` — the steps that the scheduler allows.

## Main results

* `Machine.FixedPriority.blocked` — while a thread takes a step, those that outrank it are blocked.
* `Machine.exists_fixedPriority` — when some step is possible, the scheduler allows one.
-/

namespace Machine

variable {σ : Sig} {code : σ.Label → Prog σ} {prio : Kernel σ → σ.Party → ℕ} {s : State σ}
  {p : σ.Party}

/-- Every party that outranks all that take part in the step is blocked. -/
def FixedPriority (code : σ.Label → Prog σ) (prio : Kernel σ → σ.Party → ℕ) (s : State σ)
    (ps : List σ.Party) : Prop :=
  ∀ q, (∀ p ∈ ps, prio s.kernel p < prio s.kernel q) → Blocked code s q

theorem FixedPriority.blocked (h : FixedPriority code prio s [p]) {q : σ.Party}
    (hlt : prio s.kernel p < prio s.kernel q) : Blocked code s q :=
  h q fun _ hp => (List.mem_singleton.mp hp) ▸ hlt

theorem FixedPriority.blocked_of_two {p' : σ.Party} (h : FixedPriority code prio s [p, p'])
    {q : σ.Party} (hlt : prio s.kernel p < prio s.kernel q)
    (hlt' : prio s.kernel p' < prio s.kernel q) : Blocked code s q := by
  refine h q fun u hu => ?_
  simp only [List.mem_cons, List.not_mem_nil, or_false] at hu
  obtain rfl | rfl := hu
  · exact hlt
  · exact hlt'

/-! ### What a blocked party may be doing -/

theorem Step.exists_mem {ps : List σ.Party} {s' : State σ} (h : Step code s ps s') :
    ∃ p, p ∈ ps := by
  cases h with
  | act | exchange | jump | start | suspend => exact ⟨_, List.mem_cons_self⟩

theorem Blocked.not_jump (h : Blocked code s p) {ℓ : σ.Label} : s.thread p ≠ .jump ℓ :=
  fun hp => h _ _ (List.mem_singleton_self p) (.jump hp)

/-- A blocked party is not at a request that it can complete by itself. -/
theorem Blocked.not_effect (h : Blocked code s p) {r : Req σ} {k : r.Resp → Prog σ} {a : r.Resp}
    {κ : Kernel σ} (hp : s.thread p = .op r k) : ¬Effect s p r a κ :=
  fun heff => h _ _ (List.mem_singleton_self p) (.act hp heff)

theorem Blocked.not_start (h : Blocked code s p) {q : σ.Party} {ℓ : σ.Label} {k : Unit → Prog σ}
    (hpq : p ≠ q) : s.thread p ≠ .op (.start q ℓ) k :=
  fun hp => h _ _ (List.mem_singleton_self p) (.start hpq hp)

/-- The flag for which a blocked party waits is clear. -/
theorem Blocked.pending_eq_false (h : Blocked code s p) {n : σ.Ntfn} {k : Unit → Prog σ}
    (hp : s.thread p = .op (.wait n) k) : s.kernel.pending n = false := by
  cases hn : s.kernel.pending n with
  | false => rfl
  | true => exact absurd (Effect.wait n hn) (h.not_effect hp)

/-! ### Progress -/

/-- When some step is possible, the scheduler allows one: that of an unblocked party of the highest
priority. -/
theorem exists_fixedPriority [Finite σ.Party] (h : CanStep code s) :
    ∃ ps s', FixedPriority code prio s ps ∧ Step code s ps s' := by
  let unblocked : Set σ.Party := {p | ¬Blocked code s p}
  have hne : unblocked.Nonempty := by
    obtain ⟨ps, s', hstep⟩ := h
    obtain ⟨p, hp⟩ := hstep.exists_mem
    exact ⟨p, fun hblocked => hblocked ps s' hp hstep⟩
  obtain ⟨p, hp, hmax⟩ :=
    Set.exists_max_image unblocked (prio s.kernel) (Set.toFinite unblocked) hne
  obtain ⟨ps, s', hmem, hstep⟩ : ∃ ps s', p ∈ ps ∧ Step code s ps s' := by
    by_contra hnot
    exact hp fun ps s' hmem hstep => hnot ⟨ps, s', hmem, hstep⟩
  refine ⟨ps, s', fun q hq => ?_, hstep⟩
  by_contra hblocked
  exact absurd (hq p hmem) (hmax q hblocked).not_gt

end Machine
