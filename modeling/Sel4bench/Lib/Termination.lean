import Sel4bench.Lib.Machine
import Mathlib.Algebra.BigOperators.Fin
import Mathlib.Algebra.Order.BigOperators.Group.Finset
import Mathlib.Data.Fintype.Basic

/-!
# Runs of bounded code

Code makes a bounded number of steps, whatever the answers are (`Machine.Within`,
`Machine.Bounded`), when it has no loops but counting loops and loops around waiting on a condition
variable. A thread that another one starts is paid for by the request to start it, and a round of a
waiting loop by the request that has woken the thread. So all runs of such threads are finite, and
where no run gets stuck before a goal is reached, every run can be continued to the goal
(`Machine.exists_run_of_within`).

## Main definitions

* `Machine.Budget`, `Machine.Within`, `Machine.Bounded`.

## Main results

* `Machine.Bounded.bind`, `Machine.Bounded.loop` — the bounds of sequences and loops.
* `Machine.exists_run_of_within`, `Machine.exists_reach_of_within` — threads that do not get stuck
  reach the goal.
-/

namespace Machine

variable {σ : Sig}

/-- The steps that are paid for the code at a label and for a thread that is woken. -/
structure Budget (σ : Sig) where
  label : σ.Label → ℕ
  wake : ℕ := 0

/-- A request that pays for nobody else and is not paid for. -/
def Req.Plain : Req σ → Prop
  | .start _ _ | .wake _ | .asleep _ => False
  | _ => True

/-- The thread takes at most `n` steps, those that are paid for it not counted. -/
inductive Within (B : Budget σ) : ℕ → Prog σ → Prop
  | halt (n : ℕ) : Within B n .halt
  | op {n : ℕ} {r : Req σ} {k : r.Resp → Prog σ} (hr : r.Plain) (h : ∀ a, Within B n (k a)) :
    Within B (n + 1) (.op r k)
  | start {n : ℕ} {q : σ.Party} {ℓ : σ.Label} {k : Unit → Prog σ} (h : Within B n (k ())) :
    Within B (n + B.label ℓ + 1) (.op (.start q ℓ) k)
  | wake {n : ℕ} {c : σ.Cond} {k : Option σ.Party → Prog σ} (h : ∀ a, Within B n (k a)) :
    Within B (n + B.wake + 1) (.op (.wake c) k)
  | asleep {n : ℕ} {c : σ.Cond} {k : Unit → Prog σ} (h : Within B (n + B.wake) (k ())) :
    Within B n (.op (.asleep c) k)
  | jump {n : ℕ} {ℓ : σ.Label} (h : B.label ℓ ≤ n) : Within B n (.jump ℓ)

variable {B : Budget σ}

theorem Within.mono {m n : ℕ} {c : Prog σ} (h : Within B m c) (hmn : m ≤ n) : Within B n c := by
  induction h generalizing n with
  | halt => exact .halt n
  | op hr _ ih =>
    obtain ⟨n, rfl⟩ : ∃ n', n = n' + 1 := ⟨n - 1, by omega⟩
    exact .op hr fun a => ih a (by omega)
  | @start m q ℓ k _ ih =>
    obtain ⟨n, rfl⟩ : ∃ n', n = n' + B.label ℓ + 1 := ⟨n - B.label ℓ - 1, by omega⟩
    exact .start (ih (by omega))
  | wake _ ih =>
    obtain ⟨n, rfl⟩ : ∃ n', n = n' + B.wake + 1 := ⟨n - B.wake - 1, by omega⟩
    exact .wake fun a => ih a (by omega)
  | asleep _ ih => exact .asleep (ih (Nat.add_le_add_right hmn _))
  | jump h => exact .jump (h.trans hmn)

/-- A request leaves fewer steps. -/
theorem Within.of_op {n : ℕ} {r : Req σ} {k : r.Resp → Prog σ} (h : Within B n (.op r k))
    (hr : ∀ c, r ≠ .asleep c) (a : r.Resp) : ∃ m < n, Within B m (k a) := by
  cases h with
  | op _ h => exact ⟨_, Nat.lt_succ_self _, h a⟩
  | start h => exact ⟨_, by omega, h⟩
  | wake h => exact ⟨_, by omega, h a⟩
  | asleep => exact absurd rfl (hr _)

/-- Waking a thread leaves enough for it. -/
theorem Within.of_wake {n : ℕ} {c : σ.Cond} {k : Option σ.Party → Prog σ}
    (h : Within B n (.op (.wake c) k)) (a : Option σ.Party) :
    ∃ m, m + B.wake < n ∧ Within B m (k a) := by
  cases h with
  | op hr => exact hr.elim
  | wake h => exact ⟨_, Nat.lt_succ_self _, h a⟩

theorem Within.of_asleep {n : ℕ} {c : σ.Cond} {k : Unit → Prog σ}
    (h : Within B n (.op (.asleep c) k)) : Within B (n + B.wake) (k ()) := by
  cases h with
  | op hr => exact hr.elim
  | asleep h => exact h

/-! ### Bounds of code -/

/-- The code takes at most `n` steps. -/
def Bounded (B : Budget σ) {α : Type} (n : ℕ) (c : Code σ α) : Prop :=
  ∀ m k, (∀ a, Within B m (k a)) → Within B (n + m) (c k)

namespace Bounded

variable {α β : Type} {m n : ℕ}

theorem pure (a : α) : Bounded B 0 (pure a : Code σ α) := fun m _ h =>
  (h a).mono (Nat.zero_add m).ge

theorem bind {c : Code σ α} {f : α → Code σ β} (hc : Bounded B m c) (hf : ∀ a, Bounded B n (f a)) :
    Bounded B (m + n) (c >>= f) := fun i k h =>
  (hc (n + i) _ fun a => hf a i k h).mono (Nat.add_assoc m n i).ge

theorem op (r : Req σ) (hr : r.Plain) : Bounded B 1 (Code.op r) := fun m _ h =>
  (Within.op hr h).mono (Nat.add_comm m 1).le

theorem start (q : σ.Party) (ℓ : σ.Label) : Bounded B (B.label ℓ + 1) (Code.start q ℓ) :=
  fun m _ h => (Within.start (h ())).mono (by omega)

theorem loop {b : β} {body : ℕ → β → Code σ β} (h : ∀ i b, Bounded B n (body i b)) :
    Bounded B (m * n) (Code.loop m b body) := by
  have hfrom : ∀ j i b, Bounded B (j * n) (Code.loopFrom body i j b) := by
    intro j
    induction j with
    | zero => exact fun i b k g hg => (pure b k g hg).mono (by simp)
    | succ j ih =>
      intro i b
      have hbind := (h i b).bind fun b => ih (i + 1) b
      rwa [Nat.add_comm, ← Nat.succ_mul] at hbind
  exact hfrom m 0 b

theorem clock : Bounded B 1 (Code.clock : Code σ σ.Time) := op .clock trivial

theorem load (x : σ.Var) : Bounded B 1 (Code.load x : Code σ (σ.Val x)) := op (.load x) trivial

theorem store (x : σ.Var) (v : σ.Val x) : Bounded B 1 (Code.store x v : Code σ Unit) :=
  op (.store x v) trivial

theorem signal (n : σ.Ntfn) : Bounded B 1 (Code.signal n : Code σ Unit) :=
  (op (.signal n) trivial).bind fun _ => pure _

theorem wait (n : σ.Ntfn) : Bounded B 1 (Code.wait n : Code σ Unit) := op (.wait n) trivial

theorem suspend (q : σ.Party) : Bounded B 1 (Code.suspend q : Code σ Unit) :=
  op (.suspend q) trivial

theorem goto {ℓ : σ.Label} (h : B.label ℓ ≤ n) : Bounded B n (Code.goto ℓ : Code σ α) :=
  fun m _ _ => .jump (h.trans (Nat.le_add_right n m))

/-- A round of a loop around waiting is paid for by the one that ends the waiting. -/
theorem waitCond_goto {l : σ.Lock} {c : σ.Cond} {ℓ : σ.Label} (hn : 0 < n) (hwake : 0 < B.wake)
    (h : B.label ℓ + 2 ≤ n + B.wake) :
    Bounded B n (Code.waitCond l c >>= fun _ => (Code.goto ℓ : Code σ α)) := by
  intro m k _
  obtain ⟨n, rfl⟩ : ∃ n', n = n' + 1 := ⟨n - 1, by omega⟩
  obtain ⟨u, hu⟩ : ∃ u, B.wake = u + 1 := ⟨B.wake - 1, by omega⟩
  have hjump : Within B (n + m + u) (.jump ℓ) := .jump (by omega)
  have hacquire : Within B (n + m + B.wake) (.op (.acquire l) fun _ => .jump ℓ) := by
    rw [hu]
    exact .op trivial fun _ => hjump
  have hsleep : Within B (n + m + 1) (.op (.sleep l c) fun _ => .op (.asleep c) fun _ =>
      .op (.acquire l) fun _ => .jump ℓ) := .op trivial fun _ => .asleep hacquire
  rwa [Nat.add_right_comm] at hsleep

theorem wake (c : σ.Cond) : Bounded B (B.wake + 1) (Code.wake c : Code σ Unit) := fun m _ h =>
  (Within.wake fun _ => h ()).mono (by omega)

theorem acquire (l : σ.Lock) : Bounded B 1 (Code.acquire l : Code σ Unit) := op (.acquire l) trivial

theorem release (l : σ.Lock) : Bounded B 1 (Code.release l : Code σ Unit) := op (.release l) trivial

theorem exit : Bounded B 0 (Code.exit : Code σ α) := fun _ _ _ => .halt _

theorem send (e : σ.Endpoint) (m : σ.Msg) : Bounded B 1 (Code.send e m : Code σ Unit) :=
  (op (.send e m) trivial).bind fun _ => pure _

theorem recv (e : σ.Endpoint) : Bounded B 1 (Code.recv e : Code σ σ.Msg) :=
  (op (.recv e) trivial).bind fun _ => pure _

theorem call (e : σ.Endpoint) (m : σ.Msg) : Bounded B 2 (Code.call e m : Code σ σ.Msg) :=
  (op (.sendCall e m) trivial).bind fun _ => op .awaitReply trivial

theorem reply (m : σ.Msg) : Bounded B 1 (Code.reply m : Code σ Unit) :=
  (op (.reply m) trivial).bind fun _ => pure _

theorem replyRecv (e : σ.Endpoint) (m : σ.Msg) :
    Bounded B 2 (Code.replyRecv e m : Code σ σ.Msg) :=
  (reply m).bind fun _ => recv e

theorem sendWait (e : σ.Endpoint) (m : σ.Msg) (n : σ.Ntfn) :
    Bounded B 2 (do
      Code.send e m
      Code.wait n : Code σ Unit) :=
  (send e m).bind fun _ => wait n

theorem sendRecv (e e' : σ.Endpoint) (m : σ.Msg) :
    Bounded B 2 (do
      Code.send e m
      let _ ← Code.recv e' : Code σ Unit) :=
  (send e m).bind fun _ => (recv e').bind fun _ => pure ()

theorem within_run {c : Code σ Unit} (h : Bounded B n c) : Within B n c.run :=
  h 0 _ fun _ => .halt 0

end Bounded

/-! ### One thread -/

section Thread

variable {code : σ.Label → Prog σ} {s s' : State σ} {ps : List σ.Party} {p : σ.Party}

/-- What another thread does leaves a thread its bound. -/
theorem Exchange.exists_within_right {κ κ' : Kernel σ} {q : σ.Party} {r r' : Req σ} {a : r.Resp}
    {a' : r'.Resp} (hex : Exchange κ q p r a r' a' κ') {k : r'.Resp → Prog σ} {n : ℕ}
    (h : Within B n (.op r' k)) : ∃ m, Within B m (k a') := by
  cases hex with
  | send | call | reply =>
    obtain ⟨m, -, hk⟩ := h.of_op nofun _
    exact ⟨m, hk⟩
  | wake c => exact ⟨_, h.of_asleep⟩

/-- A bounded thread stays bounded, when the code that it continues with is. -/
theorem Step.exists_within_thread (hstep : Step code s ps s') {n : ℕ}
    (hp : Within B n (s.thread p)) (hcode : ∀ ℓ, s.thread p = .jump ℓ → ∃ m, Within B m (code ℓ)) :
    ∃ m, Within B m (s'.thread p) := by
  have hkeep : ∀ {q : σ.Party} {c : Prog σ} {thread : σ.Party → Prog σ},
      (q = p → ∃ m, Within B m c) → (∃ m, Within B m (thread p)) →
      ∃ m, Within B m (Function.update thread q c p) := by
    intro q c thread hc hthread
    by_cases hpq : p = q
    · subst hpq
      simpa using hc rfl
    · simpa [hpq] using hthread
  cases hstep with
  | @act q r k a κ hq heff =>
    refine hkeep (fun hqp => ?_) ⟨n, hp⟩
    subst hqp
    have hr : ∀ c, r ≠ .asleep c := by
      rintro c rfl
      cases heff
    obtain ⟨m, -, hk⟩ := (hq ▸ hp).of_op hr a
    exact ⟨m, hk⟩
  | @exchange q q' r r' k k' a a' κ hne hq hq' hex =>
    refine hkeep (fun hqp => ?_) (hkeep (fun hqp => ?_) ⟨n, hp⟩)
    · subst hqp
      exact hex.exists_within_right (hq' ▸ hp)
    · subst hqp
      have hr : ∀ c, r ≠ .asleep c := by
        rintro c rfl
        cases hex
      obtain ⟨m, -, hk⟩ := (hq ▸ hp).of_op hr a
      exact ⟨m, hk⟩
  | @jump q ℓ hq =>
    refine hkeep (fun hqp => ?_) ⟨n, hp⟩
    subst hqp
    exact hcode ℓ hq
  | @start q q' ℓ k hne hq =>
    refine hkeep (fun _ => ⟨B.label ℓ, .jump le_rfl⟩) (hkeep (fun hqp => ?_) ⟨n, hp⟩)
    subst hqp
    obtain ⟨m, -, hk⟩ := (hq ▸ hp).of_op nofun ()
    exact ⟨m, hk⟩
  | @suspend q q' k hne hq =>
    refine hkeep (fun _ => ⟨0, .halt 0⟩) (hkeep (fun hqp => ?_) ⟨n, hp⟩)
    subst hqp
    obtain ⟨m, -, hk⟩ := (hq ▸ hp).of_op nofun ()
    exact ⟨m, hk⟩

end Thread

/-! ### Finite runs -/

section Reach

variable [Fintype σ.Party] {code : σ.Label → Prog σ}

theorem sum_update_add (b : σ.Party → ℕ) (p : σ.Party) (m : ℕ) :
    (∑ q, Function.update b p m q) + b p = (∑ q, b q) + m := by
  rw [Finset.sum_update_of_mem (Finset.mem_univ p),
    ← Finset.add_sum_erase Finset.univ b (Finset.mem_univ p), Finset.sdiff_singleton_eq_erase]
  omega

omit [Fintype σ.Party] in
theorem forall_within_update {b : σ.Party → ℕ} {thread : σ.Party → Prog σ}
    (h : ∀ p, Within B (b p) (thread p)) {p : σ.Party} {m : ℕ} {c : Prog σ} (hc : Within B m c)
    (q : σ.Party) : Within B (Function.update b p m q) (Function.update thread p c q) := by
  by_cases hq : q = p
  · subst hq
    simpa using hc
  · simpa [hq] using h q

variable (hcode : ∀ ℓ, ∃ m < B.label ℓ, Within B m (code ℓ))

include hcode

omit [Fintype σ.Party] hcode in
/-- What two parties do together leaves fewer steps to both. -/
theorem Exchange.exists_within {κ κ' : Kernel σ} {p q : σ.Party} {r r' : Req σ} {a : r.Resp}
    {a' : r'.Resp} (hex : Exchange κ p q r a r' a' κ') {k : r.Resp → Prog σ}
    {k' : r'.Resp → Prog σ} {n n' : ℕ} (h : Within B n (.op r k)) (h' : Within B n' (.op r' k')) :
    ∃ m m', m + m' < n + n' ∧ Within B m (k a) ∧ Within B m' (k' a') := by
  cases hex with
  | send | call | reply =>
    obtain ⟨m, hm, hk⟩ := h.of_op nofun _
    obtain ⟨m', hm', hk'⟩ := h'.of_op nofun _
    exact ⟨m, m', by omega, hk, hk'⟩
  | wake c =>
    obtain ⟨m, hm, hk⟩ := h.of_wake (some q)
    exact ⟨m, n' + B.wake, by omega, hk, h'.of_asleep⟩

/-- Every step leaves fewer steps to all threads together. -/
theorem Step.exists_within {s s' : State σ} {ps : List σ.Party} (hstep : Step code s ps s')
    {b : σ.Party → ℕ} (hb : ∀ p, Within B (b p) (s.thread p)) :
    ∃ b' : σ.Party → ℕ, (∀ p, Within B (b' p) (s'.thread p)) ∧ ∑ p, b' p < ∑ p, b p := by
  cases hstep with
  | @act p r k a κ hp heff =>
    have hr : ∀ c, r ≠ .asleep c := by
      rintro c rfl
      cases heff
    obtain ⟨m, hm, hk⟩ := (hp ▸ hb p).of_op hr a
    have hsum := sum_update_add b p m
    exact ⟨_, forall_within_update hb hk, by omega⟩
  | @exchange p q r r' k k' a a' κ hpq hp hq hex =>
    obtain ⟨m, m', hm, hk, hk'⟩ := hex.exists_within (hp ▸ hb p) (hq ▸ hb q)
    have hsum := sum_update_add b p m
    have hsum' := sum_update_add (Function.update b p m) q m'
    rw [Function.update_of_ne hpq.symm] at hsum'
    exact ⟨_, forall_within_update (forall_within_update hb hk) hk', by omega⟩
  | @jump p ℓ hp =>
    obtain ⟨m, hm, hk⟩ := hcode ℓ
    have hle : B.label ℓ ≤ b p := by
      have hwithin := hb p
      generalize b p = n at hwithin
      rw [hp] at hwithin
      cases hwithin with
      | jump h => exact h
    have hsum := sum_update_add b p m
    exact ⟨_, forall_within_update hb hk, by omega⟩
  | @start p q ℓ k hpq hp =>
    obtain ⟨m, hm, hk⟩ : ∃ m, b p = m + B.label ℓ + 1 ∧ Within B m (k ()) := by
      have hwithin := hb p
      generalize b p = n at hwithin
      rw [hp] at hwithin
      cases hwithin with
      | op hr => exact hr.elim
      | start h => exact ⟨_, rfl, h⟩
    have hsum := sum_update_add b p m
    have hsum' := sum_update_add (Function.update b p m) q (B.label ℓ)
    rw [Function.update_of_ne hpq.symm] at hsum'
    exact ⟨_, forall_within_update (forall_within_update hb hk) (.jump le_rfl), by omega⟩
  | @suspend p q k hpq hp =>
    obtain ⟨m, hm, hk⟩ := (hp ▸ hb p).of_op nofun ()
    have hsum := sum_update_add b p m
    have hsum' := sum_update_add (Function.update b p m) q 0
    rw [Function.update_of_ne hpq.symm] at hsum'
    exact ⟨_, forall_within_update (forall_within_update hb hk) (.halt 0), by omega⟩

/-- Where no run that the scheduler allows gets stuck before the goal, every such run can be
continued to it. -/
theorem exists_run_of_within {ok : State σ → List σ.Party → Prop} {s₀ : State σ} {b : σ.Party → ℕ}
    (hb : ∀ p, Within B (b p) (s₀.thread p)) {goal : State σ → Prop}
    (hprogress : ∀ s, Run code ok s₀ s → ¬goal s → ∃ ps s', ok s ps ∧ Step code s ps s')
    {s : State σ} (hs : Run code ok s₀ s) : ∃ s', Run code ok s s' ∧ goal s' := by
  obtain ⟨b', hb'⟩ : ∃ b' : σ.Party → ℕ, ∀ p, Within B (b' p) (s.thread p) := by
    induction hs with
    | refl => exact ⟨b, hb⟩
    | tail _ hstep ih =>
      obtain ⟨b', hb'⟩ := ih
      obtain ⟨ps, -, hstep⟩ := hstep
      obtain ⟨b'', hb'', -⟩ := hstep.exists_within hcode hb'
      exact ⟨b'', hb''⟩
  -- Induction on the number of steps that are left.
  generalize hn : ∑ p, b' p = n
  induction n using Nat.strong_induction_on generalizing s b' with
  | _ n ih =>
    by_cases hgoal : goal s
    · exact ⟨s, .refl, hgoal⟩
    · obtain ⟨ps, t, hok, hstep⟩ := hprogress s hs hgoal
      obtain ⟨b'', hb'', hlt⟩ := hstep.exists_within hcode hb'
      obtain ⟨u, hu, hgoal'⟩ := ih _ (hn ▸ hlt) (hs.tail ⟨ps, hok, hstep⟩) b'' hb'' rfl
      exact ⟨u, .head ⟨ps, hok, hstep⟩ hu, hgoal'⟩

/-- Where no run gets stuck before the goal, every run can be continued to it. -/
theorem exists_reach_of_within {s₀ : State σ} {b : σ.Party → ℕ}
    (hb : ∀ p, Within B (b p) (s₀.thread p)) {goal : State σ → Prop}
    (hprogress : ∀ s, Reach code s₀ s → ¬goal s → CanStep code s) {s : State σ}
    (hs : Reach code s₀ s) : ∃ s', Reach code s s' ∧ goal s' := by
  refine exists_run_of_within hcode hb (fun s hs hgoal => ?_) hs
  obtain ⟨ps, t, hstep⟩ := hprogress s hs hgoal
  exact ⟨ps, t, trivial, hstep⟩

end Reach

end Machine
