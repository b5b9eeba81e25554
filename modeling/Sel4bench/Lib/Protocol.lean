import Sel4bench.Lib.Machine

/-!
# Protocols of communicating threads

A protocol assigns to every party a *view* that is computed from the party's own history
(`Machine.Spec`), and relates the views of all parties to the kernel state. The code of a party is
*safe* from a view when every request that it makes is allowed there, for all answers that the
protocol admits (`Machine.Spec.Safe`). Safety of code is proved with the rules of a Hoare logic
(`Machine.Spec.Triple`), one piece of code at a time and without looking at the other parties.
That the relation is kept is proved once for the protocol, for all codes that follow it. Both
together give an invariant of every interleaving (`Machine.Protocol.inv_of_run`).

## Main definitions

* `Machine.Spec`, `Machine.Spec.Safe`, `Machine.Spec.Triple`.
* `Machine.Protocol`, `Machine.Protocol.view`, `Machine.Protocol.Inv`, `Machine.Protocol.Sound`.

## Main results

* `Machine.Spec.Triple.bind`, `Machine.Spec.Triple.loop` — the rules for sequences and loops.
* `Machine.Protocol.inv_of_run` — a protocol that is followed holds along every run.
-/

namespace Machine

variable {σ : Sig} {G : Type}

/-- What a party may do, in terms of a view of its own history. -/
structure Spec (σ : Sig) (G : Type) where
  init : G
  step : G → Event σ → G
  /-- The requests that the party may make. -/
  guar : G → Req σ → Prop
  /-- The answers that it may count on. -/
  rely : G → (r : Req σ) → r.Resp → Prop
  /-- The views in which it may be at rest. -/
  rest : G → Prop
  /-- The views at an entry point or a loop head. -/
  atLabel : σ.Label → G → Prop

namespace Spec

variable (S : Spec σ G)

/-- The thread follows the specification from the view `g`. -/
def Safe : Prog σ → G → Prop
  | .halt, g => S.rest g
  | .op r k, g => S.guar g r ∧ ∀ a, S.rely g r a → Safe (k a) (S.step g (.did r a))
  | .jump ℓ, g => S.atLabel ℓ g

@[simp] theorem safe_halt {g : G} : S.Safe .halt g ↔ S.rest g := Iff.rfl

@[simp] theorem safe_op {r : Req σ} {k : r.Resp → Prog σ} {g : G} : S.Safe (.op r k) g ↔
    S.guar g r ∧ ∀ a, S.rely g r a → S.Safe (k a) (S.step g (.did r a)) := Iff.rfl

@[simp] theorem safe_jump {ℓ : σ.Label} {g : G} : S.Safe (.jump ℓ) g ↔ S.atLabel ℓ g := Iff.rfl

/-! ### Rules for code -/

/-- From a view in `P` the code follows the specification, and it ends in a view in `Q`. -/
def Triple {α : Type} (P : G → Prop) (c : Code σ α) (Q : α → G → Prop) : Prop :=
  ∀ k g, P g → (∀ a g', Q a g' → S.Safe (k a) g') → S.Safe (c k) g

namespace Triple

variable {S} {α β : Type} {P P' : G → Prop} {Q Q' : α → G → Prop} {U : β → G → Prop}

theorem pure {a : α} (h : ∀ g, P g → Q a g) : S.Triple P (pure a) Q :=
  fun _ g hg hk => hk a g (h g hg)

theorem op {r : Req σ} {Q : r.Resp → G → Prop}
    (h : ∀ g, P g → S.guar g r ∧ ∀ a, S.rely g r a → Q a (S.step g (.did r a))) :
    S.Triple P (Code.op r) Q :=
  fun _ g hg hk => ⟨(h g hg).1, fun a ha => hk a _ ((h g hg).2 a ha)⟩

theorem bind {c : Code σ α} {f : α → Code σ β} (hc : S.Triple P c Q)
    (hf : ∀ a, S.Triple (Q a) (f a) U) : S.Triple P (c >>= f) U :=
  fun k g hg hk => hc _ g hg fun a g' ha => hf a k g' ha hk

theorem conseq {c : Code σ α} (hc : S.Triple P c Q) (hP : ∀ g, P' g → P g)
    (hQ : ∀ a g, Q a g → Q' a g) : S.Triple P' c Q' :=
  fun k g hg hk => hc k g (hP g hg) fun a g' ha => hk a g' (hQ a g' ha)

/-- A fact that does not depend on the view. -/
theorem of_and {φ : Prop} {c : Code σ α} (h : φ → S.Triple P c Q) :
    S.Triple (fun g => P g ∧ φ) c Q :=
  fun k g hg => h hg.2 k g hg.1

theorem of_exists {γ : Type} {P : γ → G → Prop} {c : Code σ α} (h : ∀ x, S.Triple (P x) c Q) :
    S.Triple (fun g => ∃ x, P x g) c Q :=
  fun k g ⟨x, hg⟩ => h x k g hg

theorem ite {φ : Prop} [Decidable φ] {c c' : Code σ α} (h : φ → S.Triple P c Q)
    (h' : ¬φ → S.Triple P c' Q) : S.Triple P (if φ then c else c') Q := by
  split
  · exact h ‹_›
  · exact h' ‹_›

theorem goto {ℓ : σ.Label} (h : ∀ g, P g → S.atLabel ℓ g) : S.Triple P (Code.goto ℓ) Q :=
  fun _ g hg _ => h g hg

/-- A counting loop with an invariant that depends on the round. -/
theorem loop {n : ℕ} {b : β} {body : ℕ → β → Code σ β} (I : ℕ → β → G → Prop)
    (h : ∀ i < n, ∀ b, S.Triple (I i b) (body i b) (I (i + 1))) :
    S.Triple (I 0 b) (Code.loop n b body) (I n) := by
  have hfrom : ∀ m i b, i + m = n → S.Triple (I i b) (Code.loopFrom body i m b) (I n) := by
    intro m
    induction m with
    | zero =>
      rintro i b rfl
      exact pure fun _ hg => hg
    | succ m ih => exact fun i b hi => (h i (by omega) b).bind fun b => ih (i + 1) b (by omega)
  exact hfrom n 0 b (Nat.zero_add n)

/-- A thread that comes to rest after its code. -/
theorem safe_run {c : Code σ Unit} (hc : S.Triple P c fun _ g => S.rest g) {g : G} (hg : P g) :
    S.Safe c.run g :=
  hc _ g hg fun _ _ h => h

end Triple

end Spec

/-! ### Protocols -/

/-- A protocol: what every party may do, what holds of the view of every party by itself, and how
the views are related to each other and to the kernel state. -/
structure Protocol (σ : Sig) (G : Type) where
  spec : σ.Party → Spec σ G
  own : σ.Party → G → Prop
  rel : Kernel σ → (σ.Party → G) → Prop

namespace Protocol

variable (pr : Protocol σ G)

/-- The view of a party. -/
def view (log : Log σ) (p : σ.Party) : G := (log.hist p).foldl (pr.spec p).step (pr.spec p).init

/-- All threads follow the protocol and the views are related. -/
structure Inv (s : State σ) : Prop where
  safe : ∀ p, (pr.spec p).Safe (s.thread p) (pr.view s.log p)
  own : ∀ p, pr.own p (pr.view s.log p)
  rel : pr.rel s.kernel (pr.view s.log)

/-- The view `g` of the parties after an event of `p`. -/
def next (g : σ.Party → G) (p : σ.Party) (ev : Event σ) : σ.Party → G :=
  Function.update g p ((pr.spec p).step (g p) ev)

@[simp] theorem next_self (g : σ.Party → G) (p : σ.Party) (ev : Event σ) :
    pr.next g p ev p = (pr.spec p).step (g p) ev :=
  Function.update_self ..

@[simp] theorem next_of_ne (g : σ.Party → G) {p q : σ.Party} (h : q ≠ p) (ev : Event σ) :
    pr.next g p ev q = g q :=
  Function.update_of_ne h ..

/-- A part of the views after an event of `p`. -/
theorem comp_next {H : Type} (f : G → H) (g : σ.Party → G) (p : σ.Party) (ev : Event σ) :
    (fun q => f (pr.next g p ev q)) =
      Function.update (fun q => f (g q)) p (f ((pr.spec p).step (g p) ev)) :=
  Function.comp_update f g p _

/-- The obligations of a protocol, for a code and a scheduler. -/
structure Sound (code : σ.Label → Prog σ) (ok : State σ → List σ.Party → Prop) : Prop where
  label : ∀ p ℓ g, (pr.spec p).atLabel ℓ g → (pr.spec p).Safe (code ℓ) g
  own : ∀ {p g r a}, pr.own p g → (pr.spec p).guar g r → (pr.spec p).rely g r a →
    pr.own p ((pr.spec p).step g (.did r a))
  own_started : ∀ {p g ℓ}, pr.own p g → pr.own p ((pr.spec p).step g (.started ℓ))
  own_stopped : ∀ {p g}, pr.own p g → pr.own p ((pr.spec p).step g .stopped)
  effect : ∀ {s p r a κ}, pr.Inv s → ok s [p] → (pr.spec p).guar (pr.view s.log p) r →
    Effect s p r a κ →
    (pr.spec p).rely (pr.view s.log p) r a ∧ pr.rel κ (pr.next (pr.view s.log) p (.did r a))
  exchange : ∀ {s p q r a r' a' κ}, pr.Inv s → ok s [p, q] → p ≠ q →
    (pr.spec p).guar (pr.view s.log p) r → (pr.spec q).guar (pr.view s.log q) r' →
    Exchange s.kernel p q r a r' a' κ →
    (pr.spec p).rely (pr.view s.log p) r a ∧ (pr.spec q).rely (pr.view s.log q) r' a' ∧
      pr.rel κ (pr.next (pr.next (pr.view s.log) p (.did r a)) q (.did r' a'))
  start : ∀ {s p q ℓ}, pr.Inv s → ok s [p] → p ≠ q →
    (pr.spec p).guar (pr.view s.log p) (.start q ℓ) →
    (pr.spec p).rely (pr.view s.log p) (.start q ℓ) () ∧
      (pr.spec q).atLabel ℓ ((pr.spec q).step (pr.view s.log q) (.started ℓ)) ∧
      pr.rel (s.kernel.cancel q)
        (pr.next (pr.next (pr.view s.log) p (.did (.start q ℓ) ())) q (.started ℓ))
  suspend : ∀ {s p q}, pr.Inv s → ok s [p] → p ≠ q →
    (pr.spec p).guar (pr.view s.log p) (.suspend q) →
    (pr.spec p).rely (pr.view s.log p) (.suspend q) () ∧
      (pr.spec q).rest ((pr.spec q).step (pr.view s.log q) .stopped) ∧
      pr.rel (s.kernel.cancel q)
        (pr.next (pr.next (pr.view s.log) p (.did (.suspend q) ())) q .stopped)

variable {pr}

/-- The views after an event that is appended to the log. -/
theorem view_append (log : Log σ) (p : σ.Party) (ev : Event σ) :
    pr.view (log ++ [(p, ev)]) = pr.next (pr.view log) p ev := by
  funext q
  by_cases h : q = p
  · subst h
    simp [view, Log.hist_append]
  · simp [view, Log.hist_append, h, Ne.symm h]

/-! ### Parts of a view -/

/-- A part of the views that every event changes by itself. -/
def Tracks {H : Type} (pr : Protocol σ G) (f : G → H) (advance : σ.Party → H → Event σ → H) :
    Prop :=
  ∀ p g ev, f ((pr.spec p).step g ev) = advance p (f g) ev

namespace Tracks

variable {H : Type} {f : G → H} {advance : σ.Party → H → Event σ → H} {g : σ.Party → G}
  {p q : σ.Party} {ev ev' : Event σ}

theorem next (hf : pr.Tracks f advance) : (fun q => f (pr.next g p ev q)) =
    Function.update (fun q => f (g q)) p (advance p (f (g p)) ev) := by
  rw [comp_next, hf]

theorem next_two (hf : pr.Tracks f advance) (hqp : q ≠ p) :
    (fun u => f (pr.next (pr.next g p ev) q ev' u)) =
      Function.update (Function.update (fun u => f (g u)) p (advance p (f (g p)) ev)) q
        (advance q (f (g q)) ev') := by
  rw [hf.next, hf.next, next_of_ne _ _ hqp]

end Tracks

/-- A part of the views that records every event. -/
structure Records (pr : Protocol σ G) (f : G → List (Event σ)) : Prop where
  init : ∀ p, f (pr.spec p).init = []
  step : pr.Tracks f fun _ h ev => h ++ [ev]

namespace Records

variable {f : G → List (Event σ)} (hf : pr.Records f)

include hf

/-- It is the history of the party. -/
theorem view (log : Log σ) (p : σ.Party) : f (pr.view log p) = log.hist p := by
  have hfold : (log.hist p).foldl (fun h ev => h ++ [ev]) (f (pr.spec p).init) =
      f (pr.view log p) :=
    List.foldl_hom f fun g ev => (hf.step p g ev).symm
  rw [← hfold, hf.init, List.foldl_append_eq_append, ← List.flatMap_def, List.flatMap_singleton',
    List.nil_append]

theorem view_state (s : State σ) (p : σ.Party) : f (pr.view s.log p) = s.hist p := hf.view s.log p

theorem next {g : σ.Party → G} {p : σ.Party} {ev : Event σ} :
    (fun q => f (pr.next g p ev q)) = Function.update (fun q => f (g q)) p (f (g p) ++ [ev]) :=
  hf.step.next

theorem next_self {g : σ.Party → G} {p : σ.Party} {ev : Event σ} :
    f (pr.next g p ev p) = f (g p) ++ [ev] := by
  rw [Protocol.next_self, hf.step p]

end Records

section Step

variable {code : σ.Label → Prog σ} {ok : State σ → List σ.Party → Prop} {s s' : State σ}
  {ps : List σ.Party}

/-- What a party that takes a step is allowed to do. -/
theorem Inv.guar (h : pr.Inv s) {p : σ.Party} {r : Req σ} {k : r.Resp → Prog σ}
    (hp : s.thread p = .op r k) : (pr.spec p).guar (pr.view s.log p) r := by
  have hsafe := h.safe p
  rw [hp] at hsafe
  exact hsafe.1

theorem Inv.safe_next (h : pr.Inv s) {p : σ.Party} {r : Req σ} {k : r.Resp → Prog σ}
    (hp : s.thread p = .op r k) {a : r.Resp} (ha : (pr.spec p).rely (pr.view s.log p) r a) :
    (pr.spec p).Safe (k a) ((pr.spec p).step (pr.view s.log p) (.did r a)) := by
  have hsafe := h.safe p
  rw [hp] at hsafe
  exact hsafe.2 a ha

/-- What holds of every view is kept when one view changes. -/
theorem own_next {g : σ.Party → G} (h : ∀ q, pr.own q (g q)) {p : σ.Party} {ev : Event σ}
    (hp : pr.own p ((pr.spec p).step (g p) ev)) (q : σ.Party) : pr.own q (pr.next g p ev q) := by
  by_cases hq : q = p
  · subst hq
    simpa using hp
  · simpa [hq] using h q

/-- An event of one party, after which it continues as the thread `c`. -/
theorem Inv.update (h : pr.Inv s) {p : σ.Party} {ev : Event σ} {c : Prog σ} {κ : Kernel σ}
    (hsafe : (pr.spec p).Safe c ((pr.spec p).step (pr.view s.log p) ev))
    (hown : pr.own p ((pr.spec p).step (pr.view s.log p) ev))
    (hrel : pr.rel κ (pr.next (pr.view s.log) p ev)) :
    pr.Inv ⟨Function.update s.thread p c, κ, s.log ++ [(p, ev)]⟩ := by
  refine ⟨fun q => ?_, ?_, ?_⟩
  · rw [view_append]
    by_cases hq : q = p
    · subst hq
      simpa using hsafe
    · simpa [hq] using h.safe q
  · rw [view_append]
    exact own_next h.own hown
  · rwa [view_append]

theorem Inv.update_two (h : pr.Inv s) {p q : σ.Party} (hpq : p ≠ q) {ev ev' : Event σ}
    {c c' : Prog σ} {κ : Kernel σ}
    (hsafe : (pr.spec p).Safe c ((pr.spec p).step (pr.view s.log p) ev))
    (hown : pr.own p ((pr.spec p).step (pr.view s.log p) ev))
    (hsafe' : (pr.spec q).Safe c' ((pr.spec q).step (pr.view s.log q) ev'))
    (hown' : pr.own q ((pr.spec q).step (pr.view s.log q) ev'))
    (hrel : pr.rel κ (pr.next (pr.next (pr.view s.log) p ev) q ev')) :
    pr.Inv ⟨Function.update (Function.update s.thread p c) q c', κ,
      s.log ++ [(p, ev)] ++ [(q, ev')]⟩ := by
  refine ⟨fun u => ?_, ?_, ?_⟩
  · rw [view_append, view_append]
    by_cases huq : u = q
    · subst huq
      simpa [hpq.symm] using hsafe'
    · by_cases hup : u = p
      · subst hup
        simpa [huq] using hsafe
      · simpa [huq, hup] using h.safe u
  · rw [view_append, view_append]
    exact own_next (own_next h.own hown) (by simpa [hpq.symm] using hown')
  · rwa [view_append, view_append]

/-- A step that the scheduler allows keeps the invariant. -/
theorem Sound.inv_step (hsound : pr.Sound code ok) (h : pr.Inv s) (hok : ok s ps)
    (hstep : Step code s ps s') : pr.Inv s' := by
  cases hstep with
  | act hp heff =>
    obtain ⟨hrely, hrel⟩ := hsound.effect h hok (h.guar hp) heff
    exact h.update (h.safe_next hp hrely) (hsound.own (h.own _) (h.guar hp) hrely) hrel
  | exchange hpq hp hq hex =>
    obtain ⟨hrely, hrely', hrel⟩ := hsound.exchange h hok hpq (h.guar hp) (h.guar hq) hex
    exact h.update_two hpq (h.safe_next hp hrely) (hsound.own (h.own _) (h.guar hp) hrely)
      (h.safe_next hq hrely') (hsound.own (h.own _) (h.guar hq) hrely') hrel
  | @jump p ℓ hp =>
    refine ⟨fun q => ?_, h.own, h.rel⟩
    have hsafe := h.safe q
    by_cases hq : q = p
    · subst hq
      rw [hp] at hsafe
      simpa using hsound.label q ℓ _ hsafe
    · simpa [hq] using hsafe
  | start hpq hp =>
    obtain ⟨hrely, hlabel, hrel⟩ := hsound.start h hok hpq (h.guar hp)
    exact h.update_two hpq (h.safe_next hp hrely) (hsound.own (h.own _) (h.guar hp) hrely)
      hlabel (hsound.own_started (h.own _)) hrel
  | suspend hpq hp =>
    obtain ⟨hrely, hrest, hrel⟩ := hsound.suspend h hok hpq (h.guar hp)
    exact h.update_two hpq (h.safe_next hp hrely) (hsound.own (h.own _) (h.guar hp) hrely)
      hrest (hsound.own_stopped (h.own _)) hrel

/-- **Soundness of protocols.** The invariant of a protocol holds along every run that the
scheduler allows. -/
theorem inv_of_run (hsound : pr.Sound code ok) {s₀ : State σ} (h₀ : pr.Inv s₀)
    (hrun : Run code ok s₀ s) : pr.Inv s := by
  induction hrun with
  | refl => exact h₀
  | tail _ hstep ih =>
    obtain ⟨ps, hok, hstep⟩ := hstep
    exact hsound.inv_step ih hok hstep

end Step

end Protocol

end Machine
