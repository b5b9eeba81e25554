import Sel4bench.Lib.Machine

/-!
# Executing threads

What the semantics leaves open in a step is which parties take part in it and which time the clock
shows. With these choices given, steps are computed, and a list of choices that can be executed is
a run. So a particular run is found by evaluation.

## Main definitions

* `Machine.Choice`, `Machine.exec`, `Machine.execAll`.

## Main results

* `Machine.reach_of_execAll`, `Machine.exists_reach_of_any` — an execution is a run.
-/

namespace Machine

variable {σ : Sig}

/-- What is left open in a step: the party that takes it and the time that it may read, or the two
parties of an exchange. -/
inductive Choice (σ : Sig)
  | act (p : σ.Party) (t : σ.Time)
  | exchange (p q : σ.Party)

section Exec

variable [DecidableEq σ.Cond]

/-- The thread sleeps on the condition variable. -/
def Prog.sleepsOn (c : σ.Cond) : Prog σ → Bool
  | .op (.asleep c') _ => c' = c
  | _ => false

/-- The answer to a request of one party, and the kernel after it. -/
def execEffect (parties : List σ.Party) (s : State σ) (p : σ.Party) (t : σ.Time) :
    (r : Req σ) → Option (r.Resp × Kernel σ)
  | .clock => some (t, s.kernel)
  | .load x => some (s.kernel.mem x, s.kernel)
  | .store x v => some ((), { s.kernel with mem := Function.update s.kernel.mem x v })
  | .reply _ => if (s.kernel.caller p).isNone then some (none, s.kernel) else none
  | .signal n => some (s.kernel.pending n,
      { s.kernel with pending := Function.update s.kernel.pending n true })
  | .wait n =>
    if s.kernel.pending n then
      some ((), { s.kernel with pending := Function.update s.kernel.pending n false })
    else none
  | .acquire l =>
    if (s.kernel.owner l).isNone then
      some ((), { s.kernel with owner := Function.update s.kernel.owner l (some p) })
    else none
  | .release l | .sleep l _ =>
    some ((), { s.kernel with owner := Function.update s.kernel.owner l none })
  | .wake c =>
    if parties.all fun q => !(s.thread q).sleepsOn c then some (none, s.kernel) else none
  | .send _ _ | .sendCall _ _ | .awaitReply | .recv _ | .asleep _ | .start _ _ | .suspend _ => none

/-- The answers to requests that two parties complete together, and the kernel after them. -/
def execExchange (κ : Kernel σ) (p q : σ.Party) :
    (r r' : Req σ) → Option (r.Resp × r'.Resp × Kernel σ)
  | .send e m, .recv e' =>
    if e' = e then
      some (κ.msgs e, (κ.msgs e, m),
        { κ with
          msgs := Function.update κ.msgs e (κ.msgs e + 1)
          caller := Function.update κ.caller q none })
    else none
  | .sendCall e m, .recv e' =>
    if e' = e then
      some (κ.msgs e, (κ.msgs e, m),
        { κ with
          msgs := Function.update κ.msgs e (κ.msgs e + 1)
          caller := Function.update κ.caller q (some (p, e, κ.msgs e)) })
    else none
  | .reply m, .awaitReply =>
    (κ.caller p).bind fun c =>
      if c.1 = q then
        some (some c.2, m, { κ with caller := Function.update κ.caller p none })
      else none
  | .wake c, .asleep c' => if c' = c then some (some q, (), κ) else none
  | _, _ => none

/-- The state after a step. Here `parties` are all parties. -/
def exec (code : σ.Label → Prog σ) (parties : List σ.Party) (s : State σ) :
    Choice σ → Option (State σ)
  | .act p t =>
    match s.thread p with
    | .halt => none
    | .jump ℓ => some { s with thread := Function.update s.thread p (code ℓ) }
    | .op (.start q ℓ) k =>
      if p = q then none
      else some
        { thread := Function.update (Function.update s.thread p (k ())) q (.jump ℓ)
          kernel := s.kernel.cancel q
          log := s.log ++ [(p, .did (.start q ℓ) ())] ++ [(q, .started ℓ)] }
    | .op (.suspend q) k =>
      if p = q then none
      else some
        { thread := Function.update (Function.update s.thread p (k ())) q .halt
          kernel := s.kernel.cancel q
          log := s.log ++ [(p, .did (.suspend q) ())] ++ [(q, .stopped)] }
    | .op r k => (execEffect parties s p t r).map fun x =>
        { thread := Function.update s.thread p (k x.1)
          kernel := x.2
          log := s.log ++ [(p, .did r x.1)] }
  | .exchange p q =>
    match s.thread p, s.thread q with
    | .op r k, .op r' k' =>
      if p = q then none
      else (execExchange s.kernel p q r r').map fun x =>
        { thread := Function.update (Function.update s.thread p (k x.1)) q (k' x.2.1)
          kernel := x.2.2
          log := s.log ++ [(p, .did r x.1)] ++ [(q, .did r' x.2.1)] }
    | _, _ => none

/-- The state after a list of steps. -/
def execAll (code : σ.Label → Prog σ) (parties : List σ.Party) (s : State σ)
    (cs : List (Choice σ)) : Option (State σ) :=
  cs.foldlM (exec code parties) s

/-! ### Soundness -/

theorem Prog.exists_of_sleepsOn {c : σ.Cond} {thread : Prog σ} (h : thread.sleepsOn c = true) :
    ∃ k, thread = .op (.asleep c) k := by
  unfold sleepsOn at h
  split at h
  · obtain rfl := of_decide_eq_true h
    exact ⟨_, rfl⟩
  · cases h

theorem not_asleep_of_all {parties : List σ.Party} (hparties : ∀ p, p ∈ parties) {s : State σ}
    {c : σ.Cond} (h : (parties.all fun q => !(s.thread q).sleepsOn c) = true) (q : σ.Party)
    (k : Unit → Prog σ) : s.thread q ≠ .op (.asleep c) k := by
  intro hq
  have hnot := List.all_eq_true.mp h q (hparties q)
  simp [hq, Prog.sleepsOn] at hnot

theorem effect_of_execEffect {parties : List σ.Party} (hparties : ∀ p, p ∈ parties) {s : State σ}
    {p : σ.Party} {t : σ.Time} {r : Req σ} {x : r.Resp × Kernel σ}
    (h : execEffect parties s p t r = some x) : Effect s p r x.1 x.2 := by
  cases r with
  | clock => cases h; exact .clock t
  | load x => cases h; exact .load x
  | store x v => cases h; exact .store x v
  | signal n => cases h; exact .signal n
  | release l => cases h; exact .release l
  | sleep l c => cases h; exact .sleep l c
  | reply m =>
    obtain ⟨hcaller, heq⟩ := Option.ite_none_right_eq_some.mp h
    cases heq
    exact .replyNone m (Option.isNone_iff_eq_none.mp hcaller)
  | wait n =>
    obtain ⟨hset, heq⟩ := Option.ite_none_right_eq_some.mp h
    cases heq
    exact .wait n hset
  | acquire l =>
    obtain ⟨hfree, heq⟩ := Option.ite_none_right_eq_some.mp h
    cases heq
    exact .acquire l (Option.isNone_iff_eq_none.mp hfree)
  | wake c =>
    obtain ⟨hall, heq⟩ := Option.ite_none_right_eq_some.mp h
    cases heq
    exact .wakeNone c (not_asleep_of_all hparties hall)
  | send | sendCall | awaitReply | recv | asleep | start | suspend => cases h

theorem exchange_of_execExchange {κ : Kernel σ} {p q : σ.Party} {r r' : Req σ}
    {x : r.Resp × r'.Resp × Kernel σ} (h : execExchange κ p q r r' = some x) :
    Exchange κ p q r x.1 r' x.2.1 x.2.2 := by
  unfold execExchange at h
  split at h
  · obtain ⟨rfl, heq⟩ := Option.ite_none_right_eq_some.mp h
    cases heq
    exact .send _ _
  · obtain ⟨rfl, heq⟩ := Option.ite_none_right_eq_some.mp h
    cases heq
    exact .call _ _
  · obtain ⟨⟨q', e, n⟩, hcaller, hc⟩ := Option.bind_eq_some_iff.mp h
    obtain ⟨rfl, heq⟩ := Option.ite_none_right_eq_some.mp hc
    cases heq
    exact .reply _ hcaller
  · obtain ⟨rfl, heq⟩ := Option.ite_none_right_eq_some.mp h
    cases heq
    exact .wake _
  · cases h

variable {code : σ.Label → Prog σ} {parties : List σ.Party} (hparties : ∀ p, p ∈ parties)
  {s s' : State σ}

include hparties

/-- A step that is computed is a step of the semantics. -/
theorem step_of_exec {c : Choice σ} (h : exec code parties s c = some s') :
    ∃ ps, Step code s ps s' := by
  unfold exec at h
  split at h
  · split at h
    · cases h
    · cases h
      exact ⟨_, .jump ‹_›⟩
    · obtain ⟨hne, heq⟩ := Option.ite_none_left_eq_some.mp h
      cases heq
      exact ⟨_, .start hne ‹_›⟩
    · obtain ⟨hne, heq⟩ := Option.ite_none_left_eq_some.mp h
      cases heq
      exact ⟨_, .suspend hne ‹_›⟩
    · obtain ⟨x, hx, rfl⟩ := Option.map_eq_some_iff.mp h
      exact ⟨_, .act ‹_› (effect_of_execEffect hparties hx)⟩
  · split at h
    · obtain ⟨hne, hmap⟩ := Option.ite_none_left_eq_some.mp h
      obtain ⟨x, hx, rfl⟩ := Option.map_eq_some_iff.mp hmap
      exact ⟨_, .exchange hne ‹_› ‹_› (exchange_of_execExchange hx)⟩
    · cases h

/-- An execution is a run. -/
theorem reach_of_execAll {cs : List (Choice σ)} (h : execAll code parties s cs = some s') :
    Reach code s s' := by
  induction cs generalizing s with
  | nil =>
    cases h
    exact .refl
  | cons c cs ih =>
    rw [execAll, List.foldlM_cons] at h
    obtain ⟨t, ht, hrest⟩ := Option.bind_eq_some_iff.mp h
    obtain ⟨ps, hstep⟩ := step_of_exec hparties ht
    exact .head ⟨ps, trivial, hstep⟩ (ih hrest)

/-- A state that an execution finds is reachable. -/
theorem exists_reach_of_any {cs : List (Choice σ)} {P : State σ → Bool}
    (h : (execAll code parties s cs).any P = true) : ∃ s', Reach code s s' ∧ P s' = true := by
  obtain ⟨s', hs', hP⟩ := (Option.any_eq_true P _).mp h
  exact ⟨s', reach_of_execAll hparties hs', hP⟩

end Exec

end Machine
