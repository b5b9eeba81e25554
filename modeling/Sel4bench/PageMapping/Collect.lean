import Sel4bench.PageMapping.Protocol

/-!
# Collecting the results

The two threads follow the protocol of `Sel4bench.PageMapping.protocol`. When the main program is
done, every element of the results block for a test, a phase and a run is what the child process
has measured in that phase, in the run of the child process for that test.

## Main results

* `Sel4bench.PageMapping.mem_eq_measurements` — the results block when the main program is done.
* `Sel4bench.PageMapping.exists_reach_done` — every run can be continued until it is done.
-/

namespace Sel4bench.PageMapping

open Machine

variable {P : Platform} {pm : Params} {mem : Var → Time P}

/-! ### The child process -/

/-- The child process has measured and sent the results of `k` phases of its run. -/
structure Phases (k : ℕ) (v : View P) : Prop where
  active : v.active = true
  start : v.measured.start = none
  sent : v.measured.results (v.measured.count - 1) = v.current
  length : v.current.length = k

theorem phase_triple (k : ℕ) : ((protocol P pm mem).spec .child).Triple (Phases k) (phase P)
    fun _ => Phases (k + 1) := by
  refine (Spec.Triple.op (r := .clock) (Q := fun start v => v.active = true ∧
    v.measured.start = some start ∧
    v.measured.results (v.measured.count - 1) = v.current ∧ v.current.length = k) ?_).bind
    fun start => ?_
  · rintro v ⟨hactive, hstart, hsent, hlength⟩
    refine ⟨hactive, fun t _ => ?_⟩
    simp only [protocol, stepChild, measure, hstart]
    exact ⟨hactive, trivial, hsent, hlength⟩
  refine (Spec.Triple.op (r := .clock) (Q := fun stop v => v.active = true ∧
    v.measured.start = none ∧
    v.measured.results (v.measured.count - 1) = v.current ++ [stop - start] ∧
    v.current.length = k) ?_).bind fun stop => ?_
  · rintro v ⟨hactive, hstart, hsent, hlength⟩
    refine ⟨hactive, fun t _ => ?_⟩
    simp only [protocol, stepChild, measure, hstart]
    refine ⟨hactive, trivial, ?_, hlength⟩
    rw [addResult_self, hsent]
    rfl
  refine (Spec.Triple.op (Q := fun _ => Phases (k + 1)) ?_).bind fun _ => .pure fun _ h => h
  rintro v ⟨hactive, hstart, hsent, hlength⟩
  refine ⟨⟨hactive, hstart, _, rfl, hsent⟩, fun _ _ => ?_⟩
  have hcurrent : (v.addResult (stop - start)).current = v.current ++ [stop - start] :=
    addResult_self _ _ _
  simp only [protocol, stepChild, measure,
    Support.getResult_sendResult P.wordBits_pos P.words_pos]
  refine ⟨hactive, hstart, ?_, ?_⟩
  · rw [hcurrent]
    exact hsent
  · rw [hcurrent, List.length_append, hlength]
    rfl

theorem benchProc_safe (v : View P) (hv : AtEntry v) :
    ((protocol P pm mem).spec .child).Safe (code P pm .benchProc) v := by
  obtain ⟨hactive, hstart, hmeasured, hcurrent⟩ := hv
  have hloop : ((protocol P pm mem).spec .child).Triple (Phases 0) (benchProcThread P pm)
      fun _ v => v.active = false := by
    refine (Spec.Triple.loop (fun k _ => Phases k) fun k _ _ => phase_triple k).bind fun _ => ?_
    refine Spec.Triple.bind (Q := fun _ _ => False) ?_ fun _ => .pure fun _ h => h.elim
    refine Spec.Triple.bind (Q := fun _ _ => False) (.op ?_) fun _ => .pure fun _ h => h.elim
    rintro v ⟨hactive, -, -, hlength⟩
    exact ⟨⟨hactive, hlength⟩, fun _ h => h⟩
  exact hloop.safe_run ⟨hactive, hstart, hmeasured.trans hcurrent.symm, by rw [hcurrent]; rfl⟩

/-! ### The main program -/

variable (pm) in
/-- The results of the test `j` of run `i` are stored. -/
def Stored (i j : ℕ) (v : View P) : Prop :=
  (v.results (i * pm.tests + j)).length = pm.nphase ∧
    ∀ k < pm.nphase, v.mem (.benchmarksResult j k i) = (v.results (i * pm.tests + j))[k]?

variable (pm) in
/-- The first `n` runs of the child process are over and their results are stored. -/
structure Done (n : ℕ) (v : View P) : Prop where
  count : v.measured.count = n
  fresh : ∀ r, n ≤ r → v.results r = []
  stored : ∀ i j, j < pm.tests → i * pm.tests + j < n → Stored pm i j v

variable (pm) in
/-- In the next run of the child process `k` results have been received. -/
structure Receiving (n k : ℕ) (result : ℕ → Time P) (v : View P) : Prop where
  count : v.measured.count = n + 1
  active : v.active = true
  fresh : ∀ r, n + 1 ≤ r → v.results r = []
  stored : ∀ i j, j < pm.tests → i * pm.tests + j < n → Stored pm i j v
  length : (v.results n).length = k
  result : ∀ k' < k, (v.results n)[k']? = some (result k')

theorem Receiving.addResult {n k : ℕ} {result : ℕ → Time P} {v : View P}
    (h : Receiving pm n k result v) (t : Time P) :
    Receiving pm n (k + 1) (Function.update result k t) (v.addResult t) := by
  have hcur : v.measured.count - 1 = n := by
    rw [h.count, Nat.add_sub_cancel]
  have hself : (v.addResult t).results n = v.results n ++ [t] := by
    rw [← hcur]
    exact addResult_self _ _ _
  have hother : ∀ r, r ≠ n → (v.addResult t).results r = v.results r := fun r hr =>
    addResult_of_ne (by rw [hcur]; exact hr) _ _
  refine ⟨h.count, h.active, fun r hr => ?_, fun i j hj hlt => ?_, ?_, fun k' hk' => ?_⟩
  · rw [hother r (by omega)]
    exact h.fresh r hr
  · obtain ⟨hlength, hmem⟩ := h.stored i j hj hlt
    have hsame := hother (i * pm.tests + j) hlt.ne
    refine ⟨by rw [hsame]; exact hlength, fun k' hk' => ?_⟩
    rw [hsame]
    exact hmem k' hk'
  · rw [hself, List.length_append, h.length, List.length_singleton]
  · rw [hself]
    by_cases heq : k' = k
    · subst heq
      rw [Function.update_self, ← h.length, List.getElem?_concat_length]
    · have hlength := h.length
      rw [Function.update_of_ne heq, List.getElem?_append_left (by omega)]
      exact h.result k' (by omega)

theorem getResult_triple {n k : ℕ} (hk : k < pm.nphase) (result : ℕ → Time P) :
    ((protocol P pm mem).spec .parent).Triple (Receiving pm n k result) (getResult P)
      fun t => Receiving pm n (k + 1) (Function.update result k t) := by
  intro rest v h hrest
  have hcur : v.measured.count - 1 = n := by
    rw [h.count, Nat.add_sub_cancel]
  have hcurrent : v.current.length = k := by
    rw [View.current, hcur, h.length]
  refine ⟨⟨h.active, by rw [hcurrent]; exact hk⟩, fun a _ => ?_⟩
  exact hrest (Support.getResult P.ccntBits a.2) _ (h.addResult _)

theorem runBenchChildProc_triple (n : ℕ) :
    ((protocol P pm mem).spec .parent).Triple (Done pm n) (runBenchChildProc P pm)
      fun result => Receiving pm n pm.nphase result := by
  refine (Spec.Triple.op (Q := fun _ => Receiving pm n 0 fun _ => 0) ?_).bind fun _ => ?_
  · rintro v ⟨hcount, hfresh, hstored⟩
    refine ⟨trivial, fun _ _ => ⟨congrArg (· + 1) hcount, rfl, fun r hr => ?_, hstored, ?_, ?_⟩⟩
    · exact hfresh r (by omega)
    · exact congrArg List.length (hfresh n le_rfl)
    · exact fun k' hk' => absurd hk' (Nat.not_lt_zero k')
  · exact Spec.Triple.loop (fun k result => Receiving pm n k result) fun k hk result =>
      (getResult_triple hk result).bind fun t => .pure fun _ h => h

/-- Storing does not change the results of another test. -/
theorem Stored.store {i j i' j' k : ℕ} {v : View P} (h : Stored pm i' j' v)
    (hne : ¬(i' = i ∧ j' = j)) (t : Time P) (a : Unit) :
    Stored pm i' j' (stepParent v (.did (.store (.benchmarksResult j k i) t) a)) := by
  refine ⟨h.1, fun k' hk' => ?_⟩
  refine Eq.trans (Function.update_of_ne ?_ _ _) (h.2 k' hk')
  simp only [ne_eq, Var.benchmarksResult.injEq]
  tauto

theorem runTest_triple (i : ℕ) {j : ℕ} (hj : j < pm.tests) :
    ((protocol P pm mem).spec .parent).Triple (Done pm (i * pm.tests + j)) (runTest P pm i j)
      fun _ => Done pm (i * pm.tests + j + 1) := by
  set n := i * pm.tests + j with hn
  refine (runBenchChildProc_triple n).bind fun retTime => ?_
  refine Spec.Triple.bind (Q := fun _ v => Receiving pm n pm.nphase retTime v ∧ Stored pm i j v)
    (Spec.Triple.conseq (Spec.Triple.loop (fun k _ v => Receiving pm n pm.nphase retTime v ∧
      ∀ k' < k, v.mem (.benchmarksResult j k' i) = some (retTime k')) fun k hk _ => .op ?_)
      (fun v hv => ⟨hv, fun k' hk' => absurd hk' (Nat.not_lt_zero k')⟩) ?_) fun _ => .op ?_
  · rintro v ⟨h, hmem⟩
    refine ⟨trivial, fun a _ => ⟨⟨h.count, h.active, h.fresh, fun i' j' hj' hlt => ?_, h.length,
      h.result⟩, fun k' hk' => ?_⟩⟩
    · refine (h.stored i' j' hj' hlt).store ?_ (retTime k) a
      rintro ⟨rfl, rfl⟩
      omega
    · by_cases heq : k' = k
      · subst heq
        exact Function.update_self ..
      · refine Eq.trans (Function.update_of_ne ?_ _ _) (hmem k' (by omega))
        simpa using heq
  · rintro _ v ⟨h, hmem⟩
    exact ⟨h, h.length, fun k hk => (hmem k hk).trans (h.result k hk).symm⟩
  · rintro v ⟨h, hstored⟩
    refine ⟨trivial, fun _ _ => ⟨h.count, h.fresh, fun i' j' hj' hlt => ?_⟩⟩
    by_cases heq : i' * pm.tests + j' = n
    · obtain ⟨rfl, rfl⟩ : i' = i ∧ j' = j := by
        have hpos : 0 < pm.tests := by omega
        have hdiv := congrArg (· / pm.tests) heq
        have hmod := congrArg (· % pm.tests) heq
        simp only [hn, Nat.mul_comm _ pm.tests, Nat.mul_add_div hpos, Nat.div_eq_of_lt hj,
          Nat.div_eq_of_lt hj', Nat.add_zero, Nat.mul_add_mod, Nat.mod_eq_of_lt hj,
          Nat.mod_eq_of_lt hj'] at hdiv hmod
        exact ⟨hdiv, hmod⟩
      exact hstored
    · exact h.stored i' j' hj' (by omega)

theorem measureOverhead_triple :
    ((protocol P pm mem).spec .parent).Triple (Done pm 0) (measureOverhead P pm)
      fun _ => Done pm 0 := by
  refine Spec.Triple.loop (fun _ _ => Done pm 0) fun i _ _ => ?_
  refine (Spec.Triple.op (Q := fun _ => Done pm 0) fun v hv => ⟨trivial, fun _ _ => hv⟩).bind
    fun start => ?_
  refine (Spec.Triple.op (Q := fun _ => Done pm 0) fun v hv => ⟨trivial, fun _ _ => hv⟩).bind
    fun stop => .op fun v hv => ⟨trivial, fun _ _ => ?_⟩
  exact ⟨hv.count, hv.fresh, fun i j _ hlt => absurd hlt (Nat.not_lt_zero _)⟩

theorem mainThread_safe :
    ((protocol P pm mem).spec .parent).Safe (mainThread P pm).run {} := by
  have hmain : ((protocol P pm mem).spec .parent).Triple (Done pm 0) (mainThread P pm)
      fun _ => Collected pm := by
    refine measureOverhead_triple.bind fun _ => ?_
    refine Spec.Triple.conseq (P := Done pm (0 * pm.tests)) (Spec.Triple.loop
      (fun i _ => Done pm (i * pm.tests)) fun i _ _ => ?_) ?_ ?_
    · refine Spec.Triple.conseq (Spec.Triple.loop (fun j _ => Done pm (i * pm.tests + j))
        fun j hj _ => runTest_triple i hj) (fun v hv => hv) fun _ v hv => ?_
      rw [Nat.add_one_mul]
      exact hv
    · intro v hv
      rwa [Nat.zero_mul]
    · intro _ v hv i hi j hj
      refine hv.stored i j hj ?_
      calc i * pm.tests + j < i * pm.tests + pm.tests := Nat.add_lt_add_left hj _
        _ = (i + 1) * pm.tests := (Nat.add_one_mul i pm.tests).symm
        _ ≤ pm.runs * pm.tests := Nat.mul_le_mul_right _ hi
  exact hmain.safe_run ⟨rfl, fun _ _ => rfl, fun _ _ _ hlt => absurd hlt (Nat.not_lt_zero _)⟩

/-! ### Runs -/

theorem inv_init : (protocol P pm mem).Inv (init P pm mem) where
  safe p := by
    cases p with
    | child => exact rfl
    | parent => exact mainThread_safe
  own p := by
    cases p with
    | child => exact ⟨fun _ => List.nil_prefix, fun _ _ => rfl, nofun⟩
    | parent => trivial
  rel := ⟨rfl, rfl, rfl, fun _ => rfl⟩

theorem view_measured (pm : Params) (mem : Var → Time P) (log : Log (sig P)) :
    ((protocol P pm mem).view log .child).measured = (log.hist .child).foldl measure {} := by
  refine (List.foldl_hom View.measured fun v ev => ?_).symm
  cases ev with
  | did r a => cases r <;> rfl
  | started | stopped => rfl

section Main

variable {s : State (sig P)} (hreach : Reach (code P pm) (init P pm mem) s)

include hreach

theorem inv_of_reach : (protocol P pm mem).Inv s :=
  Protocol.inv_of_run (sound fun v hv => benchProc_safe v hv) inv_init hreach

/-- **The results block.** When the main program is done, its element for a test, a phase and a
run is what the child process has measured in that phase, in the run of the child process for that
test. -/
theorem mem_eq_measurements (hdone : s.thread .parent = .halt) {i j k : ℕ} (hi : i < pm.runs)
    (hj : j < pm.tests) (hk : k < pm.nphase) :
    (measurements (s.hist .child) (i * pm.tests + j))[k]? =
      some (s.kernel.mem (.benchmarksResult j k i)) := by
  have hinv := inv_of_reach hreach
  have hcollected := hinv.safe .parent
  rw [hdone] at hcollected
  obtain ⟨hlength, hstored⟩ := hcollected i hi j hj
  have hmem := hstored k hk
  rw [List.getElem?_eq_getElem (hlength.symm ▸ hk)] at hmem
  -- The child process has measured what it has sent, and maybe more.
  obtain ⟨rest, hrest⟩ := (hinv.own .child).sent (i * pm.tests + j)
  rw [← hinv.rel.results] at hrest
  rw [measurements, ← view_measured pm mem, ← hrest,
    List.getElem?_append_left (hlength.symm ▸ hk), List.getElem?_eq_getElem (hlength.symm ▸ hk),
    hinv.rel.mem, hmem, Option.getD_some]

/-- Until the main program is done, some step is possible. -/
theorem canStep (hdone : s.thread .parent ≠ .halt) : CanStep (code P pm) s := by
  have hinv := inv_of_reach hreach
  cases hparent : s.thread .parent with
  | halt => exact absurd hparent hdone
  | jump ℓ =>
    have hlabel := hinv.safe .parent
    rw [hparent] at hlabel
    exact hlabel.elim
  | op r rest =>
    have hguar := hinv.guar hparent
    cases r with
    | clock => exact .act hparent (.clock (0 : Time P))
    | store x t => exact .act hparent (.store x t)
    | start q ℓ =>
      cases q with
      | child => exact .start hparent nofun
      | parent => exact hguar.elim
    | suspend q =>
      cases q with
      | child => exact .suspend hparent nofun
      | parent => exact hguar.elim
    | recv e =>
      -- The child process is running and has not sent all its results.
      obtain ⟨hactive, hlength⟩ := hguar
      rw [hinv.rel.active] at hactive
      rw [View.current, hinv.rel.results, hinv.rel.count] at hlength
      cases hchild : s.thread .child with
      | halt =>
        have hrest := hinv.safe .child
        rw [hchild] at hrest
        exact absurd (hactive.symm.trans hrest) nofun
      | jump ℓ => exact .jump hchild
      | op r' rest' =>
        have hguar' := hinv.guar hchild
        cases r' with
        | clock => exact .act hchild (.clock (0 : Time P))
        | send e' m => exact .exchange hchild hparent (.send e m) nofun
        | recv e' => exact absurd hguar'.2 hlength.ne
        | _ => exact hguar'.elim
    | _ => exact hguar.elim

end Main

/-! ### The end -/

theorem bounded_benchProcThread (B : Budget (sig P)) :
    Bounded B (pm.nphase * (1 + (1 + 1)) + (1 + 0)) (benchProcThread P pm) :=
  (Bounded.loop fun _ _ => Bounded.clock.bind fun _ => Bounded.clock.bind fun _ =>
    Bounded.send _ _).bind fun _ => (Bounded.recv _).bind fun _ => .pure _

/-- The main program takes a bounded number of steps. -/
theorem exists_bounded_mainThread (pm : Params) (B : Budget (sig P)) :
    ∃ n, Bounded B n (mainThread P pm) := by
  have hoverhead : Bounded B (pm.runs * (1 + (1 + 1))) (measureOverhead P pm) :=
    Bounded.loop fun _ _ => Bounded.clock.bind fun _ => Bounded.clock.bind fun _ =>
      Bounded.store _ _
  have hresult : Bounded B (1 + 0) (getResult P) := (Bounded.recv _).bind fun _ => .pure _
  have hchild : Bounded B _ (runBenchChildProc P pm) := (Bounded.start _ _).bind fun _ =>
    Bounded.loop fun _ _ => hresult.bind fun _ => .pure _
  have htest : ∀ i j, Bounded B _ (runTest P pm i j) := fun i j => hchild.bind fun _ =>
    (Bounded.loop fun _ _ => Bounded.store _ _).bind fun _ => Bounded.suspend _
  exact ⟨_, hoverhead.bind fun _ => Bounded.loop fun i _ => Bounded.loop fun j _ => htest i j⟩

/-- Every run can be continued until the main program is done. -/
theorem exists_reach_done {s : State (sig P)} (hreach : Reach (code P pm) (init P pm mem) s) :
    ∃ s', Reach (code P pm) s s' ∧ s'.thread .parent = .halt := by
  let n := pm.nphase * (1 + (1 + 1)) + (1 + 0)
  obtain ⟨m, hm⟩ := exists_bounded_mainThread (P := P) pm { label := fun _ => n + 1 }
  refine exists_reach_of_within (B := { label := fun _ => n + 1 }) (fun ℓ => ?_)
    (b := fun p : Party => if p = .parent then m else 0) (fun p => ?_)
    (fun s hs hdone => canStep hs hdone)
    hreach
  · cases ℓ with
    | benchProc => exact ⟨n, Nat.lt_succ_self n, (bounded_benchProcThread _).within_run⟩
  · cases p with
    | child => exact .halt 0
    | parent => exact hm.within_run

end Sel4bench.PageMapping
