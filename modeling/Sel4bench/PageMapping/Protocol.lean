import Sel4bench.Lib.Protocol
import Sel4bench.Lib.Termination
import Sel4bench.PageMapping.Threads

/-!
# The results of the child process

The child process measures its phases one after the other and sends each result before it measures
the next one, so that the results that it has sent in a run are a prefix of those that it has
measured (`Sel4bench.PageMapping.Own`). The main program receives them in this order, and it
receives all results of a run before it starts the next one.

## Main definitions

* `Sel4bench.PageMapping.measurements` — what the child process has measured in each run.
* `Sel4bench.PageMapping.protocol`.

## Main results

* `Sel4bench.PageMapping.sound` — a child process and a main program that follow the protocol keep
  it.
-/

namespace Sel4bench.PageMapping

open Machine

variable {P : Platform} {pm : Params}

/-! ### Measurements -/

/-- The runs of the child process: how many there are, the first reading of the clock in the
current phase, and the results of the phases by run. -/
structure Measured (P : Platform) where
  count : ℕ := 0
  start : Option (Time P) := none
  results : ℕ → List (Time P) := fun _ => []

/-- Adding a result to the current run. -/
def addResult (count : ℕ) (results : ℕ → List (Time P)) (t : Time P) : ℕ → List (Time P) :=
  Function.update results (count - 1) (results (count - 1) ++ [t])

/-- A start begins a run, and every second reading of the clock in it completes a phase. -/
def measure (m : Measured P) : Machine.Event (sig P) → Measured P
  | .started _ => { m with count := m.count + 1, start := none }
  | .did .clock t =>
    match m.start with
    | none => { m with start := some t }
    | some start => { m with start := none, results := addResult m.count m.results (t - start) }
  | _ => m

/-- The results of the phases in each run, from a history. -/
def measurements (h : List (Machine.Event (sig P))) : ℕ → List (Time P) :=
  (h.foldl measure {}).results

/-! ### The protocol -/

/-- What a party knows. -/
structure View (P : Platform) where
  /-- The measurements; of the main program only the number of runs. -/
  measured : Measured P := {}
  /-- The child process is running. -/
  active : Bool := false
  /-- The results that have been sent or received, by run. -/
  results : ℕ → List (Time P) := fun _ => []
  /-- What the main program has stored. -/
  mem : Var → Option (Time P) := fun _ => none

/-- The results of the current run that have been sent or received. -/
def View.current (v : View P) : List (Time P) := v.results (v.measured.count - 1)

/-- A result of the current run. -/
def View.addResult (v : View P) (t : Time P) : View P :=
  { v with results := PageMapping.addResult v.measured.count v.results t }

/-- The view of the child process after an event. -/
def stepChild (v : View P) (ev : Machine.Event (sig P)) : View P :=
  let v := { v with measured := measure v.measured ev }
  match ev with
  | .did (.send _ m) _ => v.addResult (Support.getResult P.ccntBits m)
  | .started _ => { v with active := true }
  | .stopped => { v with active := false }
  | _ => v

/-- The view of the main program after an event. -/
def stepParent (v : View P) : Machine.Event (sig P) → View P
  | .did (.start _ _) _ =>
    { v with measured := { v.measured with count := v.measured.count + 1 }, active := true }
  | .did (.suspend _) _ => { v with active := false }
  | .did (.recv _) a => v.addResult (Support.getResult P.ccntBits a.2)
  | .did (.store x t) _ => { v with mem := Function.update v.mem x (some t) }
  | _ => v

/-- The requests that the child process may make. -/
def guarChild (pm : Params) (v : View P) : Req (sig P) → Prop
  | .clock => v.active = true
  | .send _ m => v.active = true ∧ v.measured.start = none ∧
    ∃ t, m = Support.sendResult (fun _ => 0) t ∧
      v.measured.results (v.measured.count - 1) = v.current ++ [t]
  | .recv _ => v.active = true ∧ v.current.length = pm.nphase
  | _ => False

/-- The requests that the main program may make. -/
def guarParent (pm : Params) (v : View P) : Req (sig P) → Prop
  | .clock => True
  | .store _ _ => True
  | .start .child _ => True
  | .suspend .child => True
  | .recv _ => v.active = true ∧ v.current.length < pm.nphase
  | _ => False

/-- The child process receives nothing. -/
def relyChild : (r : Req (sig P)) → r.Resp → Prop
  | .recv _, _ => False
  | _, _ => True

/-- All results have been received and are stored. -/
def Collected (pm : Params) (v : View P) : Prop :=
  ∀ i < pm.runs, ∀ j < pm.tests, (v.results (i * pm.tests + j)).length = pm.nphase ∧
    ∀ k < pm.nphase, v.mem (.benchmarksResult j k i) = (v.results (i * pm.tests + j))[k]?

/-- The view of the child process at its entry. -/
def AtEntry (v : View P) : Prop :=
  v.active = true ∧ v.measured.start = none ∧
    v.measured.results (v.measured.count - 1) = [] ∧ v.current = []

/-- What holds of the view of the child process by itself. -/
structure Own (v : View P) : Prop where
  sent : ∀ r, v.results r <+: v.measured.results r
  fresh : ∀ r, v.measured.count ≤ r → v.measured.results r = []
  active : v.active = true → 0 < v.measured.count

/-- How the views are related. -/
structure Rel (mem : Var → Time P) (κ : Kernel (sig P)) (g : Party → View P) : Prop where
  count : (g .parent).measured.count = (g .child).measured.count
  active : (g .parent).active = (g .child).active
  results : (g .parent).results = (g .child).results
  mem : ∀ x, κ.mem x = ((g .parent).mem x).getD (mem x)

/-- The protocol of the main program and the child process. -/
def protocol (P : Platform) (pm : Params) (mem : Var → Time P) :
    Machine.Protocol (sig P) (View P) where
  spec
    | .child =>
      { init := {}
        step := stepChild
        guar := guarChild pm
        rely := fun _ => relyChild
        rest := fun v => v.active = false
        atLabel := fun _ => AtEntry }
    | .parent =>
      { init := {}
        step := stepParent
        guar := guarParent pm
        rely := fun _ _ _ => True
        rest := Collected pm
        atLabel := fun _ _ => False }
  own
    | .child => Own
    | .parent => fun _ => True
  rel := Rel mem

/-! ### The protocol is kept -/

theorem addResult_self (count : ℕ) (results : ℕ → List (Time P)) (t : Time P) :
    addResult count results t (count - 1) = results (count - 1) ++ [t] :=
  Function.update_self ..

theorem addResult_of_ne {count r : ℕ} (h : r ≠ count - 1) (results : ℕ → List (Time P))
    (t : Time P) : addResult count results t r = results r :=
  Function.update_of_ne h ..

/-- A result keeps the earlier ones. -/
theorem prefix_addResult (count : ℕ) (results : ℕ → List (Time P)) (t : Time P) (r : ℕ) :
    results r <+: addResult count results t r := by
  by_cases h : r = count - 1
  · subst h
    rw [addResult_self]
    exact List.prefix_append _ _
  · rw [addResult_of_ne h]

theorem Own.clock {v : View P} (h : Own v) (hactive : v.active = true) (t : Time P) :
    Own (stepChild v (.did .clock t)) := by
  have hpos := h.active hactive
  simp only [stepChild, measure]
  cases hstart : v.measured.start with
  | none => exact ⟨h.sent, h.fresh, h.active⟩
  | some start =>
    refine ⟨fun r => (h.sent r).trans (prefix_addResult _ _ _ r), fun r hr => ?_, h.active⟩
    have hne : r ≠ v.measured.count - 1 := by
      have hr : v.measured.count ≤ r := hr
      omega
    exact (addResult_of_ne hne _ _).trans (h.fresh r hr)

theorem Own.send {v : View P} (h : Own v) {t : Time P}
    (ht : v.measured.results (v.measured.count - 1) = v.current ++ [t]) (e : Endpoint) (n : ℕ) :
    Own (stepChild v (.did (.send e (Support.sendResult (fun _ => 0) t)) n)) := by
  refine ⟨fun r => ?_, h.fresh, h.active⟩
  simp only [stepChild, measure, View.addResult,
    Support.getResult_sendResult P.wordBits_pos P.words_pos]
  by_cases hr : r = v.measured.count - 1
  · subst hr
    rw [addResult_self, ht]
    exact List.prefix_rfl
  · rw [addResult_of_ne hr]
    exact h.sent r

theorem Own.started {v : View P} (h : Own v) (ℓ : Label) :
    Own (stepChild v (.started ℓ)) :=
  ⟨h.sent, fun r hr => h.fresh r ((Nat.le_succ _).trans hr), fun _ => Nat.succ_pos _⟩

theorem Own.atEntry {v : View P} (h : Own v) (ℓ : Label) :
    AtEntry (stepChild v (.started ℓ)) := by
  have hempty := h.fresh v.measured.count le_rfl
  have hprefix := h.sent v.measured.count
  rw [hempty, List.prefix_nil] at hprefix
  exact ⟨rfl, rfl, hempty, hprefix⟩

section Sound

variable {mem : Var → Time P}

theorem Own.did {v : View P} {r : Req (sig P)} {a : r.Resp} (h : Own v) (hguar : guarChild pm v r)
    (hrely : relyChild r a) : Own (stepChild v (.did r a)) := by
  cases r with
  | clock => exact h.clock hguar a
  | send e m =>
    obtain ⟨-, -, t, rfl, ht⟩ := hguar
    exact h.send ht e a
  | recv e => exact hrely.elim
  | _ => exact hguar.elim

variable {s : State (sig P)} {p q : Party}

/-- What a process does by itself: the child reads the counter, and the parent stores results. -/
theorem rel_effect (hinv : (protocol P pm mem).Inv s) {r : Req (sig P)} {a : r.Resp}
    {κ : Kernel (sig P)}
    (hguar : ((protocol P pm mem).spec p).guar ((protocol P pm mem).view s.log p) r)
    (heff : Effect s p r a κ) :
    ((protocol P pm mem).spec p).rely ((protocol P pm mem).view s.log p) r a ∧
      (protocol P pm mem).rel κ
        ((protocol P pm mem).next ((protocol P pm mem).view s.log) p (.did r a)) := by
  have hrel := hinv.rel
  cases heff with
  | clock t =>
    cases p with
    | child =>
      refine ⟨trivial, ?_, hrel.active, hrel.results, hrel.mem⟩
      refine hrel.count.trans ?_
      simp only [Protocol.next_self, protocol, stepChild, measure]
      split <;> rfl
    | parent => exact ⟨trivial, hrel.count, hrel.active, hrel.results, hrel.mem⟩
  | store x t =>
    cases p with
    | child => exact hguar.elim
    | parent =>
      refine ⟨trivial, hrel.count, hrel.active, hrel.results, fun y => ?_⟩
      simp only [Protocol.next_self, protocol, stepParent]
      by_cases hy : y = x
      · subst hy
        simp
      · rw [Function.update_of_ne hy, Function.update_of_ne hy]
        exact hrel.mem y
  | load x => cases p <;> exact hguar.elim
  | replyNone m hnone => cases p <;> exact hguar.elim
  | signal n | wait n => exact n.elim
  | acquire l | release l | sleep l => exact l.elim
  | wakeNone c => exact c.elim

/-- The parent adds the result that the child has sent to those that it has. -/
theorem rel_exchange (hinv : (protocol P pm mem).Inv s) {r r' : Req (sig P)} {a : r.Resp}
    {a' : r'.Resp} {κ : Kernel (sig P)} (hpq : p ≠ q)
    (hp : ((protocol P pm mem).spec p).guar ((protocol P pm mem).view s.log p) r)
    (hex : Exchange s.kernel p q r a r' a' κ) :
    ((protocol P pm mem).spec p).rely ((protocol P pm mem).view s.log p) r a ∧
      ((protocol P pm mem).spec q).rely ((protocol P pm mem).view s.log q) r' a' ∧
      (protocol P pm mem).rel κ ((protocol P pm mem).next
        ((protocol P pm mem).next ((protocol P pm mem).view s.log) p (.did r a)) q
        (.did r' a')) := by
  have hrel := hinv.rel
  cases hex with
  | send e m =>
    cases p with
    | parent => exact hp.elim
    | child =>
      cases q with
      | child => exact absurd rfl hpq
      | parent =>
        refine ⟨trivial, trivial, hrel.count, hrel.active, ?_, hrel.mem⟩
        exact congrArg₂ (fun count results => addResult count results
          (Support.getResult P.ccntBits m)) hrel.count hrel.results
  | call e m => cases p <;> exact hp.elim
  | reply m hcaller => cases p <;> exact hp.elim
  | wake c => exact c.elim

theorem sound {F : Label → Prog (sig P)}
    (hlabel : ∀ v, AtEntry v → ((protocol P pm mem).spec .child).Safe (F .benchProc) v) :
    (protocol P pm mem).Sound F fun _ _ => True where
  label p ℓ v hv := by
    cases p with
    | child => exact hlabel v hv
    | parent => exact hv.elim
  own {p v r a} h hguar hrely := by
    cases p with
    | parent => trivial
    | child => exact h.did hguar hrely
  own_started {p v ℓ} h := by
    cases p with
    | parent => trivial
    | child => exact h.started ℓ
  own_stopped {p v} h := by
    cases p with
    | parent => trivial
    | child => exact ⟨h.sent, h.fresh, nofun⟩
  effect hinv _ := rel_effect hinv
  exchange hinv _ hpq hp _ := rel_exchange hinv hpq hp
  start {s p q ℓ} hinv _ hpq hguar := by
    have hrel := hinv.rel
    cases p with
    | child => exact hguar.elim
    | parent =>
      cases q with
      | parent => exact absurd rfl hpq
      | child =>
        exact ⟨trivial, (hinv.own .child).atEntry ℓ,
          congrArg (· + 1) hrel.count, rfl, hrel.results, hrel.mem⟩
  suspend {s p q} hinv _ hpq hguar := by
    have hrel := hinv.rel
    cases p with
    | child => exact hguar.elim
    | parent =>
      cases q with
      | parent => exact absurd rfl hpq
      | child => exact ⟨trivial, rfl, hrel.count, rfl, hrel.results, hrel.mem⟩

end Sound

end Sel4bench.PageMapping
