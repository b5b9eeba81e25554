import Mathlib.Logic.Function.Basic
import Mathlib.Logic.Relation
import Mathlib.Data.List.Basic

/-!
# Communicating threads

An operational semantics for a fixed set of parties that run threads over shared memory,
synchronous endpoints, binary notifications and monitors.

The kernel objects behave as follows. A message on an endpoint is delivered when a sender and a
receiver meet; messages are numbered on each endpoint. A call leaves a reply capability with its
receiver, which is used up by the reply and lost when the receiver receives again. A notification
is a flag: signalling sets it, waiting blocks until it is set and clears it. A thread that sleeps
on a condition variable releases the lock in the same step; waking resumes one sleeper if there is
one, and does nothing otherwise. Starting a thread gives it new code, whatever it was doing.

A thread is a tree of requests to the kernel, with a branch for every answer (`Machine.Prog`);
code is written in the continuation monad over such trees (`Machine.Code`). All that happens is
kept in a log (`Machine.State.log`), from which every party has its own history
(`Machine.Log.hist`).

## Main definitions

* `Machine.Sig`, `Machine.Req`, `Machine.Prog`, `Machine.Code`.
* `Machine.Kernel`, `Machine.State`, `Machine.Step`, `Machine.Run`.
-/

namespace Machine

/-- The types of a system. -/
structure Sig where
  Party : Type
  Endpoint : Type
  Ntfn : Type
  Lock : Type
  Cond : Type
  Var : Type
  Val : Var → Type
  /-- The values of the clock. -/
  Time : Type
  Msg : Type
  /-- The entry points and loop heads of the code. -/
  Label : Type
  [decParty : DecidableEq Party]
  [decEndpoint : DecidableEq Endpoint]
  [decNtfn : DecidableEq Ntfn]
  [decLock : DecidableEq Lock]
  [decVar : DecidableEq Var]

attribute [instance] Sig.decParty Sig.decEndpoint Sig.decNtfn Sig.decLock Sig.decVar

/-- A request of a thread. A call is `sendCall` followed by `awaitReply`, and waiting on a
condition variable is `sleep`, `asleep` and `acquire`. -/
inductive Req (σ : Sig)
  | clock
  | load (x : σ.Var)
  | store (x : σ.Var) (v : σ.Val x)
  | send (e : σ.Endpoint) (m : σ.Msg)
  | sendCall (e : σ.Endpoint) (m : σ.Msg)
  | awaitReply
  | recv (e : σ.Endpoint)
  | reply (m : σ.Msg)
  | signal (n : σ.Ntfn)
  | wait (n : σ.Ntfn)
  | acquire (l : σ.Lock)
  | release (l : σ.Lock)
  | sleep (l : σ.Lock) (c : σ.Cond)
  | asleep (c : σ.Cond)
  | wake (c : σ.Cond)
  | start (q : σ.Party) (ℓ : σ.Label)
  | suspend (q : σ.Party)

/-- The answer to a request. A sender learns the number of its message, a receiver the number and
the message, a replier the call that it has replied to, and a signaller whether the flag was
already set. -/
abbrev Req.Resp {σ : Sig} : Req σ → Type
  | .clock => σ.Time
  | .load x => σ.Val x
  | .send _ _ | .sendCall _ _ => ℕ
  | .awaitReply => σ.Msg
  | .recv _ => ℕ × σ.Msg
  | .reply _ => Option (σ.Endpoint × ℕ)
  | .signal _ => Bool
  | .wake _ => Option σ.Party
  | .store _ _ | .wait _ | .acquire _ | .release _ | .sleep _ _ | .asleep _ | .start _ _
  | .suspend _ => Unit

/-- What a thread still has to do. -/
inductive Prog (σ : Sig)
  | halt
  | op (r : Req σ) (k : r.Resp → Prog σ)
  | jump (ℓ : σ.Label)

variable {σ : Sig}

/-! ### Code -/

/-- Code with a result in `α`: it continues with the rest of the thread. -/
def Code (σ : Sig) (α : Type) := (α → Prog σ) → Prog σ

instance : Monad (Code σ) where
  pure a := fun k => k a
  bind c f := fun k => c fun a => f a k

namespace Code

variable {α β : Type}

/-- A thread that runs the code and halts. -/
def run (c : Code σ Unit) : Prog σ := c fun _ => .halt

/-- Continuing at a label. -/
def goto (ℓ : σ.Label) : Code σ α := fun _ => .jump ℓ

/-- Ending the thread. -/
def exit : Code σ α := fun _ => .halt

/-- One request. -/
def op (r : Req σ) : Code σ r.Resp := Prog.op r

def clock : Code σ σ.Time := op .clock

def load (x : σ.Var) : Code σ (σ.Val x) := op (.load x)

def store (x : σ.Var) (v : σ.Val x) : Code σ Unit := op (.store x v)

def send (e : σ.Endpoint) (m : σ.Msg) : Code σ Unit := do
  let _ ← op (.send e m)

def recv (e : σ.Endpoint) : Code σ σ.Msg := do
  let p ← op (.recv e)
  return p.2

def call (e : σ.Endpoint) (m : σ.Msg) : Code σ σ.Msg := do
  let _ ← op (.sendCall e m)
  op .awaitReply

def reply (m : σ.Msg) : Code σ Unit := do
  let _ ← op (.reply m)

/-- Replying and then receiving. -/
def replyRecv (e : σ.Endpoint) (m : σ.Msg) : Code σ σ.Msg := do
  reply m
  recv e

def signal (n : σ.Ntfn) : Code σ Unit := do
  let _ ← op (.signal n)

def wait (n : σ.Ntfn) : Code σ Unit := op (.wait n)

def acquire (l : σ.Lock) : Code σ Unit := op (.acquire l)

def release (l : σ.Lock) : Code σ Unit := op (.release l)

/-- Waiting on a condition variable: the lock is released while the thread sleeps. -/
def waitCond (l : σ.Lock) (c : σ.Cond) : Code σ Unit := do
  op (.sleep l c)
  op (.asleep c)
  op (.acquire l)

def wake (c : σ.Cond) : Code σ Unit := do
  let _ ← op (.wake c)

def start (q : σ.Party) (ℓ : σ.Label) : Code σ Unit := op (.start q ℓ)

def suspend (q : σ.Party) : Code σ Unit := op (.suspend q)

/-- The rounds `i, …, i + n - 1` of a counting loop with state in `β`. -/
def loopFrom (body : ℕ → β → Code σ β) : ℕ → ℕ → β → Code σ β
  | _, 0, b => pure b
  | i, n + 1, b => do
    let b ← body i b
    loopFrom body (i + 1) n b

/-- `for (i = 0; i < n; i++)`. -/
def loop (n : ℕ) (b : β) (body : ℕ → β → Code σ β) : Code σ β := loopFrom body 0 n b

@[simp] theorem pure_apply (a : α) (k : α → Prog σ) : (pure a : Code σ α) k = k a := rfl

@[simp] theorem bind_apply (c : Code σ α) (f : α → Code σ β) (k : β → Prog σ) :
    (c >>= f) k = c fun a => f a k := rfl

end Code

/-! ### Kernel and states -/

/-- The state of the kernel objects and of the memory. -/
structure Kernel (σ : Sig) where
  mem : ∀ x, σ.Val x
  /-- The number of messages delivered on an endpoint. -/
  msgs : σ.Endpoint → ℕ
  /-- The reply capability of a party: the caller and its call. -/
  caller : σ.Party → Option (σ.Party × σ.Endpoint × ℕ)
  pending : σ.Ntfn → Bool
  owner : σ.Lock → Option σ.Party

/-- Stopping a party cancels its calls. -/
def Kernel.cancel (κ : Kernel σ) (q : σ.Party) : Kernel σ :=
  { κ with caller := fun p => (κ.caller p).filter fun c => c.1 ≠ q }

/-- What happens to a party. -/
inductive Event (σ : Sig)
  | did (r : Req σ) (a : r.Resp)
  | started (ℓ : σ.Label)
  | stopped

/-- All that has happened, in order. -/
abbrev Log (σ : Sig) := List (σ.Party × Event σ)

/-- The history of a party. -/
def Log.hist (log : Log σ) (p : σ.Party) : List (Event σ) :=
  log.filterMap fun x => if x.1 = p then some x.2 else none

@[simp] theorem Log.hist_nil (p : σ.Party) : Log.hist ([] : Log σ) p = [] := rfl

theorem Log.hist_append (log : Log σ) (p q : σ.Party) (ev : Event σ) :
    Log.hist (log ++ [(p, ev)]) q =
      if p = q then Log.hist log q ++ [ev] else Log.hist log q := by
  by_cases h : p = q <;> simp [hist, List.filterMap_append, h]

/-- The state of a system. -/
structure State (σ : Sig) where
  thread : σ.Party → Prog σ
  kernel : Kernel σ
  log : Log σ

/-- The history of a party in a state. -/
abbrev State.hist (s : State σ) (p : σ.Party) : List (Event σ) := s.log.hist p

/-! ### Steps -/

/-- What a request of one party may answer and do. -/
inductive Effect (s : State σ) (p : σ.Party) : (r : Req σ) → r.Resp → Kernel σ → Prop
  | clock (t : σ.Time) : Effect s p .clock t s.kernel
  | load (x : σ.Var) : Effect s p (.load x) (s.kernel.mem x) s.kernel
  | store (x : σ.Var) (v : σ.Val x) :
    Effect s p (.store x v) () { s.kernel with mem := Function.update s.kernel.mem x v }
  | replyNone (m : σ.Msg) (h : s.kernel.caller p = none) : Effect s p (.reply m) none s.kernel
  | signal (n : σ.Ntfn) : Effect s p (.signal n) (s.kernel.pending n)
    { s.kernel with pending := Function.update s.kernel.pending n true }
  | wait (n : σ.Ntfn) (h : s.kernel.pending n = true) : Effect s p (.wait n) ()
    { s.kernel with pending := Function.update s.kernel.pending n false }
  | acquire (l : σ.Lock) (h : s.kernel.owner l = none) : Effect s p (.acquire l) ()
    { s.kernel with owner := Function.update s.kernel.owner l (some p) }
  | release (l : σ.Lock) : Effect s p (.release l) ()
    { s.kernel with owner := Function.update s.kernel.owner l none }
  | sleep (l : σ.Lock) (c : σ.Cond) : Effect s p (.sleep l c) ()
    { s.kernel with owner := Function.update s.kernel.owner l none }
  | wakeNone (c : σ.Cond) (h : ∀ q k, s.thread q ≠ .op (.asleep c) k) :
    Effect s p (.wake c) none s.kernel

/-- What two parties may do together: `p` sends to, replies to or wakes `q`. -/
inductive Exchange (κ : Kernel σ) (p q : σ.Party) :
    (r : Req σ) → r.Resp → (r' : Req σ) → r'.Resp → Kernel σ → Prop
  | send (e : σ.Endpoint) (m : σ.Msg) :
    Exchange κ p q (.send e m) (κ.msgs e) (.recv e) (κ.msgs e, m)
      { κ with
        msgs := Function.update κ.msgs e (κ.msgs e + 1)
        caller := Function.update κ.caller q none }
  | call (e : σ.Endpoint) (m : σ.Msg) :
    Exchange κ p q (.sendCall e m) (κ.msgs e) (.recv e) (κ.msgs e, m)
      { κ with
        msgs := Function.update κ.msgs e (κ.msgs e + 1)
        caller := Function.update κ.caller q (some (p, e, κ.msgs e)) }
  | reply (m : σ.Msg) {e : σ.Endpoint} {n : ℕ} (h : κ.caller p = some (q, e, n)) :
    Exchange κ p q (.reply m) (some (e, n)) .awaitReply m
      { κ with caller := Function.update κ.caller p none }
  | wake (c : σ.Cond) : Exchange κ p q (.wake c) (some q) (.asleep c) () κ

/-- A step of the system, with the parties that take part in it. -/
inductive Step (code : σ.Label → Prog σ) (s : State σ) : List σ.Party → State σ → Prop
  | act {p : σ.Party} {r : Req σ} {k : r.Resp → Prog σ} {a : r.Resp} {κ : Kernel σ}
    (hp : s.thread p = .op r k) (h : Effect s p r a κ) :
    Step code s [p]
      { thread := Function.update s.thread p (k a)
        kernel := κ
        log := s.log ++ [(p, .did r a)] }
  | exchange {p q : σ.Party} {r r' : Req σ} {k : r.Resp → Prog σ} {k' : r'.Resp → Prog σ}
    {a : r.Resp} {a' : r'.Resp} {κ : Kernel σ} (hpq : p ≠ q) (hp : s.thread p = .op r k)
    (hq : s.thread q = .op r' k') (h : Exchange s.kernel p q r a r' a' κ) :
    Step code s [p, q]
      { thread := Function.update (Function.update s.thread p (k a)) q (k' a')
        kernel := κ
        log := s.log ++ [(p, .did r a)] ++ [(q, .did r' a')] }
  | jump {p : σ.Party} {ℓ : σ.Label} (hp : s.thread p = .jump ℓ) :
    Step code s [p] { s with thread := Function.update s.thread p (code ℓ) }
  | start {p q : σ.Party} {ℓ : σ.Label} {k : Unit → Prog σ} (hpq : p ≠ q)
    (hp : s.thread p = .op (.start q ℓ) k) :
    Step code s [p]
      { thread := Function.update (Function.update s.thread p (k ())) q (.jump ℓ)
        kernel := s.kernel.cancel q
        log := s.log ++ [(p, .did (.start q ℓ) ())] ++ [(q, .started ℓ)] }
  | suspend {p q : σ.Party} {k : Unit → Prog σ} (hpq : p ≠ q)
    (hp : s.thread p = .op (.suspend q) k) :
    Step code s [p]
      { thread := Function.update (Function.update s.thread p (k ())) q .halt
        kernel := s.kernel.cancel q
        log := s.log ++ [(p, .did (.suspend q) ())] ++ [(q, .stopped)] }

/-- Runs in which every step is allowed by the scheduler. -/
def Run (code : σ.Label → Prog σ) (ok : State σ → List σ.Party → Prop) : State σ → State σ → Prop :=
  Relation.ReflTransGen fun s s' => ∃ ps, ok s ps ∧ Step code s ps s'

/-- Runs with any interleaving. -/
def Reach (code : σ.Label → Prog σ) : State σ → State σ → Prop :=
  Run code fun _ _ => True

theorem Run.mono {code : σ.Label → Prog σ} {ok ok' : State σ → List σ.Party → Prop}
    (h : ∀ s ps, ok s ps → ok' s ps) {s s' : State σ} (hrun : Run code ok s s') :
    Run code ok' s s' :=
  Relation.ReflTransGen.mono (fun _ _ ⟨ps, hok, hstep⟩ => ⟨ps, h _ ps hok, hstep⟩) _ _ hrun

/-- Some step is possible. -/
def CanStep (code : σ.Label → Prog σ) (s : State σ) : Prop := ∃ ps s', Step code s ps s'

section CanStep

variable {code : σ.Label → Prog σ} {s : State σ} {p q : σ.Party}

theorem CanStep.act {r : Req σ} {k : r.Resp → Prog σ} {a : r.Resp} {κ : Kernel σ}
    (hp : s.thread p = .op r k) (h : Effect s p r a κ) : CanStep code s :=
  ⟨_, _, .act hp h⟩

theorem CanStep.exchange {r r' : Req σ} {k : r.Resp → Prog σ} {k' : r'.Resp → Prog σ}
    {a : r.Resp} {a' : r'.Resp} {κ : Kernel σ} (hp : s.thread p = .op r k)
    (hq : s.thread q = .op r' k') (h : Exchange s.kernel p q r a r' a' κ) (hpq : p ≠ q) :
    CanStep code s :=
  ⟨_, _, .exchange hpq hp hq h⟩

theorem CanStep.jump {ℓ : σ.Label} (hp : s.thread p = .jump ℓ) : CanStep code s :=
  ⟨_, _, .jump hp⟩

theorem CanStep.start {ℓ : σ.Label} {k : Unit → Prog σ} (hp : s.thread p = .op (.start q ℓ) k)
    (hpq : p ≠ q) : CanStep code s :=
  ⟨_, _, .start hpq hp⟩

theorem CanStep.suspend {k : Unit → Prog σ} (hp : s.thread p = .op (.suspend q) k)
    (hpq : p ≠ q) : CanStep code s :=
  ⟨_, _, .suspend hpq hp⟩

end CanStep

/-- No step of the party is possible. -/
def Blocked (code : σ.Label → Prog σ) (s : State σ) (p : σ.Party) : Prop :=
  ∀ ps s', p ∈ ps → ¬Step code s ps s'

section Blocked

variable {code : σ.Label → Prog σ} {s : State σ} {p : σ.Party}

theorem blocked_of_halt (hp : s.thread p = .halt) : Blocked code s p := by
  intro ps s' hmem hstep
  cases hstep with
  | act hq | jump hq | start _ hq | suspend _ hq =>
    rw [List.mem_singleton] at hmem
    subst hmem
    exact absurd (hp.symm.trans hq) nofun
  | exchange _ hq hq' =>
    simp only [List.mem_cons, List.not_mem_nil, or_false] at hmem
    rcases hmem with rfl | rfl
    · exact absurd (hp.symm.trans hq) nofun
    · exact absurd (hp.symm.trans hq') nofun

/-- A party is blocked at a request that neither it nor another party can complete. -/
theorem blocked_of_op {r : Req σ} {k : r.Resp → Prog σ} (hp : s.thread p = .op r k)
    (hstart : ∀ q ℓ, r ≠ .start q ℓ) (hsuspend : ∀ q, r ≠ .suspend q)
    (heffect : ∀ a κ, ¬Effect s p r a κ)
    (hto : ∀ q r' k' a a' κ, s.thread q = .op r' k' → ¬Exchange s.kernel p q r a r' a' κ)
    (hfrom : ∀ q r' k' a a' κ, s.thread q = .op r' k' → ¬Exchange s.kernel q p r' a' r a κ) :
    Blocked code s p := by
  intro ps s' hmem hstep
  cases hstep with
  | act hq heff =>
    rw [List.mem_singleton] at hmem
    subst hmem
    cases hp.symm.trans hq
    exact heffect _ _ heff
  | jump hq =>
    rw [List.mem_singleton] at hmem
    subst hmem
    exact absurd (hp.symm.trans hq) nofun
  | start _ hq =>
    rw [List.mem_singleton] at hmem
    subst hmem
    cases hp.symm.trans hq
    exact hstart _ _ rfl
  | suspend _ hq =>
    rw [List.mem_singleton] at hmem
    subst hmem
    cases hp.symm.trans hq
    exact hsuspend _ rfl
  | exchange _ hq hq' hex =>
    simp only [List.mem_cons, List.not_mem_nil, or_false] at hmem
    obtain rfl | rfl := hmem
    · cases hp.symm.trans hq
      exact hto _ _ _ _ _ _ hq' hex
    · cases hp.symm.trans hq'
      exact hfrom _ _ _ _ _ _ hq hex

/-- A party that waits for a notification whose flag is clear is blocked. -/
theorem blocked_of_wait {n : σ.Ntfn} {k : Unit → Prog σ} (hp : s.thread p = .op (.wait n) k)
    (hn : s.kernel.pending n = false) : Blocked code s p := by
  refine blocked_of_op hp nofun nofun ?_ ?_ ?_
  · intro a κ heff
    cases heff with
    | wait _ hset => rw [hn] at hset; cases hset
  · rintro q r' k' a a' κ - hex
    cases hex
  · rintro q r' k' a a' κ - hex
    cases hex

/-- A party that receives on an endpoint on which nobody sends is blocked. -/
theorem blocked_of_recv {e : σ.Endpoint} {k : ℕ × σ.Msg → Prog σ}
    (hp : s.thread p = .op (.recv e) k) (hsend : ∀ q m k', s.thread q ≠ .op (.send e m) k')
    (hcall : ∀ q m k', s.thread q ≠ .op (.sendCall e m) k') : Blocked code s p := by
  refine blocked_of_op hp nofun nofun ?_ ?_ ?_
  · rintro a κ heff
    cases heff
  · rintro q r' k' a a' κ - hex
    cases hex
  · rintro q r' k' a a' κ hq hex
    cases hex with
    | send => exact hsend q _ _ hq
    | call => exact hcall q _ _ hq

end Blocked

end Machine
