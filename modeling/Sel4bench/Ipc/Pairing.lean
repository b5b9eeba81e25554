import Sel4bench.Ipc.Protocol
import Sel4bench.Lib.Termination

/-!
# Timestamp pairing of the IPC benchmark

The helper functions of every benchmark in the table follow the protocol of `Ipc.Protocol`, each
pair with its own shape. The rounds of their loops are taken one at a time; the timestamps that a
helper sends are those of its last round, and the shapes say which message that is. With the
bounds of the helper functions no run of `run_bench` gets stuck before the two results are
delivered.

## Main definitions

* `Sel4bench.Ipc.callShape`, `Sel4bench.Ipc.replyRecvShape`, `Sel4bench.Ipc.sendShape` — how the
  three kinds of pairs use the endpoint.

## Main results

* `Sel4bench.Ipc.helper_safe` — the helper functions follow the protocol.
* `Sel4bench.Ipc.timestamp_pairing` — the two results delimit the same message.
-/

namespace Sel4bench.Ipc

open Machine

variable {w : ℕ} {params : BenchmarkParams}

/-! ### Shapes of the pairs -/

/-- `ipc_call_func2` with `ipc_replyrecv_func2`. -/
def callShape (warmups : ℕ) : Shape where
  total := warmups + 1
  calls := warmups + 1
  resultAt := warmups + 1
  crossing := warmups
  direction := .to
  calls_le := le_rfl
  resultAt_le := le_rfl

/-- `ipc_call_func` with `ipc_replyrecv_func`. -/
def replyRecvShape (warmups : ℕ) : Shape where
  total := warmups + 1
  calls := warmups
  resultAt := warmups
  crossing := warmups - 1
  direction := .from
  calls_le := le_rfl
  resultAt_le := Nat.le_succ _

/-- `ipc_send_func` with `ipc_recv_func`. -/
def sendShape (warmups : ℕ) : Shape where
  total := warmups + 1
  calls := 0
  resultAt := warmups
  crossing := warmups - 1
  direction := .to
  calls_le := Nat.zero_le _
  resultAt_le := Nat.le_succ _

/-! ### Pieces of code -/

/-- A helper that runs, with no result sent yet. -/
structure Running (count : ℕ) (waiting : Bool) (v : View w) : Prop where
  active : v.active = true
  count : v.count = count
  waiting : v.waiting = waiting
  unsent : resultsSent v.hist = []

/-- A helper that runs, with its result sent. -/
structure Sent (count : ℕ) (v : View w) : Prop where
  active : v.active = true
  count : v.count = count
  waiting : v.waiting = false
  sent : resultsSent v.hist ≠ []

section Rounds

variable {sh : Shape} {c : ℕ}

theorem call_round (hc : c < sh.calls) (tag : Msg w) :
    ((protocol sh params).spec .client).Triple (Running c false)
      (do
        let start ← Code.clock
        seL4Call tag
        let stop ← Code.clock
        return (start, stop))
      fun t v => Running (c + 1) false v ∧ SentAt v.hist c t.1 ∧ ReturnedAt v.hist c t.2 := by
  rintro k v ⟨hactive, rfl, hwait, hunsent⟩ hk
  refine ⟨⟨hactive, hwait⟩, fun start _ => ⟨⟨hactive, hwait, hc⟩, fun n hn => ⟨⟨hactive, rfl⟩,
    fun m _ => ⟨⟨hactive, rfl⟩, fun stop _ => hk _ _ ⟨⟨hactive, rfl, rfl, ?_⟩, ?_, ?_⟩⟩⟩⟩⟩
  · simpa [protocol, step, resultsSent, resultOf] using hunsent
  · cases (hn : n = v.count)
    exact ⟨tag, .inl ⟨v.hist, [.did .awaitReply m, .did .clock stop],
      by simp [protocol, step, advance]⟩⟩
  · cases (hn : n = v.count)
    exact ⟨tag, m, v.hist ++ [.did .clock start], [], by simp [protocol, step, advance]⟩

theorem send_round (hc : sh.calls ≤ c) (hc' : c < sh.total) (tag : Msg w) :
    ((protocol sh params).spec .client).Triple (Running c false)
      (do
        let start ← Code.clock
        seL4Send tag
        let stop ← Code.clock
        return (start, stop))
      fun t v => Running (c + 1) false v ∧ SentAt v.hist c t.1 := by
  rintro k v ⟨hactive, rfl, hwait, hunsent⟩ hk
  refine ⟨⟨hactive, hwait⟩, fun start _ => ⟨⟨hactive, hwait, hc, hc'⟩, fun n hn =>
    ⟨⟨hactive, hwait⟩, fun stop _ => hk _ _ ⟨⟨hactive, rfl, hwait, ?_⟩, ?_⟩⟩⟩⟩
  · simpa [protocol, step, resultsSent, resultOf] using hunsent
  · cases (hn : n = v.count)
    exact ⟨tag, .inr ⟨v.hist, [.did .clock stop], by simp [protocol, step, advance]⟩⟩

theorem replyRecv_round (hc : c + 1 < sh.total) (tag : Msg w) :
    ((protocol sh params).spec .server).Triple (Running (c + 1) true)
      (do
        let start ← Code.clock
        replyRecv tag
        let stop ← Code.clock
        return (start, stop))
      fun t v => Running (c + 2) (decide (c + 1 < sh.calls)) v ∧ RepliedAt v.hist c t.1 ∧
        ReceivedAt v.hist (c + 1) t.2 := by
  rintro k v ⟨hactive, hcount, hwait, hunsent⟩ hk
  refine ⟨hactive, fun start _ => ⟨⟨hactive, hwait⟩, fun a ha => ⟨⟨hactive, rfl, .inl ?_⟩,
    fun b hb => ⟨hactive, fun stop _ => hk _ _ ⟨⟨hactive, ?_, ?_, ?_⟩, ?_, ?_⟩⟩⟩⟩⟩
  · exact hcount.trans_lt hc
  · exact congrArg (· + 1) hcount
  · have hnum : b.1 = v.count := hb
    simp [protocol, step, advance, hnum, hcount]
  · simpa [protocol, step, resultsSent, resultOf] using hunsent
  · have hcall : a = some (.ep, v.count - 1) := ha
    rw [hcount, Nat.add_sub_cancel] at hcall
    subst hcall
    exact ⟨tag, v.hist, [.did (.recv .ep) b, .did .clock stop], by simp [protocol, step]⟩
  · have hnum : b.1 = v.count := hb
    rw [hcount] at hnum
    refine ⟨b.2, v.hist ++ [.did .clock start, .did (.reply tag) a], [], ?_⟩
    simp [protocol, step, ← hnum]

theorem recv_round (hc : c < sh.total) (hcalls : sh.calls = 0) :
    ((protocol sh params).spec .server).Triple (Running (w := w) c false)
      (do
        let start ← Code.clock
        apiRecv
        let stop ← Code.clock
        return (start, stop))
      fun t v => Running (c + 1) false v ∧ ReceivedAt v.hist c t.2 := by
  rintro k v ⟨hactive, rfl, hwait, hunsent⟩ hk
  refine ⟨hactive, fun start _ => ⟨⟨hactive, hwait, .inl hc⟩, fun b hb =>
    ⟨hactive, fun stop _ => hk _ _ ⟨⟨hactive, rfl, ?_, ?_⟩, ?_⟩⟩⟩⟩
  · simp [protocol, step, advance, hcalls]
  · simpa [protocol, step, resultsSent, resultOf] using hunsent
  · have hnum : b.1 = v.count := hb
    refine ⟨b.2, v.hist ++ [.did .clock start], [], ?_⟩
    simp [protocol, step, ← hnum]

end Rounds

/-- The timestamps of the helpers are those of the last round. -/
theorem timed_triple {S : Spec (sig w) (View w)} {warmups : ℕ} (hpos : 0 < warmups)
    {op : Code (sig w) Unit} {P : ℕ → View w → Prop} {Q : ℕ → Ccnt w × Ccnt w → View w → Prop}
    (hround : ∀ i < warmups, S.Triple (P i)
      (do
        let start ← Code.clock
        op
        let stop ← Code.clock
        return (start, stop))
      fun t v => P (i + 1) v ∧ Q i t v) :
    S.Triple (P 0) (timed warmups op) fun t v => P warmups v ∧ Q (warmups - 1) t v := by
  refine (Spec.Triple.loop (fun i t v => P i v ∧ (0 < i → Q (i - 1) t v)) fun i hi t => ?_).conseq
    (fun v hv => ⟨hv, nofun⟩) fun t v hv => ⟨hv.1, hv.2 hpos⟩
  exact (hround i hi).conseq (fun v hv => hv.1) fun t v hv => ⟨hv.1, fun _ => hv.2⟩

theorem dummy_triple {S : Spec (sig w) (View w)} {P : View w → Prop} {tag : Msg w} :
    S.Triple P (dummy tag) fun _ => P :=
  Spec.Triple.pure fun _ hv => hv

section Pieces

variable {sh : Shape} {c : ℕ}

theorem call_triple (hc : c < sh.calls) (tag : Msg w) :
    ((protocol sh params).spec .client).Triple (Running c false) (seL4Call tag)
      fun _ => Running (c + 1) false := by
  rintro k v ⟨hactive, rfl, hwait, hunsent⟩ hk
  refine ⟨⟨hactive, hwait, hc⟩, fun n hn => ⟨⟨hactive, rfl⟩,
    fun m _ => hk _ _ ⟨hactive, rfl, rfl, ?_⟩⟩⟩
  simpa [protocol, step, resultsSent, resultOf] using hunsent

theorem sendResult_client (t : Ccnt w) :
    ((protocol sh params).spec .client).Triple
      (fun v => Running sh.resultAt false v ∧ Stamp sh.direction .client v.hist sh.crossing t)
      (sendResult .resultEp t) fun _ => Sent sh.resultAt := by
  rintro k v ⟨⟨hactive, hcount, hwait, hunsent⟩, ht⟩ hk
  refine ⟨⟨hactive, hwait, hunsent, hcount, t, rfl, ht⟩,
    fun n _ => hk _ _ ⟨hactive, hcount, hwait, ?_⟩⟩
  simp [protocol, step, resultsSent, resultOf]

theorem sendResult_server (t : Ccnt w) :
    ((protocol sh params).spec .server).Triple
      (fun v => Running sh.total false v ∧ Stamp sh.direction .server v.hist sh.crossing t)
      (sendResult .resultEp t) fun _ => Sent sh.total := by
  rintro k v ⟨⟨hactive, hcount, hwait, hunsent⟩, ht⟩ hk
  refine ⟨⟨hactive, hwait, hunsent, hcount, t, rfl, ht⟩,
    fun n _ => hk _ _ ⟨hactive, hcount, hwait, ?_⟩⟩
  simp [protocol, step, resultsSent, resultOf]

/-- The message that the client sends after its result. -/
theorem send_triple (hc : sh.calls ≤ c) (hc' : c < sh.total) (tag : Msg w) :
    ((protocol sh params).spec .client).Triple (Sent c) (seL4Send tag) fun _ => Sent (c + 1) := by
  rintro k v ⟨hactive, rfl, hwait, hsent⟩ hk
  refine ⟨⟨hactive, hwait, hc, hc'⟩, fun n _ => hk _ _ ⟨hactive, rfl, hwait, ?_⟩⟩
  simpa [protocol, step, resultsSent, resultOf] using hsent

/-- The client blocks on `ep`: nobody sends to it. -/
theorem block_client {Q : Unit → View w → Prop} :
    ((protocol sh params).spec .client).Triple (Sent sh.total) apiRecv Q := by
  rintro k v ⟨hactive, hcount, hwait, hsent⟩ hk
  exact ⟨⟨hactive, hwait, hcount, hsent⟩, fun _ h => h.elim⟩

/-- The server blocks on `ep`: all messages have been received. -/
theorem block_server :
    ((protocol sh params).spec .server).Triple (Sent (w := w) sh.total) apiRecv
      fun _ => rest sh .server := by
  rintro k v ⟨hactive, hcount, hwait, hsent⟩ hk
  refine ⟨⟨hactive, hwait, .inr hsent⟩, fun a ha => hk _ _ (.inr ⟨?_, ?_⟩)⟩
  · have hnum : a.1 = v.count := ha
    have hcalls := sh.calls_le.trans sh.resultAt_le
    simp only [protocol, step, advance, hnum, hcount, decide_eq_false_iff_not]
    omega
  · simpa [protocol, step, resultsSent, resultOf] using hsent

/-- Receiving a message keeps what holds of longer histories. -/
theorem recv_triple (hc : c < sh.total) {F : List (Event (sig w)) → Prop}
    (hF : ∀ h ev, F h → F (h ++ [ev])) :
    ((protocol sh params).spec .server).Triple (fun v => Running c false v ∧ F v.hist) apiRecv
      fun _ v => Running (c + 1) (decide (c < sh.calls)) v ∧ F v.hist := by
  rintro k v ⟨⟨hactive, rfl, hwait, hunsent⟩, hv⟩ hk
  refine ⟨⟨hactive, hwait, .inl hc⟩, fun a ha => hk _ _ ⟨⟨hactive, rfl, ?_, ?_⟩, hF _ _ hv⟩⟩
  · have hnum : a.1 = v.count := ha
    simp [protocol, step, advance, hnum]
  · simpa [protocol, step, resultsSent, resultOf] using hunsent

theorem reply_triple (tag : Msg w) {F : List (Event (sig w)) → Prop}
    (hF : ∀ h ev, F h → F (h ++ [ev])) :
    ((protocol sh params).spec .server).Triple (fun v => Running c true v ∧ F v.hist)
      (apiReply tag) fun _ v => Running c false v ∧ F v.hist := by
  rintro k v ⟨⟨hactive, hcount, hwait, hunsent⟩, hv⟩ hk
  refine ⟨⟨hactive, hwait⟩, fun a _ => hk _ _ ⟨⟨hactive, hcount, rfl, ?_⟩, hF _ _ hv⟩⟩
  simpa [protocol, step, resultsSent, resultOf] using hunsent

end Pieces

/-! ### Helper functions -/

section Functions

variable {warmups : ℕ} (hpos : 0 < warmups) (length : ℕ)

include hpos

theorem ipcCallFunc2_triple :
    ((protocol (callShape warmups) params).spec .client).Triple (Running (w := w) 0 false)
      (ipcCallMacro warmups seL4Call dummy seL4Call .start length)
      fun _ => rest (callShape warmups) .client := by
  refine (call_triple (Nat.succ_pos _) _).bind fun _ => ?_
  refine (timed_triple hpos fun i hi => (call_round (c := i + 1) ?_ _).conseq
    (fun _ hv => hv) fun t v hv => ⟨hv.1, hv.2.1⟩).bind fun t => ?_
  · exact Nat.succ_lt_succ hi
  refine ((sendResult_client t.1).conseq (fun v hv => ⟨hv.1, ?_⟩) fun _ _ hv => hv).bind fun _ => ?_
  · have ht := hv.2
    rwa [Nat.sub_add_cancel hpos] at ht
  exact dummy_triple.bind fun _ => block_client

theorem ipcCallFunc_triple :
    ((protocol (replyRecvShape warmups) params).spec .client).Triple (Running (w := w) 0 false)
      (ipcCallMacro warmups seL4Call seL4Send dummy .stop length)
      fun _ => rest (replyRecvShape warmups) .client := by
  refine dummy_triple.bind fun _ => ?_
  refine (timed_triple hpos fun i hi => (call_round (c := i) hi _).conseq
    (fun _ hv => hv) fun t v hv => ⟨hv.1, hv.2.2⟩).bind fun t => ?_
  refine (sendResult_client t.2).bind fun _ => ?_
  exact (send_triple le_rfl (Nat.lt_succ_self _) _).bind fun _ => block_client

theorem ipcSendFunc_triple :
    ((protocol (sendShape warmups) params).spec .client).Triple (Running (w := w) 0 false)
      (ipcSendFunc warmups) fun _ => rest (sendShape warmups) .client := by
  refine (timed_triple hpos fun i hi => send_round (c := i) (Nat.zero_le _) ?_ _).bind fun t => ?_
  · exact hi.trans (Nat.lt_succ_self _)
  refine (sendResult_client t.1).bind fun _ => ?_
  refine (send_triple (Nat.zero_le _) (Nat.lt_succ_self _) _).conseq (fun _ hv => hv) ?_
  exact fun _ v hv => .inr ⟨hv.waiting, hv.count, hv.sent⟩

omit hpos in
theorem first_recv {sh : Shape} (htotal : 0 < sh.total) :
    ((protocol sh params).spec .server).Triple (Running (w := w) 0 false) apiRecv
      fun _ => Running 1 (decide (0 < sh.calls)) :=
  (recv_triple (F := fun _ => True) htotal fun _ _ h => h).conseq (fun _ hv => ⟨hv, trivial⟩)
    fun _ _ hv => hv.1

omit hpos in
/-- A round of the server loop, when the message before it was a call. -/
theorem server_round {sh : Shape} {i : ℕ} (hcalls : i < sh.calls) (htotal : i + 1 < sh.total)
    (tag : Msg w) :
    ((protocol sh params).spec .server).Triple (Running (i + 1) (decide (i < sh.calls)))
      (do
        let start ← Code.clock
        replyRecv tag
        let stop ← Code.clock
        return (start, stop))
      fun t v => Running (i + 1 + 1) (decide (i + 1 < sh.calls)) v ∧
        RepliedAt v.hist i t.1 ∧ ReceivedAt v.hist (i + 1) t.2 := by
  rw [decide_eq_true hcalls]
  exact replyRecv_round htotal tag

theorem ipcReplyRecvFunc2_triple :
    ((protocol (callShape warmups) params).spec .server).Triple (Running (w := w) 0 false)
      (ipcReplyRecvMacro warmups replyRecv apiReply apiRecv .stop length)
      fun _ => rest (callShape warmups) .server := by
  refine (first_recv (Nat.succ_pos _)).bind fun _ => ?_
  refine (timed_triple hpos fun i hi => server_round (i := i) ?_ ?_ _).bind fun t => ?_
  · exact hi.trans (Nat.lt_succ_self _)
  · exact Nat.succ_lt_succ hi
  refine ((reply_triple (c := warmups + 1) (F := fun h => ReceivedAt h warmups t.2) _
    fun _ ev h => Stamp.append (d := .to) (p := .server) h ev).conseq (fun v hv => ⟨?_, ?_⟩)
    fun _ _ hv => hv).bind fun _ => ?_
  · simpa [callShape] using hv.1
  · have ht := hv.2.2
    rwa [Nat.sub_add_cancel hpos] at ht
  exact (sendResult_server t.2).bind fun _ => block_server

theorem ipcReplyRecvFunc_triple :
    ((protocol (replyRecvShape warmups) params).spec .server).Triple (Running (w := w) 0 false)
      (ipcReplyRecvMacro warmups replyRecv dummy apiRecv .start length)
      fun _ => rest (replyRecvShape warmups) .server := by
  refine (first_recv (Nat.succ_pos _)).bind fun _ => ?_
  refine (timed_triple hpos fun i hi => server_round (i := i) hi (Nat.succ_lt_succ hi) _).bind
    fun t => dummy_triple.bind fun _ => ?_
  refine ((sendResult_server t.1).conseq (fun v hv => ⟨?_, hv.2.1⟩) fun _ _ hv => hv).bind
    fun _ => block_server
  simpa [replyRecvShape] using hv.1

theorem ipcRecvFunc_triple :
    ((protocol (sendShape warmups) params).spec .server).Triple (Running (w := w) 0 false)
      (ipcRecvFunc warmups) fun _ => rest (sendShape warmups) .server := by
  refine (timed_triple hpos fun i hi => recv_round (c := i) ?_ rfl).bind fun t => ?_
  · exact hi.trans (Nat.lt_succ_self _)
  refine (recv_triple (F := fun h => ReceivedAt h (warmups - 1) t.2) (Nat.lt_succ_self _)
    fun _ ev h => Stamp.append (d := .to) (p := .server) h ev).bind fun _ => ?_
  refine (sendResult_server t.2).conseq (fun v hv => hv) fun _ v hv => ?_
  exact .inr ⟨hv.waiting, hv.sent⟩

end Functions

/-! ### Bounds of the helper functions -/

section Bounds

variable {B : Budget (sig w)} {n₁ n₂ n₃ : ℕ}

theorem bounded_seL4Call (tag : Msg w) : Bounded (σ := sig w) B 2 (seL4Call tag) :=
  (Bounded.call _ _).bind fun _ => .pure _

theorem bounded_seL4Send (tag : Msg w) : Bounded (σ := sig w) B 1 (seL4Send tag) := .send _ _

theorem bounded_apiReply (tag : Msg w) : Bounded (σ := sig w) B 1 (apiReply tag) := .reply _

theorem bounded_apiRecv : Bounded (σ := sig w) B 1 apiRecv :=
  (Bounded.recv _).bind fun _ => .pure _

theorem bounded_replyRecv (tag : Msg w) : Bounded (σ := sig w) B 2 (replyRecv tag) :=
  (Bounded.replyRecv _ _).bind fun _ => .pure _

theorem bounded_dummy (tag : Msg w) : Bounded (σ := sig w) B 0 (dummy tag) := .pure _

theorem bounded_timed (warmups : ℕ) {op : Code (sig w) Unit} (hop : Bounded B n₁ op) :
    Bounded B (warmups * (1 + (n₁ + (1 + 0)))) (timed warmups op) :=
  .loop fun _ _ => Bounded.clock.bind fun _ => hop.bind fun _ => Bounded.clock.bind fun _ => .pure _

theorem bounded_ipcCallMacro (warmups : ℕ) {benchFunc sendFunc callFunc : Msg w → Code (sig w) Unit}
    (h₁ : ∀ t, Bounded B n₁ (benchFunc t)) (h₂ : ∀ t, Bounded B n₂ (sendFunc t))
    (h₃ : ∀ t, Bounded B n₃ (callFunc t)) (v : StartEnd) (length : ℕ) :
    Bounded B (n₃ + (warmups * (1 + (n₁ + (1 + 0))) + (1 + (n₂ + 1))))
      (ipcCallMacro warmups benchFunc sendFunc callFunc v length) :=
  (h₃ _).bind fun _ => (bounded_timed warmups (h₁ _)).bind fun _ => (Bounded.send _ _).bind fun _ =>
    (h₂ _).bind fun _ => bounded_apiRecv

theorem bounded_ipcReplyRecvMacro (warmups : ℕ) {benchFunc replyFunc : Msg w → Code (sig w) Unit}
    (h₁ : ∀ t, Bounded B n₁ (benchFunc t)) (h₂ : ∀ t, Bounded B n₂ (replyFunc t))
    (v : StartEnd) (length : ℕ) :
    Bounded B (1 + (warmups * (1 + (n₁ + (1 + 0))) + (n₂ + (1 + 1))))
      (ipcReplyRecvMacro warmups benchFunc replyFunc apiRecv v length) :=
  bounded_apiRecv.bind fun _ => (bounded_timed warmups (h₁ _)).bind fun _ => (h₂ _).bind fun _ =>
    (Bounded.send _ _).bind fun _ => bounded_apiRecv

/-- The helper functions take a bounded number of steps. -/
theorem exists_bounded_benchFuncs (w warmups : ℕ) (f : HelperFunc) :
    ∃ n, ∀ B : Budget (sig w), Bounded B n (benchFuncs warmups f) := by
  cases f with
  | callFunc | call10Func =>
    exact ⟨_, fun B => bounded_ipcCallMacro warmups bounded_seL4Call bounded_seL4Send bounded_dummy
      _ _⟩
  | callFunc2 | call10Func2 =>
    exact ⟨_, fun B => bounded_ipcCallMacro warmups bounded_seL4Call bounded_dummy bounded_seL4Call
      _ _⟩
  | replyRecvFunc2 | replyRecv10Func2 =>
    exact ⟨_, fun B => bounded_ipcReplyRecvMacro warmups bounded_replyRecv bounded_apiReply _ _⟩
  | replyRecvFunc | replyRecv10Func =>
    exact ⟨_, fun B => bounded_ipcReplyRecvMacro warmups bounded_replyRecv bounded_dummy _ _⟩
  | sendFunc =>
    exact ⟨_, fun B => (bounded_timed warmups (Bounded.send _ _)).bind fun _ =>
      (Bounded.send _ _).bind fun _ => Bounded.send _ _⟩
  | recvFunc =>
    exact ⟨_, fun B => (bounded_timed warmups bounded_apiRecv).bind fun _ =>
      bounded_apiRecv.bind fun _ => Bounded.send _ _⟩

theorem bounded_getResult (e : Endpoint) : Bounded (σ := sig w) B 1 (getResult e) := by
  refine Bounded.bind (n := 0) (Bounded.recv (σ := sig w) e) fun m => ?_
  cases m with
  | tag length => exact .pure _
  | result t => exact .pure _

theorem bounded_runBench (params : BenchmarkParams) :
    Bounded (σ := sig w) B
      (B.label params.serverFn + 1 + (B.label params.clientFn + 1 + (1 + (1 + (1 + (1 + 0))))))
      (runBench params) :=
  (Bounded.start _ _).bind fun _ => (Bounded.start _ _).bind fun _ =>
    (bounded_getResult _).bind fun _ => (bounded_getResult _).bind fun _ =>
      (Bounded.suspend _).bind fun _ => (Bounded.suspend _).bind fun _ =>
        .pure _

end Bounds

/-! ### The benchmark -/

/-- The shape of a benchmark. -/
def shape (warmups : ℕ) (params : BenchmarkParams) : Shape :=
  match params.clientFn with
  | .callFunc2 | .call10Func2 => callShape warmups
  | .callFunc | .call10Func => replyRecvShape warmups
  | _ => sendShape warmups

/-- The pairs of helper functions in the table. -/
theorem benchmarkParams_pairs : ∀ params ∈ benchmarkParams,
    (params.clientFn, params.serverFn, params.direction) ∈
      [(HelperFunc.callFunc2, HelperFunc.replyRecvFunc2, Dir.to),
        (.callFunc, .replyRecvFunc, .from), (.sendFunc, .recvFunc, .to),
        (.call10Func2, .replyRecv10Func2, .to), (.call10Func, .replyRecv10Func, .from)] := by
  decide

section Benchmark

variable {warmups : ℕ} (hpos : 0 < warmups) (hparams : params ∈ benchmarkParams)

include hparams

theorem shape_direction : (shape warmups params).direction = params.direction := by
  have hpair := benchmarkParams_pairs params hparams
  simp only [List.mem_cons, Prod.mk.injEq, List.not_mem_nil, or_false] at hpair
  rcases hpair with ⟨hc, -, hd⟩ | ⟨hc, -, hd⟩ | ⟨hc, -, hd⟩ | ⟨hc, -, hd⟩ | ⟨hc, -, hd⟩ <;>
    rw [shape, hc, hd] <;> rfl

include hpos

/-- The helper functions of a benchmark follow its protocol. -/
theorem helper_safe (p : Party) (f : HelperFunc) (v : View w) (hv : atEntry params p f v) :
    ((protocol (shape warmups params) params).spec p).Safe (code w warmups f) v := by
  obtain ⟨hactive, hcount, hwait, hunsent, hf⟩ := hv
  have hrun : Running 0 false v := ⟨hactive, hcount, hwait, hunsent⟩
  have hpair := benchmarkParams_pairs params hparams
  simp only [List.mem_cons, Prod.mk.injEq, List.not_mem_nil, or_false] at hpair
  rcases hpair with ⟨hc, hs, -⟩ | ⟨hc, hs, -⟩ | ⟨hc, hs, -⟩ | ⟨hc, hs, -⟩ | ⟨hc, hs, -⟩ <;>
    rcases hf with ⟨rfl, rfl⟩ | ⟨rfl, rfl⟩ <;> simp only [shape, hc, hs]
  · exact (ipcCallFunc2_triple hpos 0).safe_run hrun
  · exact (ipcReplyRecvFunc2_triple hpos 0).safe_run hrun
  · exact (ipcCallFunc_triple hpos 0).safe_run hrun
  · exact (ipcReplyRecvFunc_triple hpos 0).safe_run hrun
  · exact (ipcSendFunc_triple hpos).safe_run hrun
  · exact (ipcRecvFunc_triple hpos).safe_run hrun
  · exact (ipcCallFunc2_triple hpos 10).safe_run hrun
  · exact (ipcReplyRecvFunc2_triple hpos 10).safe_run hrun
  · exact (ipcCallFunc_triple hpos 10).safe_run hrun
  · exact (ipcReplyRecvFunc_triple hpos 10).safe_run hrun

end Benchmark

theorem inv_init (sh : Shape) (params : BenchmarkParams) :
    (protocol sh params).Inv (init w params) where
  safe p := by
    cases p with
    | client | server => exact .inl rfl
    | driver =>
      refine ⟨⟨rfl, rfl⟩, fun _ _ => ⟨⟨rfl, rfl⟩, fun _ _ => ⟨.inl rfl, fun a _ => ?_⟩⟩⟩
      obtain ⟨n, _ | t⟩ := a
      all_goals
        refine ⟨.inr rfl, fun b _ => ?_⟩
        obtain ⟨n', _ | t'⟩ := b
        all_goals exact ⟨rfl, fun _ _ => ⟨rfl, fun _ _ => rfl⟩⟩
  own p := by
    refine ⟨nofun, ?_, fun _ => .inl rfl, fun _ h => absurd rfl h, fun _ h => absurd rfl h⟩
    cases p with
    | client | driver => rfl
    | server =>
      change [] = List.range (min 0 sh.calls - 0)
      rw [Nat.zero_min, List.range_zero]
  rel := by
    refine ⟨rfl, rfl, rfl, rfl, .refl _, fun _ => ⟨rfl, rfl, rfl, rfl, rfl⟩, ?_, ?_, ?_⟩
    · exact fun (h : 1 ≤ 0) => absurd h (by decide)
    all_goals exact fun (h : 2 ≤ 0) => absurd h (by decide)

section Main

variable {warmups : ℕ} (hpos : 0 < warmups) (hparams : params ∈ benchmarkParams)
  {s : State (sig w)} (hreach : Reach (code w warmups) (init w params) s)

include hpos hparams hreach

theorem inv_of_reach : (protocol (shape warmups params) params).Inv s :=
  Protocol.inv_of_run (sound (helper_safe hpos hparams)) (inv_init _ _) hreach

/-- Before both results are delivered some step is possible. -/
theorem canStep_of_reach (hlt : (delivered (s.hist .driver)).length < 2) :
    CanStep (code w warmups) s := by
  refine progress (inv_of_reach hpos hparams hreach) ?_
  rwa [records_hist.view]

/-- Every run can be continued until both results are delivered. -/
theorem exists_reach_delivered :
    ∃ s', Reach (code w warmups) s s' ∧ 2 ≤ (delivered (s'.hist .driver)).length := by
  choose bound hbound using exists_bounded_benchFuncs w warmups
  let B : Budget (sig w) := { label := fun f => bound f + 1 }
  have hcode : ∀ f, ∃ m < B.label f, Within B m (code w warmups f) := fun f =>
    ⟨bound f, Nat.lt_succ_self _, (hbound f B).within_run⟩
  have hdriver : ∃ n, Within B n ((init w params).thread .driver) :=
    ⟨_, bounded_runBench params 0 _ fun _ => .halt 0⟩
  obtain ⟨n, hn⟩ := hdriver
  let b : Party → ℕ := fun p => if p = .driver then n else 0
  refine exists_reach_of_within hcode (b := b) (fun p => ?_)
    (fun s hs hgoal => canStep_of_reach hpos hparams hs (not_le.mp hgoal)) hreach
  cases p with
  | driver => exact hn
  | client | server => exact .halt 0

/-- No call is replied to twice. -/
theorem nodup_repliedCalls :
    (repliedCalls (s.hist .client) ++ repliedCalls (s.hist .server) ++
      repliedCalls (s.hist .driver)).Nodup := by
  have hinv := inv_of_reach hpos hparams hreach
  have hreplied : ∀ p, repliedCalls (s.hist p) = _ := fun p =>
    records_hist.view s.log p ▸ (hinv.own p).replied
  have hclient : repliedCalls (s.hist .client) = [] := hreplied .client
  have hdriver : repliedCalls (s.hist .driver) = [] := hreplied .driver
  rw [hclient, hdriver, List.nil_append, List.append_nil]
  exact (hreplied .server).symm ▸ List.nodup_range

/-- A helper has sent no result, or one that is the timestamp of the crossing. -/
theorem resultsSent_eq {p : Party} (hp : p ≠ .driver) : resultsSent (s.hist p) = [] ∨
    ∃ t, resultsSent (s.hist p) = [.result t] ∧
      Stamp params.direction p (s.hist p) (shape warmups params).crossing t := by
  have hresults := ((inv_of_reach hpos hparams hreach).own p).results hp
  rwa [records_hist.view, shape_direction hparams] at hresults

theorem resultsSent_length_le {p : Party} (hp : p ≠ .driver) :
    (resultsSent (s.hist p)).length ≤ 1 := by
  obtain hnone | ⟨t, hsent, -⟩ := resultsSent_eq hpos hparams hreach hp
  · exact hnone ▸ Nat.zero_le 1
  · exact hsent ▸ le_rfl

/-- The driver has received results that the helpers have sent. -/
theorem delivered_perm : (delivered (s.hist .driver)).Perm
    (resultsSent (s.hist .client) ++ resultsSent (s.hist .server)) := by
  have hdelivered := (inv_of_reach hpos hparams hreach).rel.delivered
  rwa [records_hist.view, records_hist.view, records_hist.view] at hdelivered

theorem delivered_length_le : (delivered (s.hist .driver)).length ≤ 2 := by
  have hperm := (delivered_perm hpos hparams hreach).length_eq
  rw [List.length_append] at hperm
  have hclient := resultsSent_length_le hpos hparams hreach (p := .client) nofun
  have hserver := resultsSent_length_le hpos hparams hreach (p := .server) nofun
  omega

end Main

/-- **Timestamp pairing of the IPC benchmark.** For every benchmark of the table and every
interleaving of client, server and driver: until both results are delivered some step is
possible, and they can be delivered; no call is replied to twice; every helper sends at most one
result, and exactly one when both are delivered; and then the two results are the timestamps
immediately before and after the same message, from client to server for the direction `to` and
the reply of the server for the direction `from`. -/
theorem timestamp_pairing {params : BenchmarkParams} (hparams : params ∈ benchmarkParams)
    {warmups : ℕ} (hpos : 1 ≤ warmups) {s : State (sig w)}
    (hreach : Reach (code w warmups) (init w params) s) :
    ((delivered (s.hist .driver)).length < 2 → CanStep (code w warmups) s) ∧
      (∃ s', Reach (code w warmups) s s' ∧ (delivered (s'.hist .driver)).length = 2) ∧
      (repliedCalls (s.hist .client) ++ repliedCalls (s.hist .server) ++
        repliedCalls (s.hist .driver)).Nodup ∧
      (resultsSent (s.hist .client)).length ≤ 1 ∧ (resultsSent (s.hist .server)).length ≤ 1 ∧
      ((delivered (s.hist .driver)).length = 2 → ∃ n tc ts,
        resultsSent (s.hist .client) = [.result tc] ∧
        resultsSent (s.hist .server) = [.result ts] ∧
        (delivered (s.hist .driver)).Perm [.result tc, .result ts] ∧
        Stamp params.direction .client (s.hist .client) n tc ∧
        Stamp params.direction .server (s.hist .server) n ts) := by
  obtain ⟨s', hs', hgoal⟩ := exists_reach_delivered hpos hparams hreach
  have hle := delivered_length_le hpos hparams (Relation.ReflTransGen.trans hreach hs')
  have hclient_le := resultsSent_length_le hpos hparams hreach (p := .client) nofun
  have hserver_le := resultsSent_length_le hpos hparams hreach (p := .server) nofun
  have hperm := delivered_perm hpos hparams hreach
  refine ⟨canStep_of_reach hpos hparams hreach, ⟨s', hs', le_antisymm hle hgoal⟩,
    nodup_repliedCalls hpos hparams hreach, hclient_le, hserver_le, fun htwo => ?_⟩
  have hlength := hperm.length_eq
  rw [htwo, List.length_append] at hlength
  obtain hnone | ⟨tc, hclient, hstampc⟩ :=
    resultsSent_eq hpos hparams hreach (p := .client) nofun
  · rw [hnone, List.length_nil] at hlength
    omega
  obtain hnone | ⟨ts, hserver, hstamps⟩ :=
    resultsSent_eq hpos hparams hreach (p := .server) nofun
  · rw [hnone, List.length_nil] at hlength
    omega
  rw [hclient, hserver] at hperm
  exact ⟨_, tc, ts, hclient, hserver, hperm, hstampc, hstamps⟩

/-- The first benchmark of the table, on a 64-bit platform with one warm-up: it has a run that
delivers both results, and it ends as stated. -/
theorem timestamp_pairing_first : ∃ s', Reach (code 64 1) (init 64 benchmarkParams[0]) s' ∧
    ∃ n tc ts, (delivered (s'.hist .driver)).Perm [.result tc, .result ts] ∧
      Stamp .to .client (s'.hist .client) n tc ∧ Stamp .to .server (s'.hist .server) n ts := by
  have hparams : benchmarkParams[0] ∈ benchmarkParams := List.getElem_mem _
  obtain ⟨-, ⟨s', hs', htwo⟩, -⟩ := timestamp_pairing (w := 64) hparams le_rfl .refl
  obtain ⟨-, -, -, -, -, hpair⟩ := timestamp_pairing hparams le_rfl hs'
  obtain ⟨n, tc, ts, -, -, hperm, hclient, hserver⟩ := hpair htwo
  exact ⟨s', hs', n, tc, ts, hperm, hclient, hserver⟩

end Sel4bench.Ipc
