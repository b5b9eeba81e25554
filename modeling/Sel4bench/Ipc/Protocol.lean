import Sel4bench.Ipc.Helpers
import Sel4bench.Lib.Protocol
import Sel4bench.Lib.Trace

/-!
# The protocol of the IPC helpers

What a client and a server do on `ep`, by the shape of the pair (`Sel4bench.Ipc.Shape`): the client
sends a number of messages, the first of them as calls; the server receives each of them and
replies to the calls; each sends one result, which is the timestamp of its side of the message of
number `crossing`. The parties agree on the number of messages and on whether a call is pending
(`Sel4bench.Ipc.Rel`), in every interleaving.

## Main definitions

* `Sel4bench.Ipc.SentAt`, `Sel4bench.Ipc.ReceivedAt`, `Sel4bench.Ipc.RepliedAt`,
  `Sel4bench.Ipc.ReturnedAt`, `Sel4bench.Ipc.Stamp` — what a timestamp delimits.
* `Sel4bench.Ipc.Own`, `Sel4bench.Ipc.Rel`, `Sel4bench.Ipc.protocol`.

## Main results

* `Sel4bench.Ipc.sound` — helpers that follow the protocol keep it.
* `Sel4bench.Ipc.progress` — no state before the two results is stuck.
-/

namespace Sel4bench.Ipc

open Machine Trace

variable {w : ℕ}

/-! ### Histories -/

/-- The number of the call that the event replies to. -/
def replyOf : Event (sig w) → Option ℕ
  | .did (.reply _) a => a.map Prod.snd
  | _ => none

/-- The result that is sent in the event. -/
def resultOf : Event (sig w) → Option (Msg w)
  | .did (.send .resultEp m) _ => some m
  | _ => none

/-- The result that is received in the event. -/
def deliveryOf : Event (sig w) → Option (Msg w)
  | .did (.recv .resultEp) a => some a.2
  | _ => none

/-- The numbers of the calls that have been replied to. -/
def repliedCalls (h : List (Event (sig w))) : List ℕ := h.filterMap replyOf

/-- The results that have been sent. -/
def resultsSent (h : List (Event (sig w))) : List (Msg w) := h.filterMap resultOf

/-- The results that have been received. -/
def delivered (h : List (Event (sig w))) : List (Msg w) := h.filterMap deliveryOf

theorem repliedCalls_append (h : List (Event (sig w))) (ev : Event (sig w)) :
    repliedCalls (h ++ [ev]) = repliedCalls h ++ (replyOf ev).toList :=
  filterMap_concat replyOf h ev

theorem resultsSent_append (h : List (Event (sig w))) (ev : Event (sig w)) :
    resultsSent (h ++ [ev]) = resultsSent h ++ (resultOf ev).toList :=
  filterMap_concat resultOf h ev

theorem delivered_append (h : List (Event (sig w))) (ev : Event (sig w)) :
    delivered (h ++ [ev]) = delivered h ++ (deliveryOf ev).toList :=
  filterMap_concat deliveryOf h ev

/-- The client has read `t` immediately before it sent the message of number `n`. -/
def SentAt (h : List (Event (sig w))) (n : ℕ) (t : Ccnt w) : Prop :=
  ∃ m, [.did .clock t, .did (.sendCall .ep m) n] <:+: h ∨
    [.did .clock t, .did (.send .ep m) n] <:+: h

/-- The server has read `t` immediately after it received the message of number `n`. -/
def ReceivedAt (h : List (Event (sig w))) (n : ℕ) (t : Ccnt w) : Prop :=
  ∃ m, [.did (.recv .ep) (n, m), .did .clock t] <:+: h

/-- The server has read `t` immediately before it replied to the call of number `n`. -/
def RepliedAt (h : List (Event (sig w))) (n : ℕ) (t : Ccnt w) : Prop :=
  ∃ m, [.did .clock t, .did (.reply m) (some (.ep, n))] <:+: h

/-- The client has read `t` immediately after the reply to its call of number `n`. -/
def ReturnedAt (h : List (Event (sig w))) (n : ℕ) (t : Ccnt w) : Prop :=
  ∃ m m', [.did (.sendCall .ep m) n, .did .awaitReply m', .did .clock t] <:+: h

/-- The timestamp of a helper for the message or the reply of number `n`. -/
def Stamp : Dir → Party → List (Event (sig w)) → ℕ → Ccnt w → Prop
  | .to, .client => SentAt
  | .to, .server => ReceivedAt
  | .from, .client => ReturnedAt
  | .from, .server => RepliedAt
  | _, .driver => fun _ _ _ => False

/-! ### The protocol -/

/-- How a pair of helpers uses `ep`: the client sends `total` messages, the first `calls` of them
as calls; it sends its result after `resultAt` messages; and the timestamps are those of the
message or the reply of number `crossing`. -/
structure Shape where
  total : ℕ
  calls : ℕ
  resultAt : ℕ
  crossing : ℕ
  direction : Dir
  calls_le : calls ≤ resultAt
  resultAt_le : resultAt ≤ total

/-- How far a party is. -/
structure Progress where
  active : Bool := false
  /-- The messages on `ep` that it has sent or received. -/
  count : ℕ := 0
  /-- It has made a call that it has no reply to, or received one that it has not replied to. -/
  waiting : Bool := false
  /-- The number of steps of the driver. -/
  stage : ℕ := 0

/-- What a party knows: its history and how far it is. -/
structure View (w : ℕ) extends Progress where
  hist : List (Event (sig w)) := []

/-- The progress by an event. -/
def advance (sh : Shape) (p : Party) (v : Progress) (ev : Event (sig w)) : Progress :=
  match p, ev with
  | .driver, _ => { v with stage := v.stage + 1 }
  | _, .did (.send .ep _) _ => { v with count := v.count + 1 }
  | _, .did (.sendCall .ep _) _ => { v with count := v.count + 1, waiting := true }
  | _, .did .awaitReply _ => { v with waiting := false }
  | _, .did (.recv .ep) a => { v with count := v.count + 1, waiting := decide (a.1 < sh.calls) }
  | _, .did (.reply _) _ => { v with waiting := false }
  | _, .started _ => { v with active := true }
  | _, .stopped => { v with active := false }
  | _, _ => v

/-- The view after an event. -/
def step (sh : Shape) (p : Party) (v : View w) (ev : Event (sig w)) : View w where
  toProgress := advance sh p v.toProgress ev
  hist := v.hist ++ [ev]

/-- The requests that a party may make. -/
def guar (sh : Shape) (params : BenchmarkParams) : Party → View w → Req (sig w) → Prop
  | .client, v, .clock => v.active ∧ v.waiting = false
  | .client, v, .sendCall .ep _ => v.active ∧ v.waiting = false ∧ v.count < sh.calls
  | .client, v, .send .ep _ =>
    v.active ∧ v.waiting = false ∧ sh.calls ≤ v.count ∧ v.count < sh.total
  | .client, v, .send .resultEp m => v.active ∧ v.waiting = false ∧ resultsSent v.hist = [] ∧
    v.count = sh.resultAt ∧ ∃ t, m = .result t ∧ Stamp sh.direction .client v.hist sh.crossing t
  | .client, v, .awaitReply => v.active ∧ v.waiting
  | .client, v, .recv .ep =>
    v.active ∧ v.waiting = false ∧ v.count = sh.total ∧ resultsSent v.hist ≠ []
  | .server, v, .clock => v.active
  | .server, v, .recv .ep =>
    v.active ∧ v.waiting = false ∧ (v.count < sh.total ∨ resultsSent v.hist ≠ [])
  | .server, v, .reply _ => v.active ∧ v.waiting
  | .server, v, .send .resultEp m => v.active ∧ v.waiting = false ∧ resultsSent v.hist = [] ∧
    v.count = sh.total ∧ ∃ t, m = .result t ∧ Stamp sh.direction .server v.hist sh.crossing t
  | .driver, v, .start .server f => v.stage = 0 ∧ f = params.serverFn
  | .driver, v, .start .client f => v.stage = 1 ∧ f = params.clientFn
  | .driver, v, .recv .resultEp => v.stage = 2 ∨ v.stage = 3
  | .driver, v, .suspend .client => v.stage = 4
  | .driver, v, .suspend .server => v.stage = 5
  | _, _, _ => False

/-- The answers that a party counts on. -/
def rely : Party → View w → (r : Req (sig w)) → r.Resp → Prop
  | .client, v, .sendCall .ep _, n => n = v.count
  | .client, v, .send .ep _, n => n = v.count
  | .client, _, .recv .ep, _ => False
  | .server, v, .recv .ep, a => a.1 = v.count
  | .server, v, .reply _, a => a = some (.ep, v.count - 1)
  | _, _, _, _ => True

/-- The views in which a party may be at rest. -/
def rest (sh : Shape) : Party → View w → Prop
  | .client, v =>
    v.active = false ∨ v.waiting = false ∧ v.count = sh.total ∧ resultsSent v.hist ≠ []
  | .server, v => v.active = false ∨ v.waiting = false ∧ resultsSent v.hist ≠ []
  | .driver, v => v.stage = 6

/-- The view at the entry of a helper function. -/
def atEntry (params : BenchmarkParams) (p : Party) (f : HelperFunc) (v : View w) : Prop :=
  v.active ∧ v.count = 0 ∧ v.waiting = false ∧ resultsSent v.hist = [] ∧
    (p = .client ∧ f = params.clientFn ∨ p = .server ∧ f = params.serverFn)

/-- What holds of the view of a party by itself. -/
structure Own (sh : Shape) (p : Party) (v : View w) : Prop where
  pos : v.waiting = true → 0 < v.count ∧ v.count ≤ sh.calls
  replied : repliedCalls v.hist = if p = .server then
    List.range (min v.count sh.calls - if v.waiting then 1 else 0) else []
  results : p ≠ .driver → resultsSent v.hist = [] ∨
    ∃ t, resultsSent v.hist = [.result t] ∧ Stamp sh.direction p v.hist sh.crossing t
  calls_done : p = .client → resultsSent v.hist ≠ [] → v.waiting = false ∧ sh.calls ≤ v.count
  all_received : p = .server → resultsSent v.hist ≠ [] → sh.total ≤ v.count

/-- How the views of the parties are related. -/
structure Rel (κ : Kernel (sig w)) (g : Party → View w) : Prop where
  count : (g .server).count = (g .client).count
  msgs : κ.msgs .ep = (g .client).count
  waiting : (g .server).waiting = (g .client).waiting
  caller : κ.caller .server =
    if (g .client).waiting then some (.client, .ep, (g .client).count - 1) else none
  delivered : (delivered (g .driver).hist).Perm
    (resultsSent (g .client).hist ++ resultsSent (g .server).hist)
  fresh : (g .driver).stage ≤ 1 → (g .client).active = false ∧ (g .client).count = 0 ∧
    (g .client).waiting = false ∧ resultsSent (g .client).hist = [] ∧
      resultsSent (g .server).hist = []
  server_active : 1 ≤ (g .driver).stage → (g .driver).stage ≤ 4 → (g .server).active
  client_active : 2 ≤ (g .driver).stage → (g .driver).stage ≤ 4 → (g .client).active
  results : 2 ≤ (g .driver).stage →
    min (g .driver).stage 4 = 2 + (Ipc.delivered (g .driver).hist).length

/-- The protocol of a pair of helpers. -/
def protocol (sh : Shape) (params : BenchmarkParams) : Protocol (sig w) (View w) where
  spec p :=
    { init := {}
      step := step sh p
      guar := guar sh params p
      rely := rely p
      rest := rest sh p
      atLabel := atEntry params p }
  own := Own sh
  rel := Rel

theorem records_hist {sh : Shape} {params : BenchmarkParams} :
    (protocol (w := w) sh params).Records View.hist where
  init _ := rfl
  step _ _ _ := rfl

/-! ### The protocol is kept -/

/-- A timestamp stays in the history. -/
theorem Stamp.append {d : Dir} {p : Party} {h : List (Event (sig w))} {n : ℕ} {t : Ccnt w}
    (hs : Stamp d p h n t) (ev : Event (sig w)) : Stamp d p (h ++ [ev]) n t := by
  cases d <;> cases p <;> try exact hs.elim
  · obtain ⟨m, hm | hm⟩ := hs
    · exact ⟨m, .inl (List.infix_append_of_infix_left hm)⟩
    · exact ⟨m, .inr (List.infix_append_of_infix_left hm)⟩
  · obtain ⟨m, hm⟩ := hs
    exact ⟨m, List.infix_append_of_infix_left hm⟩
  · obtain ⟨m, m', hm⟩ := hs
    exact ⟨m, m', List.infix_append_of_infix_left hm⟩
  · obtain ⟨m, hm⟩ := hs
    exact ⟨m, List.infix_append_of_infix_left hm⟩

section Own

variable {sh : Shape} {params : BenchmarkParams} {p : Party} {v : View w} {r : Req (sig w)}
  {a : r.Resp}

theorem count_le_advance (sh : Shape) (p : Party) (v : Progress) (ev : Event (sig w)) :
    v.count ≤ (advance sh p v ev).count := by
  unfold advance
  split <;> first | exact Nat.le_refl _ | exact Nat.le_succ _

/-- An event that is neither a reply nor a result. -/
theorem Own.quiet (h : Own sh p v) {ev : Event (sig w)} (hreply : replyOf ev = none)
    (hresult : resultOf ev = none)
    (hpos : (advance sh p v.toProgress ev).waiting = true →
      0 < (advance sh p v.toProgress ev).count ∧
        (advance sh p v.toProgress ev).count ≤ sh.calls)
    (hserver : p = .server →
      min (advance sh p v.toProgress ev).count sh.calls -
          (if (advance sh p v.toProgress ev).waiting then 1 else 0) =
        min v.count sh.calls - if v.waiting then 1 else 0)
    (hclient : p = .client → resultsSent v.hist ≠ [] →
      (advance sh p v.toProgress ev).waiting = false) :
    Own sh p (step sh p v ev) := by
  have hsame : resultsSent (Ipc.step sh p v ev).hist = resultsSent v.hist := by
    rw [Ipc.step, resultsSent_append, hresult, Option.toList_none, List.append_nil]
  have hmono := count_le_advance sh p v.toProgress ev
  refine ⟨hpos, ?_, fun hp => ?_, fun hp hsent => ?_, fun hp hsent => ?_⟩
  · rw [Ipc.step, repliedCalls_append, hreply, Option.toList_none, List.append_nil, h.replied]
    by_cases hp : p = .server
    · rw [if_pos hp, if_pos hp, hserver hp]
    · rw [if_neg hp, if_neg hp]
  · rw [hsame]
    obtain hnone | ⟨t, hsent, hstamp⟩ := h.results hp
    · exact .inl hnone
    · exact .inr ⟨t, hsent, hstamp.append _⟩
  · rw [hsame] at hsent
    exact ⟨hclient hp hsent, (h.calls_done hp hsent).2.trans hmono⟩
  · rw [hsame] at hsent
    exact (h.all_received hp hsent).trans hmono

theorem Own.result (h : Own sh p v) (hp : p ≠ .driver) (hnone : resultsSent v.hist = [])
    {t : Ccnt w} {n : ℕ}
    (ht : Stamp sh.direction p v.hist sh.crossing t)
    (hclient : p = .client → v.waiting = false ∧ v.count = sh.resultAt)
    (hserver : p = .server → v.count = sh.total) :
    Own sh p (step sh p v (.did (.send .resultEp (.result t)) n)) := by
  have hadvance : advance sh p v.toProgress (.did (.send .resultEp (.result t)) n) =
      v.toProgress := by
    cases p <;> first | exact absurd rfl hp | rfl
  refine ⟨?_, ?_, fun _ => .inr ⟨t, ?_, ht.append _⟩, fun hp _ => ?_, fun hp _ => ?_⟩
  · simpa [Ipc.step, hadvance] using h.pos
  · simpa [Ipc.step, hadvance, repliedCalls_append, replyOf] using h.replied
  · simp [Ipc.step, resultsSent_append, resultOf, hnone]
  · have hcalls := sh.calls_le
    obtain ⟨hwait, hcount⟩ := hclient hp
    rw [Ipc.step, hadvance]
    exact ⟨hwait, hcount ▸ hcalls⟩
  · rw [Ipc.step, hadvance]
    exact (hserver hp).ge

/-- The reply to the call that the server has received last. -/
theorem Own.reply (h : Own sh .server v) (hwait : v.waiting = true) {m : Msg w}
    {c : Option (Endpoint × ℕ)} (hc : c = some (.ep, v.count - 1)) :
    Own sh .server (Ipc.step sh .server v (.did (.reply m) c)) := by
  obtain ⟨hpos, hle⟩ := h.pos hwait
  refine ⟨nofun, ?_, fun hp => ?_, nofun, fun hp hsent => h.all_received hp ?_⟩
  · have hrange : List.range (min v.count sh.calls) =
        List.range (v.count - 1) ++ [v.count - 1] := by
      rw [Nat.min_eq_left hle, ← List.range_succ, Nat.succ_eq_add_one, Nat.sub_add_cancel hpos]
    have hreplied := h.replied
    simp only [hwait, Nat.min_eq_left hle, if_true] at hreplied
    simp only [Ipc.step, repliedCalls_append, hreplied, replyOf, hc, advance, if_true, hrange,
      Bool.false_eq_true, if_false, Nat.sub_zero]
    rfl
  · obtain hnone | ⟨t, hsent, hstamp⟩ := h.results hp
    · exact .inl (by simpa [Ipc.step, resultsSent_append, resultOf] using hnone)
    · exact .inr ⟨t, by simpa [Ipc.step, resultsSent_append, resultOf] using hsent,
        hstamp.append _⟩
  · simpa [Ipc.step, resultsSent_append, resultOf] using hsent

theorem Own.step (h : Own sh p v) (hguar : guar sh params p v r) (hrely : rely p v r a) :
    Own sh p (step sh p v (.did r a)) := by
  cases p with
  | client =>
    cases r with
    | clock => exact h.quiet rfl rfl h.pos nofun fun hp hsent => (h.calls_done hp hsent).1
    | awaitReply => exact h.quiet rfl rfl nofun nofun fun _ _ => rfl
    | sendCall e m =>
      cases e with
      | ep =>
        refine h.quiet rfl rfl (fun _ => ⟨Nat.succ_pos _, hguar.2.2⟩) nofun fun hp hsent => ?_
        exact absurd hguar.2.2 (Nat.not_lt.mpr (h.calls_done hp hsent).2)
      | resultEp => exact hguar.elim
    | send e m =>
      cases e with
      | ep =>
        refine h.quiet rfl rfl (fun hw => absurd (hguar.2.1.symm.trans hw) nofun) nofun ?_
        exact fun _ _ => hguar.2.1
      | resultEp =>
        obtain ⟨-, hwait, hnone, hcount, t, rfl, ht⟩ := hguar
        exact h.result nofun hnone ht (fun _ => ⟨hwait, hcount⟩) nofun
    | recv e =>
      cases e with
      | ep => exact hrely.elim
      | resultEp => exact hguar.elim
    | _ => exact hguar.elim
  | server =>
    cases r with
    | clock => exact h.quiet rfl rfl h.pos (fun _ => rfl) nofun
    | recv e =>
      cases e with
      | ep =>
        obtain ⟨-, hwait, -⟩ := hguar
        have hnum : a.1 = v.count := hrely
        refine h.quiet rfl rfl (fun hw => ?_) (fun _ => ?_) nofun
        · have hlt : a.1 < sh.calls := of_decide_eq_true hw
          exact ⟨Nat.succ_pos _, by change v.count + 1 ≤ _; omega⟩
        · simp only [advance, hwait, hnum, decide_eq_true_eq]
          split <;> simp <;> omega
      | resultEp => exact hguar.elim
    | reply m => exact h.reply hguar.2 hrely
    | send e m =>
      cases e with
      | ep => exact hguar.elim
      | resultEp =>
        obtain ⟨-, -, hnone, hcount, t, rfl, ht⟩ := hguar
        exact h.result nofun hnone ht nofun fun _ => hcount
    | _ => exact hguar.elim
  | driver =>
    cases r with
    | start q f => exact h.quiet rfl rfl h.pos nofun nofun
    | suspend q => exact h.quiet rfl rfl h.pos nofun nofun
    | recv e =>
      cases e with
      | ep => exact hguar.elim
      | resultEp => exact h.quiet rfl rfl h.pos nofun nofun
    | _ => exact hguar.elim

end Own

section Rel

variable {sh : Shape} {params : BenchmarkParams} {κ : Kernel (sig w)} {g : Party → View w}

attribute [local simp] protocol Protocol.next step advance resultsSent_append resultOf
  delivered_append deliveryOf Kernel.cancel

theorem Rel.clock (h : Rel κ g) {p : Party} (hp : p ≠ .driver) (t : Ccnt w) :
    Rel κ ((protocol sh params).next g p (.did .clock t)) := by
  obtain ⟨hcount, hmsgs, hwaiting, hcaller, hdelivered, hfresh, hserver, hclient, hresults⟩ := h
  cases p with
  | driver => exact absurd rfl hp
  | client | server =>
    constructor <;> simpa

/-- A message of the client that is not a call. -/
theorem Rel.send (h : Rel κ g) (hactive : (g .client).active = true)
    (hwait : (g .client).waiting = false) (hcalls : sh.calls ≤ (g .client).count) (m : Msg w) :
    Rel
      { κ with
        msgs := Function.update κ.msgs .ep (κ.msgs .ep + 1)
        caller := Function.update κ.caller .server none }
      ((protocol sh params).next ((protocol sh params).next g .client
        (.did (.send .ep m) (κ.msgs .ep))) .server (.did (.recv .ep) (κ.msgs .ep, m))) := by
  obtain ⟨hcount, hmsgs, hwaiting, hcaller, hdelivered, hfresh, hserver, hclient, hresults⟩ := h
  constructor <;> simp [hcount, hmsgs, hwait, hactive]
  · exact hcalls
  · exact hdelivered
  · exact lt_of_not_ge fun hstage => absurd (hfresh hstage).1 (by simp [hactive])
  · exact hserver
  · exact hresults

theorem Rel.call (h : Rel κ g) (hactive : (g .client).active = true)
    (hcalls : (g .client).count < sh.calls) (m : Msg w) :
    Rel
      { κ with
        msgs := Function.update κ.msgs .ep (κ.msgs .ep + 1)
        caller := Function.update κ.caller .server (some (.client, .ep, κ.msgs .ep)) }
      ((protocol sh params).next ((protocol sh params).next g .client
        (.did (.sendCall .ep m) (κ.msgs .ep))) .server (.did (.recv .ep) (κ.msgs .ep, m))) := by
  obtain ⟨hcount, hmsgs, hwaiting, hcaller, hdelivered, hfresh, hserver, hclient, hresults⟩ := h
  constructor <;> simp [hcount, hmsgs, hactive]
  · exact hcalls
  · exact hdelivered
  · exact lt_of_not_ge fun hstage => absurd (hfresh hstage).1 (by simp [hactive])
  · exact hserver
  · exact hresults

theorem Rel.reply (h : Rel κ g) (m m' : Msg w) (c : Option (Endpoint × ℕ)) :
    Rel { κ with caller := Function.update κ.caller .server none }
      ((protocol sh params).next ((protocol sh params).next g .server (.did (.reply m) c))
        .client (.did .awaitReply m')) := by
  obtain ⟨hcount, hmsgs, hwaiting, hcaller, hdelivered, hfresh, hserver, hclient, hresults⟩ := h
  constructor <;> simp [hcount, hmsgs]
  · exact hdelivered
  · exact fun hstage => ⟨(hfresh hstage).1, (hfresh hstage).2.1, (hfresh hstage).2.2.2⟩
  · exact hserver
  · exact hclient
  · exact hresults

theorem Rel.result (h : Rel κ g) {p : Party} (hp : p ≠ .driver)
    (hstage : (g .driver).stage = 2 ∨ (g .driver).stage = 3) (m : Msg w) (n : ℕ) :
    Rel
      { κ with
        msgs := Function.update κ.msgs .resultEp (κ.msgs .resultEp + 1)
        caller := Function.update κ.caller .driver none }
      ((protocol sh params).next ((protocol sh params).next g p
        (.did (.send .resultEp m) n)) .driver (.did (.recv .resultEp) (n, m))) := by
  obtain ⟨hcount, hmsgs, hwaiting, hcaller, hdelivered, hfresh, hserver, hclient, hresults⟩ := h
  have hlength := hresults (by omega)
  have hperm := hdelivered.append_right [m]
  cases p with
  | driver => exact absurd rfl hp
  | client =>
    constructor <;> simp [hcount, hmsgs, hwaiting, hcaller]
    · rw [List.append_assoc] at hperm
      exact hperm.trans ((List.perm_append_singleton m _).append_left _)
    · omega
    · exact fun _ => hserver (by omega) (by omega)
    · exact fun _ _ => hclient (by omega) (by omega)
    · omega
  | server =>
    constructor <;> simp [hcount, hmsgs, hwaiting, hcaller]
    · rwa [List.append_assoc] at hperm
    · omega
    · exact fun _ => hserver (by omega) (by omega)
    · exact fun _ _ => hclient (by omega) (by omega)
    · omega

theorem Rel.start_server (h : Rel κ g) (hstage : (g .driver).stage = 0) (f : HelperFunc) :
    Rel (κ.cancel .server) ((protocol sh params).next ((protocol sh params).next g .driver
      (.did (.start .server f) ())) .server (.started f)) := by
  obtain ⟨hcount, hmsgs, hwaiting, hcaller, hdelivered, hfresh, hserver, hclient, hresults⟩ := h
  obtain ⟨hactive, hzero, hwait, hnone, hnone'⟩ := hfresh (by omega)
  rw [hnone, hnone', List.append_nil, List.perm_nil] at hdelivered
  constructor <;>
    simp [hstage, hcount, hmsgs, hwaiting, hcaller, hactive, hzero, hwait, hnone, hnone',
      hdelivered]

theorem Rel.start_client (h : Rel κ g) (hstage : (g .driver).stage = 1) (f : HelperFunc) :
    Rel (κ.cancel .client) ((protocol sh params).next ((protocol sh params).next g .driver
      (.did (.start .client f) ())) .client (.started f)) := by
  obtain ⟨hcount, hmsgs, hwaiting, hcaller, hdelivered, hfresh, hserver, hclient, hresults⟩ := h
  obtain ⟨hactive, hzero, hwait, hnone, hnone'⟩ := hfresh (by omega)
  rw [hnone, hnone', List.append_nil, List.perm_nil] at hdelivered
  constructor <;>
    simp [hstage, hcount, hmsgs, hwaiting, hcaller, hzero, hwait, hnone, hnone', hdelivered,
      hserver (by omega) (by omega)]

theorem Rel.suspend (h : Rel κ g) (hstage : 4 ≤ (g .driver).stage)
    (hwait : (g .client).waiting = false) {q : Party} (hq : q ≠ .driver) :
    Rel (κ.cancel q) ((protocol sh params).next ((protocol sh params).next g .driver
      (.did (.suspend q) ())) q .stopped) := by
  obtain ⟨hcount, hmsgs, hwaiting, hcaller, hdelivered, hfresh, hserver, hclient, hresults⟩ := h
  cases q with
  | driver => exact absurd rfl hq
  | client | server =>
    constructor <;> simp [hcount, hmsgs, hwaiting, hcaller, hwait, hdelivered] <;> omega

end Rel

section Sound

variable {sh : Shape} {params : BenchmarkParams} {s : State (sig w)} {p q : Party}
  (hinv : (protocol sh params).Inv s)

include hinv

/-- While the server has a call at hand its reply is not lost. -/
theorem caller_ne_none (hwait : ((protocol sh params).view s.log .server).waiting = true) :
    s.kernel.caller .server ≠ none := by
  have hcaller := hinv.rel.caller
  rw [← hinv.rel.waiting, if_pos hwait] at hcaller
  rw [hcaller]
  exact Option.some_ne_none _

theorem rel_effect {r : Req (sig w)} {a : r.Resp} {κ : Kernel (sig w)}
    (hguar : guar sh params p ((protocol sh params).view s.log p) r) (heff : Effect s p r a κ) :
    rely p ((protocol sh params).view s.log p) r a ∧
      Rel κ ((protocol sh params).next ((protocol sh params).view s.log) p (.did r a)) := by
  cases heff with
  | clock t =>
    cases p with
    | client | server => exact ⟨trivial, Rel.clock hinv.rel (by decide) t⟩
    | driver => exact hguar.elim
  | replyNone m hnone =>
    cases p with
    | server => exact absurd hnone (caller_ne_none hinv hguar.2)
    | client | driver => exact hguar.elim
  | load x | store x v => exact x.elim
  | signal n | wait n => exact n.elim
  | acquire l | release l | sleep l => exact l.elim
  | wakeNone c => exact c.elim

/-- A message is one of the client to the server, or a result. -/
theorem rel_send {e : Endpoint} {m : Msg w} (hpq : p ≠ q)
    (hp : guar sh params p ((protocol sh params).view s.log p) (.send e m))
    (hq : guar sh params q ((protocol sh params).view s.log q) (.recv e)) :
    rely p ((protocol sh params).view s.log p) (.send e m) (s.kernel.msgs e) ∧
      rely q ((protocol sh params).view s.log q) (.recv e) (s.kernel.msgs e, m) ∧
      Rel
        { s.kernel with
          msgs := Function.update s.kernel.msgs e (s.kernel.msgs e + 1)
          caller := Function.update s.kernel.caller q none }
        ((protocol sh params).next ((protocol sh params).next ((protocol sh params).view s.log) p
          (.did (.send e m) (s.kernel.msgs e))) q (.did (.recv e) (s.kernel.msgs e, m))) := by
  have hrel := hinv.rel
  cases e with
  | ep =>
    cases p with
    | client =>
      cases q with
      | client => exact absurd rfl hpq
      | server =>
        exact ⟨hrel.msgs, hrel.msgs.trans hrel.count.symm, hrel.send hp.1 hp.2.1 hp.2.2.1 m⟩
      | driver => exact hq.elim
    | server | driver => exact hp.elim
  | resultEp =>
    cases q with
    | driver =>
      cases p with
      | client | server => exact ⟨trivial, trivial, hrel.result (by decide) hq m _⟩
      | driver => exact absurd rfl hpq
    | client | server => exact hq.elim

/-- A call is one of the client to the server. -/
theorem rel_call {e : Endpoint} {m : Msg w} (hpq : p ≠ q)
    (hp : guar sh params p ((protocol sh params).view s.log p) (.sendCall e m))
    (hq : guar sh params q ((protocol sh params).view s.log q) (.recv e)) :
    rely p ((protocol sh params).view s.log p) (.sendCall e m) (s.kernel.msgs e) ∧
      rely q ((protocol sh params).view s.log q) (.recv e) (s.kernel.msgs e, m) ∧
      Rel
        { s.kernel with
          msgs := Function.update s.kernel.msgs e (s.kernel.msgs e + 1)
          caller := Function.update s.kernel.caller q (some (p, e, s.kernel.msgs e)) }
        ((protocol sh params).next ((protocol sh params).next ((protocol sh params).view s.log) p
          (.did (.sendCall e m) (s.kernel.msgs e))) q (.did (.recv e) (s.kernel.msgs e, m))) := by
  have hrel := hinv.rel
  cases e with
  | ep =>
    cases p with
    | client =>
      cases q with
      | client => exact absurd rfl hpq
      | server =>
        exact ⟨hrel.msgs, hrel.msgs.trans hrel.count.symm, hrel.call hp.1 hp.2.2 m⟩
      | driver => exact hq.elim
    | server | driver => exact hp.elim
  | resultEp => cases p <;> exact hp.elim

/-- A reply goes to the client and answers its last call. -/
theorem rel_reply {m : Msg w} {e : Endpoint} {n : ℕ}
    (hp : guar sh params p ((protocol sh params).view s.log p) (.reply m))
    (hcaller : s.kernel.caller p = some (q, e, n)) :
    rely p ((protocol sh params).view s.log p) (.reply m) (some (e, n)) ∧
      rely q ((protocol sh params).view s.log q) .awaitReply m ∧
      Rel { s.kernel with caller := Function.update s.kernel.caller p none }
        ((protocol sh params).next ((protocol sh params).next ((protocol sh params).view s.log) p
          (.did (.reply m) (some (e, n)))) q (.did .awaitReply m)) := by
  have hrel := hinv.rel
  cases p with
  | server =>
    have hcaller' := hrel.caller
    rw [hcaller, ← hrel.waiting, if_pos hp.2] at hcaller'
    cases hcaller'
    exact ⟨congrArg (fun n => some (Endpoint.ep, n - 1)) hrel.count.symm, trivial,
      hrel.reply m m _⟩
  | client | driver => exact hp.elim

theorem rel_exchange {r r' : Req (sig w)} {a : r.Resp} {a' : r'.Resp} {κ : Kernel (sig w)}
    (hpq : p ≠ q) (hp : guar sh params p ((protocol sh params).view s.log p) r)
    (hq : guar sh params q ((protocol sh params).view s.log q) r')
    (hex : Exchange s.kernel p q r a r' a' κ) :
    rely p ((protocol sh params).view s.log p) r a ∧
      rely q ((protocol sh params).view s.log q) r' a' ∧
      Rel κ ((protocol sh params).next ((protocol sh params).next ((protocol sh params).view s.log)
        p (.did r a)) q (.did r' a')) := by
  cases hex with
  | send e m => exact rel_send hinv hpq hp hq
  | call e m => exact rel_call hinv hpq hp hq
  | reply m hcaller => exact rel_reply hinv hp hcaller
  | wake c => exact c.elim

theorem rel_start {f : HelperFunc} (hpq : p ≠ q)
    (hguar : guar sh params p ((protocol sh params).view s.log p) (.start q f)) :
    rely p ((protocol sh params).view s.log p) (.start q f) () ∧
      atEntry params q f (step sh q ((protocol sh params).view s.log q) (.started f)) ∧
      Rel (s.kernel.cancel q)
        ((protocol sh params).next ((protocol sh params).next ((protocol sh params).view s.log) p
          (.did (.start q f) ())) q (.started f)) := by
  have hrel := hinv.rel
  cases p with
  | driver =>
    cases q with
    | driver => exact absurd rfl hpq
    | server =>
      obtain ⟨hstage, hf⟩ := hguar
      obtain ⟨-, hzero, hwait, -, hnone⟩ := hrel.fresh (by omega)
      exact ⟨trivial, ⟨rfl, hrel.count.trans hzero, hrel.waiting.trans hwait,
        (resultsSent_append _ _).trans (by rw [hnone]; rfl), .inr ⟨rfl, hf⟩⟩,
        hrel.start_server hstage f⟩
    | client =>
      obtain ⟨hstage, hf⟩ := hguar
      obtain ⟨-, hzero, hwait, hnone, -⟩ := hrel.fresh (by omega)
      exact ⟨trivial, ⟨rfl, hzero, hwait, (resultsSent_append _ _).trans (by rw [hnone]; rfl),
        .inl ⟨rfl, hf⟩⟩, hrel.start_client hstage f⟩
  | client | server => exact hguar.elim

/-- When the driver has received both results, no call is unanswered. -/
theorem not_waiting_of_stage (hstage : 4 ≤ ((protocol sh params).view s.log .driver).stage) :
    ((protocol sh params).view s.log .client).waiting = false := by
  refine ((hinv.own .client).calls_done rfl fun hnone => ?_).1
  have hlength := hinv.rel.results (by omega)
  rw [hinv.rel.delivered.length_eq, hnone, List.nil_append] at hlength
  obtain hnone' | ⟨t, hsent, -⟩ := (hinv.own .server).results nofun
  · rw [hnone', List.length_nil] at hlength
    omega
  · rw [hsent, List.length_singleton] at hlength
    omega

theorem rel_suspend (hpq : p ≠ q)
    (hguar : guar sh params p ((protocol sh params).view s.log p) (.suspend q)) :
    rely p ((protocol sh params).view s.log p) (.suspend q) () ∧
      rest sh q (step sh q ((protocol sh params).view s.log q) .stopped) ∧
      Rel (s.kernel.cancel q)
        ((protocol sh params).next ((protocol sh params).next ((protocol sh params).view s.log) p
          (.did (.suspend q) ())) q .stopped) := by
  cases p with
  | driver =>
    have hstage : 4 ≤ ((protocol sh params).view s.log .driver).stage := by
      cases q with
      | driver => exact absurd rfl hpq
      | client => exact (show _ = 4 from hguar).ge
      | server => exact Nat.le_of_succ_le (show _ = 5 from hguar).ge
    have hwait := not_waiting_of_stage hinv hstage
    cases q with
    | driver => exact absurd rfl hpq
    | client | server => exact ⟨trivial, .inl rfl, hinv.rel.suspend hstage hwait hpq.symm⟩
  | client | server => exact hguar.elim

end Sound

theorem sound {sh : Shape} {params : BenchmarkParams} {F : HelperFunc → Prog (sig w)}
    (hlabel : ∀ p f v, atEntry params p f v →
      ((protocol sh params).spec p).Safe (F f) v) :
    (protocol (w := w) sh params).Sound F fun _ _ => True where
  label := hlabel
  own := Own.step
  own_started {p g f} h := by
    cases p with
    | client => exact h.quiet rfl rfl h.pos nofun fun hp hsent => (h.calls_done hp hsent).1
    | server => exact h.quiet rfl rfl h.pos (fun _ => rfl) nofun
    | driver => exact h.quiet rfl rfl h.pos nofun nofun
  own_stopped {p g} h := by
    cases p with
    | client => exact h.quiet rfl rfl h.pos nofun fun hp hsent => (h.calls_done hp hsent).1
    | server => exact h.quiet rfl rfl h.pos (fun _ => rfl) nofun
    | driver => exact h.quiet rfl rfl h.pos nofun nofun
  effect hinv _ := rel_effect hinv
  exchange hinv _ := rel_exchange hinv
  start hinv _ := rel_start hinv
  suspend hinv _ := rel_suspend hinv

/-! ### Progress -/

section Progress

variable {sh : Shape} {params : BenchmarkParams} {F : HelperFunc → Prog (sig w)}
  {s : State (sig w)}

/-- Before both results are delivered, the driver can take a step or waits for a result. -/
theorem driver_progress (hinv : (protocol sh params).Inv s)
    (hlt : (delivered ((protocol sh params).view s.log .driver).hist).length < 2) :
    CanStep F s ∨ (∃ k, s.thread .driver = .op (.recv .resultEp) k) ∧
      ((protocol sh params).view s.log .client).active ∧
      ((protocol sh params).view s.log .server).active := by
  have hsafe := hinv.safe .driver
  have hresults := hinv.rel.results
  cases hd : s.thread .driver with
  | halt =>
    rw [hd] at hsafe
    have hstage : ((protocol sh params).view s.log .driver).stage = 6 := hsafe
    have := hresults (by omega)
    omega
  | jump f => exact .inl (.jump hd)
  | op r k =>
    have hguar := hinv.guar hd
    cases r with
    | start q f =>
      cases q with
      | driver => exact hguar.elim
      | client | server => exact .inl (.start hd nofun)
    | suspend q =>
      cases q with
      | driver => exact hguar.elim
      | client | server => exact .inl (.suspend hd nofun)
    | recv e =>
      cases e with
      | ep => exact hguar.elim
      | resultEp =>
        have hstage : ((protocol sh params).view s.log .driver).stage = 2 ∨
          ((protocol sh params).view s.log .driver).stage = 3 := hguar
        exact .inr ⟨⟨k, rfl⟩, hinv.rel.client_active (by omega) (by omega),
          hinv.rel.server_active (by omega) (by omega)⟩
    | _ => exact hguar.elim

/-- The client can take a step, waits for a reply, has a message for the server, or is done. -/
theorem client_progress (hinv : (protocol sh params).Inv s)
    (hdriver : ∃ k, s.thread .driver = .op (.recv .resultEp) k)
    (hactive : ((protocol sh params).view s.log .client).active) :
    let v := (protocol sh params).view s.log .client
    CanStep F s ∨ (∃ k, s.thread .client = .op .awaitReply k) ∧ v.waiting = true ∨
      (v.waiting = false ∧ v.count < sh.total ∧
        ∃ m, (∃ k, s.thread .client = .op (.send .ep m) k) ∨
          ∃ k, s.thread .client = .op (.sendCall .ep m) k) ∨
      v.waiting = false ∧ v.count = sh.total ∧ resultsSent v.hist ≠ [] := by
  intro v
  obtain ⟨kd, hd⟩ := hdriver
  have hsafe := hinv.safe .client
  have hcalls : sh.calls ≤ sh.total := sh.calls_le.trans sh.resultAt_le
  cases hc : s.thread .client with
  | halt =>
    rw [hc] at hsafe
    obtain hinactive | hdone := hsafe
    · exact absurd hactive (by simp [hinactive])
    · exact .inr (.inr (.inr hdone))
  | jump f => exact .inl (.jump hc)
  | op r k =>
    have hguar := hinv.guar hc
    cases r with
    | clock => exact .inl (.act hc (.clock (0 : Ccnt w)))
    | awaitReply => exact .inr (.inl ⟨⟨k, rfl⟩, hguar.2⟩)
    | send e m =>
      cases e with
      | ep => exact .inr (.inr (.inl ⟨hguar.2.1, hguar.2.2.2, m, .inl ⟨k, rfl⟩⟩))
      | resultEp => exact .inl (.exchange hc hd (.send _ m) nofun)
    | sendCall e m =>
      cases e with
      | ep => exact .inr (.inr (.inl ⟨hguar.2.1, hguar.2.2.trans_le hcalls, m, .inr ⟨k, rfl⟩⟩))
      | resultEp => exact hguar.elim
    | recv e =>
      cases e with
      | ep => exact .inr (.inr (.inr hguar.2))
      | resultEp => exact hguar.elim
    | _ => exact hguar.elim

/-- The server can take a step, replies, receives, or is done. -/
theorem server_progress (hinv : (protocol sh params).Inv s)
    (hdriver : ∃ k, s.thread .driver = .op (.recv .resultEp) k)
    (hactive : ((protocol sh params).view s.log .server).active) :
    let v := (protocol sh params).view s.log .server
    CanStep F s ∨ (∃ m k, s.thread .server = .op (.reply m) k) ∧ v.waiting = true ∨
      (v.waiting = false ∧ (v.count < sh.total ∨ resultsSent v.hist ≠ []) ∧
        ∃ k, s.thread .server = .op (.recv .ep) k) ∨
      v.waiting = false ∧ resultsSent v.hist ≠ [] := by
  intro v
  obtain ⟨kd, hd⟩ := hdriver
  have hsafe := hinv.safe .server
  cases hs : s.thread .server with
  | halt =>
    rw [hs] at hsafe
    obtain hinactive | hdone := hsafe
    · exact absurd hactive (by simp [hinactive])
    · exact .inr (.inr (.inr hdone))
  | jump f => exact .inl (.jump hs)
  | op r k =>
    have hguar := hinv.guar hs
    cases r with
    | clock => exact .inl (.act hs (.clock (0 : Ccnt w)))
    | reply m => exact .inr (.inl ⟨⟨m, k, rfl⟩, hguar.2⟩)
    | send e m =>
      cases e with
      | ep => exact hguar.elim
      | resultEp => exact .inl (.exchange hs hd (.send _ m) nofun)
    | recv e =>
      cases e with
      | ep => exact .inr (.inr (.inl ⟨hguar.2.1, hguar.2.2, k, rfl⟩))
      | resultEp => exact hguar.elim
    | _ => exact hguar.elim

/-- Some step is possible until both results are delivered. -/
theorem progress (hinv : (protocol sh params).Inv s)
    (hlt : (delivered ((protocol sh params).view s.log .driver).hist).length < 2) :
    CanStep F s := by
  have hrel := hinv.rel
  obtain hstep | ⟨hd, hclient, hserver⟩ := driver_progress (F := F) hinv hlt
  · exact hstep
  obtain hstep | hs := server_progress (F := F) hinv hd hserver
  · exact hstep
  obtain hstep | ⟨⟨k, hk⟩, hwait⟩ | ⟨hwait, hcount, m, hm⟩ | ⟨hwait, hcount, hsent⟩ :=
    client_progress (F := F) hinv hd hclient
  · exact hstep
  · -- The client waits, so the server is the one to reply.
    obtain ⟨⟨m, ks, hreply⟩, -⟩ | ⟨hno, -⟩ | ⟨hno, -⟩ := hs
    · have hcaller := hrel.caller
      rw [if_pos hwait] at hcaller
      exact .exchange hreply hk (.reply m hcaller) nofun
    all_goals rw [hrel.waiting, hwait] at hno; exact absurd hno nofun
  · -- The server has not received all messages, so it receives.
    obtain ⟨-, hyes⟩ | ⟨-, -, ks, hrecv⟩ | ⟨-, hdone⟩ := hs
    · rw [hrel.waiting, hwait] at hyes
      exact absurd hyes nofun
    · obtain ⟨k, hk⟩ | ⟨k, hk⟩ := hm
      · exact .exchange hk hrecv (.send _ m) nofun
      · exact .exchange hk hrecv (.call _ m) nofun
    · have hall := (hinv.own .server).all_received rfl hdone
      rw [hrel.count] at hall
      omega
  · -- The client is done, so the result of the server is missing.
    have hnone : resultsSent ((protocol sh params).view s.log .server).hist = [] := by
      rw [hrel.delivered.length_eq, List.length_append] at hlt
      have hpos := List.length_pos_iff.mpr hsent
      exact List.length_eq_zero_iff.mp (by omega)
    obtain ⟨-, hyes⟩ | ⟨-, hlt' | hdone, -⟩ | ⟨-, hdone⟩ := hs
    · rw [hrel.waiting, hwait] at hyes
      exact absurd hyes nofun
    · rw [hrel.count] at hlt'
      omega
    all_goals exact absurd hnone hdone

end Progress

end Sel4bench.Ipc
