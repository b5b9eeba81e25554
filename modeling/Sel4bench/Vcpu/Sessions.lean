import Sel4bench.Vcpu.Monitor
import Sel4bench.Vcpu.Extremes
import Sel4bench.Lib.Trace
import Mathlib.Data.Finset.Interval
import Mathlib.Order.Interval.Finset.Nat

/-!
# The exchanges of the guests with the monitor

Seen from a guest, the monitor is a server that answers every message once before the guest can send
the next one, and never answers a call to exit (`Sel4bench.Vcpu.Session`). The main loop of the
monitor serves all guests with one slot for reply capabilities. It is a refinement of the sessions
of its guests: whatever the guests do, the slot is empty when the monitor receives, and it holds the
capability of the guest whose message is being handled otherwise.

## Main definitions

* `Sel4bench.Vcpu.Session` — the histories of a guest.
* `Sel4bench.Vcpu.Monitor.Inv` — the invariant of the main loop.

## Main results

* `Sel4bench.Vcpu.Monitor.inv_of_reachable`.
* `Sel4bench.Vcpu.monitor_sessions` — what the monitor does for its guests.
-/

namespace Sel4bench.Vcpu

open Total

variable {P : Platform} {n : ℕ}

/-! ### Badges -/

section Badge

variable {g : ℕ}

theorem ipcBadge_toNat (hg : g ≤ maxNGuests) : (ipcBadge g).toNat = g := by
  unfold maxNGuests at hg
  rw [ipcBadge, BitVec.toNat_ofNat, Nat.mod_eq_of_lt (by omega)]

/-- The badges of the guests have the fault bit exactly for faults, and name the guest. -/
theorem badge_cases (hg : g ≤ maxNGuests) : ipcBadge g &&& faultBit = 0 ∧
    faultBadge g &&& faultBit ≠ 0 ∧ guestId (ipcBadge g) = g ∧ guestId (faultBadge g) = g := by
  have hall : ∀ g < 32, ipcBadge g &&& faultBit = 0 ∧ faultBadge g &&& faultBit ≠ 0 ∧
      guestId (ipcBadge g) = g ∧ guestId (faultBadge g) = g := by decide
  exact hall g (Nat.lt_succ_of_le hg)

end Badge

/-- The message comes from the guest `g`. -/
def Message.IsFrom (m : Message) (g : ℕ) : Prop := m.badge = ipcBadge g ∨ m.badge = faultBadge g

theorem Message.IsFrom.guestId {m : Message} {g : ℕ} (h : m.IsFrom g) (hg : g ≤ maxNGuests) :
    guestId m.badge = g := by
  obtain ⟨-, -, hipc, hfault⟩ := badge_cases hg
  obtain h | h := h
  · rwa [h]
  · rwa [h]

/-- A message without the fault bit has the guest as its badge. -/
theorem Message.IsFrom.badge_of_not_isFault {m : Message} {g : ℕ} (h : m.IsFrom g)
    (hg : g ≤ maxNGuests) (hm : ¬m.IsFault) : m.badge.toNat = g := by
  obtain ⟨-, hfault, -, -⟩ := badge_cases hg
  obtain h | h := h
  · rw [h, ipcBadge_toNat hg]
  · rw [IsFault, h] at hm
    exact absurd hfault hm

/-! ### Sessions -/

/-- The length of the reply to a hypercall. -/
def Hypcall.replyLength : Hypcall → ℕ
  | .getSel4ReplyStartStamp | .getSel4CallEndStamp => 1
  | _ => 0

/-- The reply to a message. -/
def Message.Answer (m : Message) (label : Word) (length : ℕ) : Prop :=
  if m.IsFault then label = 1 ∧ length = 0
  else label = m.label ∧ length = (Hypcall.ofLabel m.label).replyLength

/-- The registers that the message transfers are those of its sender. -/
def Message.Carried (m : Message) (mr : ℕ → Word) : Prop := ∀ i < m.length, mr i = m.mr i

/-- The hypercall asks for a reading of the cycle counter. -/
def Message.AsksStamp (m : Message) : Prop :=
  ¬m.IsFault ∧ (Hypcall.ofLabel m.label).replyLength = 1

instance (m : Message) : Decidable m.AsksStamp := by
  unfold Message.AsksStamp
  infer_instance

/-- The message registers of the reply, when the message was handled with the registers `mr` and
after `reads` readings of the cycle counter. -/
def Message.replyMr (P : Platform) (m : Message) (mr : ℕ → Word) (reads : ℕ) : ℕ → Word :=
  if m.AsksStamp then Function.update mr 0 (P.ccnt reads) else mr

/-- A message of the guest `g` that the monitor has handled and answered. -/
structure Round (g : ℕ) where
  message : Message
  isFrom : message.IsFrom g
  not_isExit : ¬message.IsExit
  /-- The message registers with which the message was handled. -/
  mr : ℕ → Word
  carried : message.Carried mr
  /-- The readings of the cycle counter before the message was handled. -/
  reads : ℕ
  label : Word
  length : ℕ
  answer : message.Answer label length

/-- What happens in a round. -/
def Round.incidents (P : Platform) {g : ℕ} (r : Round g) : List Incident :=
  [.sent r.message, .handled r.message r.mr r.reads,
    .replied r.label r.length (r.message.replyMr P r.mr r.reads)]

/-- What has happened in the round of the guest `g` that is not complete. -/
inductive Tail (g : ℕ) : Exchange → List Incident → Prop
  | running : Tail g .running []
  | stopped : Tail g .stopped []
  | calling {m : Message} (hm : m.IsFrom g) : Tail g (.calling m) [.sent m]
  | received {m : Message} (hm : m.IsFrom g) : Tail g (.received m) [.sent m]
  | handled {m : Message} (hm : m.IsFrom g) {mr : ℕ → Word} (hmr : m.Carried mr) (reads : ℕ) :
    Tail g (.handled m) [.sent m, .handled m mr reads]
  | exited {m : Message} (hm : m.IsFrom g) (hx : m.IsExit) {mr : ℕ → Word} (hmr : m.Carried mr)
    (reads : ℕ) : Tail g .exited [.sent m, .handled m mr reads]

/-- The histories of a guest: complete rounds, and at most one that is not complete. -/
def Session (P : Platform) (g : ℕ) (l : List Incident) (e : Exchange) : Prop :=
  ∃ (rounds : List (Round g)) (t : List Incident), Tail g e t ∧
    l = rounds.flatMap (Round.incidents P) ++ t

namespace Session

variable {g : ℕ} {l : List Incident} {m : Message}

theorem nil : Session P g [] .running := ⟨[], [], .running, rfl⟩

theorem isFrom_of_calling (h : Session P g l (.calling m)) : m.IsFrom g := by
  obtain ⟨_, _, ht, _⟩ := h
  cases ht with
  | calling hm => exact hm

theorem isFrom_of_received (h : Session P g l (.received m)) : m.IsFrom g := by
  obtain ⟨_, _, ht, _⟩ := h
  cases ht with
  | received hm => exact hm

theorem send (h : Session P g l .running) (hm : m.IsFrom g) :
    Session P g (l ++ [.sent m]) (.calling m) := by
  obtain ⟨rounds, t, ht, rfl⟩ := h
  cases ht
  exact ⟨rounds, _, .calling hm, by rw [List.append_nil]⟩

theorem receive (h : Session P g l (.calling m)) : Session P g l (.received m) := by
  obtain ⟨rounds, t, ht, rfl⟩ := h
  cases ht with
  | calling hm => exact ⟨rounds, _, .received hm, rfl⟩

theorem handle (h : Session P g l (.received m)) {mr : ℕ → Word} (hmr : m.Carried mr)
    (reads : ℕ) : Session P g (l ++ [.handled m mr reads]) (.handled m) := by
  obtain ⟨rounds, t, ht, rfl⟩ := h
  cases ht with
  | received hm => exact ⟨rounds, _, .handled hm hmr reads, by rw [List.append_assoc]; rfl⟩

theorem reply (h : Session P g l (.handled m)) (hx : ¬m.IsExit) {label : Word} {length : ℕ}
    (ha : m.Answer label length) {mr : ℕ → Word} {reads : ℕ}
    (hlast : l.getLast? = some (.handled m mr reads)) {e : Exchange}
    (he : e = .running ∨ e = .stopped) :
    Session P g (l ++ [.replied label length (m.replyMr P mr reads)]) e := by
  obtain ⟨rounds, t, ht, rfl⟩ := h
  cases ht with
  | @handled _ hm mr' hmr reads' =>
    rw [List.getLast?_append_of_ne_nil _ (List.cons_ne_nil _ _)] at hlast
    obtain ⟨-, rfl, rfl⟩ := Incident.handled.inj (Option.some.inj hlast)
    have htail : Tail g e [] := by
      obtain rfl | rfl := he
      · exact .running
      · exact .stopped
    refine ⟨rounds ++ [⟨m, hm, hx, mr', hmr, reads', label, length, ha⟩], [], htail, ?_⟩
    rw [List.append_nil, List.flatMap_append, List.flatMap_singleton, List.append_assoc]
    rfl

theorem exit (h : Session P g l (.handled m)) (hx : m.IsExit) : Session P g l .exited := by
  obtain ⟨rounds, t, ht, rfl⟩ := h
  cases ht with
  | handled hm hmr reads => exact ⟨rounds, _, .exited hm hx hmr reads, rfl⟩

/-- A message is handled with the registers that it has transferred. -/
theorem carried {e : Exchange} {mr : ℕ → Word} {reads : ℕ} (h : Session P g l e)
    (hmem : .handled m mr reads ∈ l) : m.Carried mr := by
  obtain ⟨rounds, t, ht, rfl⟩ := h
  rcases List.mem_append.mp hmem with hmem | hmem
  · obtain ⟨r, -, hr⟩ := List.mem_flatMap.mp hmem
    simp only [Round.incidents, List.mem_cons, List.not_mem_nil, reduceCtorEq, or_false, false_or,
      Incident.handled.injEq] at hr
    obtain ⟨rfl, rfl, rfl⟩ := hr
    exact r.carried
  · cases ht with
    | running | stopped => exact absurd hmem List.not_mem_nil
    | calling | received => simp at hmem
    | handled hm hmr | exited hm hx hmr =>
      simp only [List.mem_cons, List.not_mem_nil, reduceCtorEq, or_false, false_or,
        Incident.handled.injEq] at hmem
      obtain ⟨rfl, rfl, rfl⟩ := hmem
      exact hmr

end Session

/-! ### Results -/

/-- A report of a measurement. -/
structure Report where
  bm : ℕ
  idx : ℤ
  start : Word
  stop : Word

/-- The report in the message registers. -/
def Report.ofMr (mr : ℕ → Word) : Report where
  bm := ((mr 0).setWidth 32).toNat
  idx := ((mr 1).setWidth 32).toInt
  start := mr 2
  stop := mr 3

/-- Storing a report. -/
def Report.store (results : ℕ → DeepData) (r : Report) : ℕ → DeepData :=
  Function.update results r.bm ((results r.bm).set r.idx r.start r.stop)

/-- The report of a message that was handled with the registers `mr`. -/
def Message.report (m : Message) (mr : ℕ → Word) : Option Report :=
  if ¬m.IsFault ∧ Hypcall.ofLabel m.label = .bmReportDeepResults then some (.ofMr mr) else none

/-- The report of a message with four registers is that of its sender. -/
theorem Message.Carried.report {m : Message} {mr : ℕ → Word} (h : m.Carried mr)
    (hlength : 4 ≤ m.length) : m.report mr = m.report m.mr := by
  have hreport : Report.ofMr mr = Report.ofMr m.mr := by
    simp only [Report.ofMr, h 0 (by omega), h 1 (by omega), h 2 (by omega), h 3 (by omega)]
  simp only [Message.report, hreport]

/-- The benchmark and the index of a report are those of an element of the results. -/
def Report.Valid (P : Platform) (r : Report) : Prop :=
  r.bm < nBenchmarks ∧ 0 ≤ r.idx ∧ r.idx < P.nIterations

/-- The report of an incident. -/
def Incident.report : Incident → Option Report
  | .handled m mr _ => m.report mr
  | _ => none

/-- The reports that have been handled, in order. -/
def reports (log : List (ℕ × Incident)) : List Report := log.filterMap fun x => x.2.report

/-- The reading of the cycle counter in an incident. -/
def Incident.reading : Incident → Option ℕ
  | .handled m _ reads => if m.AsksStamp then some reads else none
  | _ => none

/-- The readings of the cycle counter, in order. -/
def readings (log : List (ℕ × Incident)) : List ℕ := log.filterMap fun x => x.2.reading

/-- The last report about a slot. -/
def lastReport (bm : ℕ) (idx : ℤ) (l : List Report) : Option Report :=
  (l.filter fun r => r.bm = bm ∧ r.idx = idx).getLast?

/-- The elements of the three arrays at an index. -/
def DeepData.slot (d : DeepData) (idx : ℤ) : Word × Word × Word :=
  (d.start idx, d.stop idx, d.elapsed idx)

/-- The elements that a report leaves. -/
def Report.slot (r : Report) : Word × Word × Word := (r.start, r.stop, r.stop - r.start)

theorem Report.store_slot_self (results : ℕ → DeepData) (r : Report) :
    (r.store results r.bm).slot r.idx = r.slot := by
  simp [store, DeepData.set, DeepData.slot, slot]

theorem Report.store_slot_of_ne (results : ℕ → DeepData) (r : Report) {bm : ℕ} {idx : ℤ}
    (h : ¬(r.bm = bm ∧ r.idx = idx)) : (r.store results bm).slot idx = (results bm).slot idx := by
  by_cases hbm : bm = r.bm
  · subst hbm
    have hne : idx ≠ r.idx := fun heq => h ⟨rfl, heq.symm⟩
    simp [store, DeepData.set, DeepData.slot, Function.update_of_ne hne]
  · rw [store, Function.update_of_ne hbm]

/-- A slot holds what was reported last about it. -/
theorem foldl_store_slot (results : ℕ → DeepData) (bm : ℕ) (idx : ℤ) (l : List Report) :
    (l.foldl Report.store results bm).slot idx =
      ((lastReport bm idx l).map Report.slot).getD ((results bm).slot idx) := by
  induction l using List.reverseRecOn with
  | nil => rfl
  | append_singleton l r ih =>
    rw [List.foldl_concat, lastReport, List.filter_append]
    by_cases hr : r.bm = bm ∧ r.idx = idx
    · obtain ⟨rfl, rfl⟩ := hr
      rw [Report.store_slot_self]
      simp
    · rw [Report.store_slot_of_ne _ _ hr, ih, lastReport]
      simp [hr]

/-! ### Hypercalls -/

/-- What a hypercall that the monitor completes does to the world. -/
structure Hypcall.Completed (P : Platform) (label : Hypcall) (w : World) (length : ℕ)
    (w' : World) : Prop where
  length : length = label.replyLength
  results : w'.results = if label = .bmReportDeepResults then
    (Report.ofMr w.vmmMr).store w.results else w.results
  valid : label = .bmReportDeepResults → (Report.ofMr w.vmmMr).Valid P
  exitStatus : w'.exitStatus = if label = .exitThread then some ((w.vmmMr 1).setWidth 32)
    else w.exitStatus
  vmmMr : w'.vmmMr = if label.replyLength = 1 then Function.update w.vmmMr 0 (P.ccnt w.ccntReads)
    else w.vmmMr
  ccntReads : w'.ccntReads = w.ccntReads + label.replyLength

theorem vmmHandleHypcall_spec {label : Hypcall} {w w' : World} {length : ℕ}
    (h : vmmHandleHypcall P label w = some (length, w')) : label.Completed P w length w' := by
  have hends : Ends (vmmHandleHypcall P label) w fun a u => a = length ∧ u = w' :=
    ⟨length, w', h, rfl, rfl⟩
  cases label with
  | noop | putc | puts | el1Fault =>
    simp only [vmmHandleHypcall, ends_pure] at hends
    obtain ⟨rfl, rfl⟩ := hends
    exact ⟨rfl, rfl, fun h => absurd h (by decide), rfl, rfl, rfl⟩
  | getSel4CallEndStamp | getSel4ReplyStartStamp =>
    simp only [vmmHandleHypcall, readCcnt, ends_bind, ends_get, ends_set, ends_modify,
      ends_pure] at hends
    obtain ⟨rfl, rfl⟩ := hends
    exact ⟨rfl, rfl, fun h => absurd h (by decide), rfl, rfl, rfl⟩
  | exitThread =>
    simp only [vmmHandleHypcall, ends_bind, ends_get, ends_set, ends_pure] at hends
    obtain ⟨rfl, rfl⟩ := hends
    exact ⟨rfl, rfl, fun h => absurd h (by decide), rfl, rfl, rfl⟩
  | bmReportEndResults =>
    simp only [vmmHandleHypcall, ends_bind, ends_get, ends_cAssert, ends_pure] at hends
    obtain ⟨-, rfl, rfl⟩ := hends
    exact ⟨rfl, rfl, fun h => absurd h (by decide), rfl, rfl, rfl⟩
  | bmReportDeepResults =>
    simp only [vmmHandleHypcall, ends_bind, ends_get, ends_set, cIndex, ends_cAssert,
      ends_pure] at hends
    obtain ⟨hbm, hidx, rfl, rfl⟩ := hends
    exact ⟨rfl, rfl, fun _ => ⟨hbm, hidx⟩, rfl, rfl, rfl⟩

/-- A report about no benchmark, or about no element of the results. -/
def Hypcall.Invalid (P : Platform) (label : Hypcall) (mr : ℕ → Word) : Prop :=
  label = .bmReportEndResults ∧ nBenchmarks ≤ ((mr 0).setWidth 32).toNat ∨
    label = .bmReportDeepResults ∧ ¬(Report.ofMr mr).Valid P

/-- The monitor completes every hypercall but such a report. -/
theorem vmmHandleHypcall_of_none {label : Hypcall} {w : World}
    (h : vmmHandleHypcall P label w = none) : label.Invalid P w.vmmMr := by
  have hends : ¬Ends (vmmHandleHypcall P label) w fun _ _ => True := by
    rintro ⟨a, u, hsome, -⟩
    exact absurd (h.symm.trans hsome) (Option.some_ne_none _).symm
  cases label with
  | noop | putc | puts | el1Fault =>
    simp only [vmmHandleHypcall, ends_pure, not_true_eq_false] at hends
  | getSel4CallEndStamp | getSel4ReplyStartStamp =>
    simp only [vmmHandleHypcall, readCcnt, ends_bind, ends_get, ends_set, ends_modify, ends_pure,
      not_true_eq_false] at hends
  | exitThread =>
    simp only [vmmHandleHypcall, ends_bind, ends_get, ends_set, ends_pure,
      not_true_eq_false] at hends
  | bmReportEndResults =>
    simp only [vmmHandleHypcall, ends_bind, ends_get, ends_cAssert, ends_pure, and_true,
      not_lt] at hends
    exact .inl ⟨rfl, hends⟩
  | bmReportDeepResults =>
    simp only [vmmHandleHypcall, ends_bind, ends_get, ends_set, cIndex, ends_cAssert, ends_pure,
      and_true] at hends
    exact .inr ⟨rfl, hends⟩

/-! ### The invariant -/

/-- The monitor is not at work for the guest. -/
def Exchange.Idle : Exchange → Prop
  | .received _ | .handled _ => False
  | _ => True

def Exchange.isExited : Exchange → Bool
  | .exited => true
  | _ => false

/-- The guests that have exited. -/
def exitedCount (n : ℕ) (x : ℕ → Exchange) : ℕ :=
  ((Finset.Icc 1 n).filter fun g => (x g).isExited = true).card

section ExitedCount

variable {x : ℕ → Exchange} {g : ℕ} {e : Exchange}

theorem exitedCount_update (h : (x g).isExited = false) (he : e.isExited = false) :
    exitedCount n (Function.update x g e) = exitedCount n x := by
  refine congrArg Finset.card (Finset.filter_congr fun g' _ => ?_)
  by_cases hg : g' = g
  · subst hg
    rw [Function.update_self, h, he]
  · rw [Function.update_of_ne hg]

theorem exitedCount_update_exited (hg : g ∈ Finset.Icc 1 n) (h : (x g).isExited = false) :
    exitedCount n (Function.update x g .exited) = exitedCount n x + 1 := by
  have hfilter : (Finset.Icc 1 n).filter (fun g' => (Function.update x g .exited g').isExited =
      true) = insert g ((Finset.Icc 1 n).filter fun g' => (x g').isExited = true) := by
    ext g'
    by_cases hg' : g' = g
    · subst hg'
      have hself : (Function.update x g' .exited g').isExited = true := by
        rw [Function.update_self]
        rfl
      rw [Finset.mem_filter]
      exact ⟨fun _ => Finset.mem_insert_self _ _, fun _ => ⟨hg, hself⟩⟩
    · simp [hg']
  rw [exitedCount, hfilter, Finset.card_insert_of_notMem (by simp [h]), exitedCount]

/-- When all guests have been counted, all have exited. -/
theorem exited_of_exitedCount (h : exitedCount n x = n) (hg : 1 ≤ g ∧ g ≤ n) : x g = .exited := by
  have hcard : (Finset.Icc 1 n).card ≤
      ((Finset.Icc 1 n).filter fun g => (x g).isExited = true).card := by
    rw [Nat.card_Icc, Nat.add_sub_cancel]
    exact h.ge
  have hmem := Finset.mem_Icc.mpr hg
  rw [← Finset.eq_of_subset_of_card_le (Finset.filter_subset _ _) hcard, Finset.mem_filter] at hmem
  have hexited := hmem.2
  cases hx : x g with
  | exited => rfl
  | running | calling | received | handled | stopped =>
    rw [hx] at hexited
    exact absurd hexited nofun

end ExitedCount

namespace Monitor

/-- The history of a guest. -/
def hist (log : List (ℕ × Incident)) (g : ℕ) : List Incident :=
  log.filterMap fun x => if x.1 = g then some x.2 else none

theorem hist_append (log : List (ℕ × Incident)) (g g' : ℕ) (i : Incident) :
    hist (log ++ [(g, i)]) g' = if g = g' then hist log g' ++ [i] else hist log g' := by
  by_cases h : g = g' <;> simp [hist, h]

/-- The monitor is at work for no guest, and has not counted `k` of the guests that have exited. -/
structure Free (n k : ℕ) (s : Monitor) : Prop where
  idle : ∀ g, (s.exchange g).Idle
  exited : s.nGuestsExited + k = exitedCount n s.exchange

/-- The monitor is at work for the guest `g`. -/
structure Serving (n g : ℕ) (e : Exchange) (s : Monitor) : Prop where
  exchange : s.exchange g = e
  others : ∀ g' ≠ g, (s.exchange g').Idle
  exited : s.nGuestsExited = exitedCount n s.exchange

/-- The exit status in an incident. -/
def exitOf : Incident → Option (BitVec 32)
  | .handled m mr _ => if m.IsExit then some ((mr 1).setWidth 32) else none
  | _ => none

/-- The exit status that the guest has given, or zero. -/
def exitStatusOf (l : List Incident) : BitVec 32 := (l.filterMap exitOf).getLast?.getD 0

theorem exitStatusOf_append_of_none {l : List Incident} {i : Incident} (hi : exitOf i = none) :
    exitStatusOf (l ++ [i]) = exitStatusOf l := by
  rw [exitStatusOf, Trace.filterMap_concat, hi, Option.toList_none, List.append_nil, exitStatusOf]

theorem exitStatusOf_append_of_some {l : List Incident} {i : Incident} {status : BitVec 32}
    (hi : exitOf i = some status) : exitStatusOf (l ++ [i]) = status := by
  rw [exitStatusOf, Trace.filterMap_concat, hi, Option.toList_some, List.getLast?_concat,
    Option.getD_some]

/-- What holds at a place of the main loop. The slot for the reply capability is empty when the
monitor receives. -/
def AtControl (P : Platform) (n : ℕ) (s : Monitor) : Control → Prop
  | .recv => s.caller = none ∧ s.replySlot = none ∧ s.Free n 0
  | .save m => s.caller = some (guestId m.badge) ∧ s.replySlot = none ∧
    s.Serving n (guestId m.badge) (.received m) ∧ m.Carried s.world.vmmMr
  | .handle m => s.caller = none ∧ s.replySlot = some (guestId m.badge) ∧
    s.Serving n (guestId m.badge) (.received m) ∧ m.Carried s.world.vmmMr
  | .delete => s.caller = none ∧ s.Free n 1
  | .send label length => s.caller = none ∧ ∃ g m, s.replySlot = some g ∧
    s.Serving n g (.handled m) ∧ (¬m.IsExit ∧ m.Answer label length) ∧
    ∃ mr reads, (hist s.log g).getLast? = some (.handled m mr reads) ∧
      s.world.vmmMr = m.replyMr P mr reads
  | .finished status => s.Free n 0 ∧ s.nGuestsExited = n ∧ status = finishStatus n s.exitstatus
  | .aborted => ∃ g m, s.exchange g = .received m ∧ ¬m.IsFault ∧ m.Carried s.world.vmmMr ∧
    (Hypcall.ofLabel m.label).Invalid P s.world.vmmMr
  | .returned | .capFault => False

/-- What the log says about the world. -/
structure Logged (P : Platform) (world : World) (log : List (ℕ × Incident)) (w : World) : Prop where
  results : w.results = (reports log).foldl Report.store world.results
  valid : ∀ r ∈ reports log, r.Valid P
  reads : readings log = List.range' world.ccntReads (readings log).length
  ccntReads : w.ccntReads = world.ccntReads + (readings log).length

/-- The invariant of the main loop. -/
structure Inv (P : Platform) (n : ℕ) (world : World) (s : Monitor) : Prop where
  session : ∀ g, Session P g (hist s.log g) (s.exchange g)
  guests : ∀ g, s.exchange g ≠ .running → 1 ≤ g ∧ g ≤ n
  control : s.AtControl P n s.control
  logged : Logged P world s.log s.world
  status : ∀ g, s.exitstatus g = exitStatusOf (hist s.log g)
  /-- The loop has ended when all guests have been counted. -/
  counted : (∀ status, s.control ≠ .finished status) → 0 < n → s.nGuestsExited ≠ n

section Step

variable {world : World} {s s' : Monitor} {g : ℕ} {m : Message}

/-- The history and the exchange of one guest change. -/
theorem Inv.session_update (h : Inv P n world s) {e : Exchange} {i : Incident}
    (hs : Session P g (hist s.log g ++ [i]) e) (g' : ℕ) :
    Session P g' (hist (s.log ++ [(g, i)]) g') (Function.update s.exchange g e g') := by
  rw [hist_append]
  by_cases hg : g' = g
  · subst hg
    rwa [if_pos rfl, Function.update_self]
  · rw [if_neg (Ne.symm hg), Function.update_of_ne hg]
    exact h.session g'

theorem Inv.guests_update (h : Inv P n world s) (hg : 1 ≤ g ∧ g ≤ n) (e : Exchange) (g' : ℕ)
    (hne : Function.update s.exchange g e g' ≠ .running) : 1 ≤ g' ∧ g' ≤ n := by
  by_cases heq : g' = g
  · exact heq ▸ hg
  · rw [Function.update_of_ne heq] at hne
    exact h.guests g' hne

theorem reports_append (log : List (ℕ × Incident)) (g : ℕ) (i : Incident) :
    reports (log ++ [(g, i)]) = reports log ++ i.report.toList :=
  Trace.filterMap_concat _ _ _

theorem readings_append (log : List (ℕ × Incident)) (g : ℕ) (i : Incident) :
    readings (log ++ [(g, i)]) = readings log ++ i.reading.toList :=
  Trace.filterMap_concat _ _ _

/-- An incident that is no report and no reading. -/
theorem Logged.append {log : List (ℕ × Incident)} {w w' : World} (h : Logged P world log w)
    {i : Incident} (hreport : i.report = none) (hreading : i.reading = none)
    (hresults : w'.results = w.results) (hreads : w'.ccntReads = w.ccntReads) :
    Logged P world (log ++ [(g, i)]) w' := by
  have hreports : reports (log ++ [(g, i)]) = reports log := by
    rw [reports_append, hreport, Option.toList_none, List.append_nil]
  have hreadings : readings (log ++ [(g, i)]) = readings log := by
    rw [readings_append, hreading, Option.toList_none, List.append_nil]
  constructor
  · rw [hreports, hresults]
    exact h.results
  · rw [hreports]
    exact h.valid
  · rw [hreadings]
    exact h.reads
  · rw [hreadings, hreads]
    exact h.ccntReads

theorem Inv.status_append (h : Inv P n world s) {i : Incident} (hi : exitOf i = none) (g' : ℕ) :
    s.exitstatus g' = exitStatusOf (hist (s.log ++ [(g, i)]) g') := by
  rw [hist_append, h.status]
  split_ifs
  · exact (exitStatusOf_append_of_none hi).symm
  · rfl

theorem Free.update {k : ℕ} (h : s.Free n k) {e : Exchange} (he : e.Idle) {x : ℕ → Exchange}
    (hx : x = Function.update s.exchange g e)
    (hcount : exitedCount n x = exitedCount n s.exchange) :
    (∀ g', (x g').Idle) ∧ s.nGuestsExited + k = exitedCount n x := by
  refine ⟨fun g' => ?_, h.exited.trans hcount.symm⟩
  rw [hx]
  by_cases hg : g' = g
  · subst hg
    rwa [Function.update_self]
  · rw [Function.update_of_ne hg]
    exact h.idle g'

theorem Serving.update {e e' : Exchange} {g' : ℕ} (h : s.Serving n g e) (hne : g' ≠ g)
    (he : e'.Idle) {x : ℕ → Exchange} (hx : x = Function.update s.exchange g' e')
    (hcount : exitedCount n x = exitedCount n s.exchange) :
    x g = e ∧ (∀ u ≠ g, (x u).Idle) ∧ s.nGuestsExited = exitedCount n x := by
  refine ⟨?_, fun u hu => ?_, h.exited.trans hcount.symm⟩
  · rw [hx, Function.update_of_ne hne.symm]
    exact h.exchange
  · rw [hx]
    by_cases hug : u = g'
    · subst hug
      rwa [Function.update_self]
    · rw [Function.update_of_ne hug]
      exact h.others u hu

/-- A guest sends a message, wherever the monitor is. -/
theorem atControl_deliver (h : s.AtControl P n s.control) (hg : s.exchange g = .running)
    (m : Message) : (s.deliver g m).AtControl P n s.control := by
  have hcount : exitedCount n (Function.update s.exchange g (.calling m)) =
      exitedCount n s.exchange := exitedCount_update (by rw [hg]; rfl) rfl
  have hfree : ∀ {k}, s.Free n k → (s.deliver g m).Free n k := fun hf =>
    have h := hf.update (g := g) (e := .calling m) trivial rfl hcount
    ⟨h.1, h.2⟩
  have hserving : ∀ {g' e}, s.Serving n g' e → e ≠ .running → (s.deliver g m).Serving n g' e := by
    intro g' e hs he
    have hne : g ≠ g' := by
      rintro rfl
      exact he (hs.exchange.symm.trans hg)
    have hidle : (Exchange.calling m).Idle := trivial
    obtain ⟨hexchange, hothers, hexited⟩ := hs.update hne hidle rfl hcount
    exact ⟨hexchange, hothers, hexited⟩
  cases hc : s.control with
  | recv =>
    rw [hc] at h
    exact ⟨h.1, h.2.1, hfree h.2.2⟩
  | save | handle =>
    rw [hc] at h
    exact ⟨h.1, h.2.1, hserving h.2.2.1 (by simp), h.2.2.2⟩
  | delete =>
    rw [hc] at h
    exact ⟨h.1, hfree h.2⟩
  | send label length =>
    rw [hc] at h
    obtain ⟨hcaller, g', m', hslot, hs, ha, mr, reads, hlast, hmr⟩ := h
    have hne : g ≠ g' := by
      rintro rfl
      exact absurd (hs.exchange.symm.trans hg) (by simp)
    refine ⟨hcaller, g', m', hslot, hserving hs (by simp), ha, mr, reads, ?_, hmr⟩
    change (hist (s.log ++ [(g, .sent m)]) g').getLast? = _
    rwa [hist_append, if_neg hne]
  | finished status =>
    rw [hc] at h
    exact ⟨hfree h.1, h.2⟩
  | aborted =>
    rw [hc] at h
    obtain ⟨g', m', hexchange, hinvalid⟩ := h
    have hne : g' ≠ g := by
      rintro rfl
      exact absurd (hexchange.symm.trans hg) (by simp)
    exact ⟨g', m', (Function.update_of_ne hne ..).trans hexchange, hinvalid⟩
  | returned | capFault =>
    rw [hc] at h
    exact h.elim

theorem Inv.deliver (h : Inv P n world s) (hg : 1 ≤ g ∧ g ≤ n) (hr : s.exchange g = .running)
    (hm : m.IsFrom g) : Inv P n world (s.deliver g m) where
  session := h.session_update ((hr ▸ h.session g).send hm)
  guests := h.guests_update hg _
  control := atControl_deliver h.control hr m
  logged := h.logged.append rfl rfl rfl rfl
  status := h.status_append rfl
  counted := h.counted

theorem Inv.receive (hn : n ≤ maxNGuests) (h : Inv P n world s) (hc : s.control = .recv)
    (hg : s.exchange g = .calling m) (others : ℕ → Word) :
    Inv P n world (s.receive g m others) := by
  have hcontrol := h.control
  rw [hc] at hcontrol
  obtain ⟨-, hslot, hidle, hexited⟩ := hcontrol
  have hsession : Session P g (hist s.log g) (.calling m) := hg ▸ h.session g
  have hrange := h.guests g (by simp [hg])
  have hid : guestId m.badge = g := hsession.isFrom_of_calling.guestId (hrange.2.trans hn)
  refine ⟨fun g' => ?_, h.guests_update hrange _, ?_, ⟨h.logged.results, h.logged.valid,
    h.logged.reads, h.logged.ccntReads⟩, h.status, fun _ => h.counted (by simp [hc])⟩
  · by_cases hg' : g' = g
    · subst hg'
      change Session P g' (hist s.log g') (Function.update s.exchange g' (.received m) g')
      rw [Function.update_self]
      exact hsession.receive
    · change Session P g' (hist s.log g') (Function.update s.exchange g (.received m) g')
      rw [Function.update_of_ne hg']
      exact h.session g'
  · change s.receive g m others |>.AtControl P n (.save m)
    rw [AtControl, hid]
    refine ⟨rfl, hslot, ⟨Function.update_self .., fun g' hg' => ?_, hexited.trans ?_⟩,
      fun i hi => if_pos hi⟩
    · change (Function.update s.exchange g (.received m) g').Idle
      rw [Function.update_of_ne hg']
      exact hidle g'
    · exact (exitedCount_update (by rw [hg]; rfl) rfl).symm

theorem Inv.save (h : Inv P n world s) (hc : s.control = .save m) : Inv P n world
    { s with control := .handle m, caller := none, replySlot := s.caller } := by
  have hcontrol := h.control
  rw [hc] at hcontrol
  obtain ⟨hcaller, -, hserving, hcarried⟩ := hcontrol
  exact ⟨h.session, h.guests,
    ⟨rfl, hcaller, ⟨hserving.exchange, hserving.others, hserving.exited⟩, hcarried⟩,
    h.logged, h.status, fun _ => h.counted (by simp [hc])⟩

theorem Inv.handling (hn : n ≤ maxNGuests) (h : Inv P n world s) (hc : s.control = .handle m) :
    s.caller = none ∧ s.replySlot = some (guestId m.badge) ∧
      s.Serving n (guestId m.badge) (.received m) ∧
      (1 ≤ guestId m.badge ∧ guestId m.badge ≤ n) ∧
      (¬m.IsFault → m.badge.toNat = guestId m.badge) ∧ m.Carried s.world.vmmMr ∧
      Session P (guestId m.badge) (hist s.log (guestId m.badge)) (.received m) := by
  have hcontrol := h.control
  rw [hc] at hcontrol
  obtain ⟨hcaller, hslot, hserving, hcarried⟩ := hcontrol
  have hsession := h.session (guestId m.badge)
  rw [hserving.exchange] at hsession
  have hrange := h.guests (guestId m.badge) (by simp [hserving.exchange])
  exact ⟨hcaller, hslot, hserving, hrange,
    hsession.isFrom_of_received.badge_of_not_isFault (hrange.2.trans hn), hcarried, hsession⟩

/-- The guests after a message has been handled. -/
theorem Serving.note (h : s.Serving n (guestId m.badge) (.received m)) :
    (s.note m).Serving n (guestId m.badge) (.handled m) := by
  refine ⟨Function.update_self .., fun g' hg' => ?_, h.exited.trans ?_⟩
  · change (Function.update s.exchange (guestId m.badge) (.handled m) g').Idle
    rw [Function.update_of_ne hg']
    exact h.others g' hg'
  · exact (exitedCount_update (by rw [h.exchange]; rfl) rfl).symm

/-- The last incident of a guest whose message has been handled. -/
theorem getLast_hist_note (m : Message) : (hist (s.note m).log (guestId m.badge)).getLast? =
    some (.handled m s.world.vmmMr s.world.ccntReads) := by
  change (hist (s.log ++ [_]) (guestId m.badge)).getLast? = _
  rw [hist_append, if_pos rfl, List.getLast?_concat]

theorem Inv.handleFault (hn : n ≤ maxNGuests) (h : Inv P n world s) (hc : s.control = .handle m)
    (hm : m.IsFault) : Inv P n world { s.note m with control := .send 1 0 } := by
  obtain ⟨hcaller, hslot, hserving, hrange, -, hcarried, hsession⟩ := h.handling hn hc
  have hnote := hserving.note
  have hx : ¬m.IsExit := fun hx => hx.1 hm
  have hstamp : ¬m.AsksStamp := fun hs => hs.1 hm
  refine ⟨h.session_update (hsession.handle hcarried _), h.guests_update hrange _,
    ⟨hcaller, _, m, hslot, ⟨hnote.exchange, hnote.others, hnote.exited⟩, ⟨hx, ?_⟩, _, _,
      getLast_hist_note m, (if_neg hstamp).symm⟩,
    h.logged.append (if_neg fun hnot => hnot.1 hm) (if_neg hstamp) rfl rfl,
    h.status_append (if_neg hx), fun _ => h.counted (by simp [hc])⟩
  rw [Message.Answer, if_pos hm]
  exact ⟨rfl, rfl⟩

/-- What a hypercall does that is completed. -/
theorem hypcall_spec {length : ℕ} {w : World} (h : s.hypcall P m = some (length, w)) :
    (Hypcall.ofLabel m.label).Completed P
      { s.world with exitStatus := some (s.exitstatus m.badge.toNat) } length w := by
  rw [hypcall] at h
  split_ifs at h
  exact vmmHandleHypcall_spec h

theorem Inv.logged_handled (h : Inv P n world s) (hm : ¬m.IsFault) {length : ℕ} {w : World}
    (hcall : s.hypcall P m = some (length, w)) : Logged P world (s.handled m w).log w := by
  have hspec := hypcall_spec hcall
  change Logged P world
    (s.log ++ [(guestId m.badge, .handled m s.world.vmmMr s.world.ccntReads)]) w
  have hreport : (Incident.handled m s.world.vmmMr s.world.ccntReads).report =
      if Hypcall.ofLabel m.label = .bmReportDeepResults then some (.ofMr s.world.vmmMr)
      else none := if_congr (and_iff_right hm) rfl rfl
  have hreading : (Incident.handled m s.world.vmmMr s.world.ccntReads).reading =
      if (Hypcall.ofLabel m.label).replyLength = 1 then some s.world.ccntReads else none :=
    if_congr (and_iff_right hm) rfl rfl
  constructor
  case results =>
    rw [reports_append, List.foldl_append, ← h.logged.results, hspec.results, hreport]
    split_ifs <;> rfl
  case valid =>
    rw [reports_append, hreport, List.forall_mem_append]
    refine ⟨h.logged.valid, fun r hr => ?_⟩
    split_ifs at hr with hdeep
    · obtain rfl := List.mem_singleton.mp hr
      exact hspec.valid hdeep
    · exact absurd hr List.not_mem_nil
  case reads =>
    rw [readings_append, hreading]
    split_ifs
    · rw [Option.toList_some, List.length_append, List.length_singleton, List.range'_1_concat,
        ← h.logged.reads, h.logged.ccntReads]
    · rw [Option.toList_none, List.append_nil]
      exact h.logged.reads
  case ccntReads =>
    rw [readings_append, hreading, hspec.ccntReads, List.length_append, ← Nat.add_assoc]
    refine congrArg₂ (· + ·) h.logged.ccntReads ?_
    cases Hypcall.ofLabel m.label <;> rfl

theorem Inv.status_handled (h : Inv P n world s) (hm : ¬m.IsFault)
    (hbadge : m.badge.toNat = guestId m.badge) {length : ℕ} {w : World}
    (hcall : s.hypcall P m = some (length, w)) (g : ℕ) :
    (s.handled m w).exitstatus g = exitStatusOf (hist (s.handled m w).log g) := by
  have hstatus : w.exitStatus = some (if Hypcall.ofLabel m.label = .exitThread then
      (s.world.vmmMr 1).setWidth 32 else s.exitstatus m.badge.toNat) := by
    rw [(hypcall_spec hcall).exitStatus]
    split_ifs <;> rfl
  change Function.update s.exitstatus m.badge.toNat
    (w.exitStatus.getD (s.exitstatus m.badge.toNat)) g =
      exitStatusOf (hist (s.log ++
        [(guestId m.badge, .handled m s.world.vmmMr s.world.ccntReads)]) g)
  rw [hbadge, hist_append, hstatus, Option.getD_some]
  by_cases hg : g = guestId m.badge
  · subst hg
    rw [Function.update_self, if_pos rfl]
    by_cases hexit : Hypcall.ofLabel m.label = .exitThread
    · rw [if_pos hexit]
      exact (exitStatusOf_append_of_some (i := .handled m s.world.vmmMr s.world.ccntReads)
        (if_pos ⟨hm, hexit⟩)).symm
    · rw [if_neg hexit, hbadge, h.status]
      exact (exitStatusOf_append_of_none (i := .handled m s.world.vmmMr s.world.ccntReads)
        (if_neg fun hx => hexit hx.2)).symm
  · rw [Function.update_of_ne hg, if_neg (Ne.symm hg)]
    exact h.status g

theorem Inv.handleHypcall (hn : n ≤ maxNGuests) (h : Inv P n world s) (hc : s.control = .handle m)
    (hm : ¬m.IsFault) (hx : ¬m.IsExit) {length : ℕ} {w : World}
    (hcall : s.hypcall P m = some (length, w)) :
    Inv P n world { s.handled m w with control := .send m.label length } := by
  obtain ⟨hcaller, hslot, hserving, hrange, hbadge, hcarried, hsession⟩ := h.handling hn hc
  have hnote := hserving.note
  have hspec := hypcall_spec hcall
  refine ⟨h.session_update (hsession.handle hcarried _), h.guests_update hrange _,
    ⟨hcaller, _, m, hslot, ⟨hnote.exchange, hnote.others, hnote.exited⟩, ⟨hx, ?_⟩, _, _,
      getLast_hist_note m, ?_⟩,
    h.logged_handled hm hcall, h.status_handled hm (hbadge hm) hcall,
    fun _ => h.counted (by simp [hc])⟩
  · rw [Message.Answer, if_neg hm]
    exact ⟨rfl, hspec.length⟩
  · exact hspec.vmmMr.trans (if_congr (and_iff_right hm).symm rfl rfl)

theorem Inv.handleExit (hn : n ≤ maxNGuests) (h : Inv P n world s) (hc : s.control = .handle m)
    (hx : m.IsExit) {length : ℕ} {w : World} {slot : Option ℕ}
    (hcall : s.hypcall P m = some (length, w)) :
    Inv P n world { s.handled m w with
      exchange := Function.update s.exchange m.badge.toNat .exited
      control := .delete
      replySlot := slot } := by
  obtain ⟨hcaller, -, hserving, hrange, hbadge, hcarried, hsession⟩ := h.handling hn hc
  rw [hbadge hx.1]
  refine ⟨h.session_update ((hsession.handle hcarried _).exit hx), h.guests_update hrange _,
    ⟨hcaller, fun g => ?_, ?_⟩, h.logged_handled hx.1 hcall,
    h.status_handled hx.1 (hbadge hx.1) hcall, fun _ => h.counted (by simp [hc])⟩
  · change (Function.update s.exchange (guestId m.badge) .exited g).Idle
    by_cases hg : g = guestId m.badge
    · subst hg
      rw [Function.update_self]
      trivial
    · rw [Function.update_of_ne hg]
      exact hserving.others g hg
  · refine (congrArg (· + 1) hserving.exited).trans (exitedCount_update_exited ?_ ?_).symm
    · exact Finset.mem_Icc.mpr hrange
    · rw [hserving.exchange]
      rfl

/-- The monitor does not complete a hypercall. -/
theorem Inv.handleAborted (hn : n ≤ maxNGuests) (h : Inv P n world s) (hc : s.control = .handle m)
    (hm : ¬m.IsFault) (hcall : s.hypcall P m = none) :
    Inv P n world { s with control := .aborted } := by
  obtain ⟨-, -, hserving, hrange, hbadge, hcarried, -⟩ := h.handling hn hc
  refine ⟨h.session, h.guests, ⟨_, m, hserving.exchange, hm, hcarried, ?_⟩, h.logged, h.status,
    fun _ => h.counted (by simp [hc])⟩
  have hzero : m.badge ≠ 0 := by
    intro hzero
    have hnat := hbadge hm
    rw [hzero] at hnat hrange
    rw [← hnat] at hrange
    exact absurd hrange.1 (by decide)
  rw [hypcall, if_neg hzero] at hcall
  have hinvalid := vmmHandleHypcall_of_none hcall
  exact hinvalid

/-- The monitor clears the slot and counts the guest. -/
theorem Inv.delete (h : Inv P n world s) (hc : s.control = .delete) :
    Inv P n world { s with
      replySlot := none
      nGuestsExited := s.nGuestsExited + 1
      control := if s.nGuestsExited + 1 = n then .finished (finishStatus n s.exitstatus)
        else .recv } := by
  have hcontrol := h.control
  rw [hc] at hcontrol
  obtain ⟨hcaller, hidle, hexited⟩ := hcontrol
  refine ⟨h.session, h.guests, ?_, h.logged, h.status, fun hfinished _ => ?_⟩
  · by_cases hlast : s.nGuestsExited + 1 = n
    · simp only [if_pos hlast]
      exact ⟨⟨hidle, hexited⟩, hlast, rfl⟩
    · simp only [if_neg hlast]
      exact ⟨hcaller, rfl, hidle, hexited⟩
  · intro hlast
    exact hfinished _ (if_pos hlast)

theorem Inv.send (h : Inv P n world s) {label : Word} {length : ℕ} {e : Exchange}
    (hc : s.control = .send label length) (hslot : s.replySlot = some g)
    (he : e = .running ∨ e = .stopped) :
    Inv P n world { s with
      exchange := Function.update s.exchange g e
      replySlot := none
      control := .recv
      log := s.log ++ [(g, .replied label length s.world.vmmMr)] } := by
  have hcontrol := h.control
  rw [hc] at hcontrol
  obtain ⟨hcaller, g', m', hslot', hserving, ⟨hx, ha⟩, mr, reads, hlast, hmr⟩ := hcontrol
  obtain rfl : g = g' := Option.some.inj (hslot.symm.trans hslot')
  have hsession := h.session g
  rw [hserving.exchange] at hsession
  have hrange := h.guests g (by simp [hserving.exchange])
  have hreply := hsession.reply hx ha hlast he
  rw [← hmr] at hreply
  refine ⟨h.session_update hreply, h.guests_update hrange _,
    ⟨hcaller, rfl, fun u => ?_, ?_⟩, h.logged.append rfl rfl rfl rfl, h.status_append rfl,
    fun _ => h.counted (by simp [hc])⟩
  · change (Function.update s.exchange g e u).Idle
    by_cases hu : u = g
    · subst hu
      rw [Function.update_self]
      obtain rfl | rfl := he <;> trivial
    · rw [Function.update_of_ne hu]
      exact hserving.others u hu
  · refine hserving.exited.trans (exitedCount_update ?_ ?_).symm
    · rw [hserving.exchange]
      rfl
    · obtain rfl | rfl := he <;> rfl

theorem inv_step (hn : n ≤ maxNGuests) (h : Inv P n world s) (hstep : Step P n s s') :
    Inv P n world s' := by
  cases hstep with
  | call hg hr label length mr => exact h.deliver hg hr (.inl rfl)
  | fault hg hr label length mr => exact h.deliver hg hr (.inr rfl)
  | recv hc hg others => exact h.receive hn hc hg others
  | save hc => exact h.save hc
  | saveFailed hc hslot =>
    have hcontrol := h.control
    rw [hc] at hcontrol
    exact absurd (hslot.symm.trans hcontrol.2.1) (Option.some_ne_none _)
  | handleFault hc hm => exact h.handleFault hn hc hm
  | handleHypcall hc hm hx hcall => exact h.handleHypcall hn hc hm hx hcall
  | handleExit hc hx hcall => exact h.handleExit hn hc hx hcall
  | handleAborted hc hm hcall => exact h.handleAborted hn hc hm hcall
  | delete hc => exact h.delete hc
  | send hc hslot hg he => exact h.send hc hslot (he.imp_right fun he => he.2)
  | sendInvalid hc hslot =>
    have hcontrol := h.control
    rw [hc] at hcontrol
    obtain ⟨-, g, m, hsome, -⟩ := hcontrol
    exact absurd (hsome.symm.trans hslot) (Option.some_ne_none _)

end Step

theorem inv_init (hn : n ≤ maxNGuests) (world : World) : Inv P n world (init n world) := by
  have hcontrol : (init n world).control = .recv := if_neg (by omega)
  refine ⟨fun _ => .nil, fun _ h => absurd rfl h, ?_, ⟨rfl, List.forall_mem_nil _, rfl, rfl⟩,
    fun _ => rfl, fun _ hpos => hpos.ne⟩
  rw [hcontrol]
  refine ⟨rfl, rfl, fun _ => trivial, ?_⟩
  exact (Finset.card_eq_zero.mpr (Finset.filter_eq_empty_iff.mpr fun _ _ => nofun)).symm

theorem inv_of_reachable (hn : n ≤ maxNGuests) {world : World} {s : Monitor}
    (h : Reachable P n world s) : Inv P n world s := by
  induction h with
  | refl => exact inv_init hn world
  | tail _ hstep ih => exact inv_step hn ih hstep

/-! ### Progress -/

section Progress

variable {world : World} {s : Monitor}

/-- Until the monitor has finished or an assertion has failed a step is possible, unless the monitor
waits for a guest that the kernel has not resumed after a fault. -/
theorem exists_step (h : Inv P n world s)
    (hfinished : ∀ status, s.control ≠ .finished status) (haborted : s.control ≠ .aborted) :
    (∃ s', Step P n s s') ∨ s.control = .recv ∧
      (∀ g, 1 ≤ g ∧ g ≤ n → s.exchange g = .stopped ∨ s.exchange g = .exited) ∧
      (0 < n → ∃ g, s.exchange g = .stopped) := by
  have hcontrol := h.control
  cases hc : s.control with
  | recv =>
    rw [hc] at hcontrol
    obtain ⟨-, -, hidle, hexited⟩ := hcontrol
    by_cases hall : ∀ g, 1 ≤ g ∧ g ≤ n → s.exchange g = .stopped ∨ s.exchange g = .exited
    · refine .inr ⟨rfl, hall, fun hpos => ?_⟩
      by_contra hnone
      -- All guests have exited, so the monitor has counted them.
      have hcard : exitedCount n s.exchange = n := by
        have hfilter : (Finset.Icc 1 n).filter (fun g => (s.exchange g).isExited = true) =
            Finset.Icc 1 n := by
          refine Finset.filter_true_of_mem fun g hg => ?_
          have hx := (hall g (Finset.mem_Icc.mp hg)).resolve_left fun hs => hnone ⟨g, hs⟩
          rw [hx]
          rfl
        rw [exitedCount, hfilter, Nat.card_Icc, Nat.add_sub_cancel]
      exact h.counted hfinished hpos (hexited.trans hcard)
    · push Not at hall
      obtain ⟨g, hg, hstopped, hexit⟩ := hall
      cases hx : s.exchange g with
      | running => exact .inl ⟨_, .call hg hx 0 0 fun _ => 0⟩
      | calling m => exact .inl ⟨_, .recv hc hx fun _ => 0⟩
      | received | handled =>
        have := hidle g
        rw [hx] at this
        exact this.elim
      | stopped => exact absurd hx hstopped
      | exited => exact absurd hx hexit
  | save m =>
    rw [hc] at hcontrol
    exact .inl ⟨_, .save hc hcontrol.2.1⟩
  | handle m =>
    by_cases hm : m.IsFault
    · exact .inl ⟨_, .handleFault hc hm⟩
    · cases hcall : s.hypcall P m with
      | none => exact .inl ⟨_, .handleAborted hc hm hcall⟩
      | some r =>
        by_cases hx : m.IsExit
        · exact .inl ⟨_, .handleExit hc hx hcall (.inr rfl)⟩
        · exact .inl ⟨_, .handleHypcall hc hm hx hcall⟩
  | delete => exact .inl ⟨_, .delete hc⟩
  | send label length =>
    rw [hc] at hcontrol
    obtain ⟨-, g, m, hslot, hserving, -⟩ := hcontrol
    exact .inl ⟨_, .send hc hslot hserving.exchange (.inl rfl)⟩
  | finished status => exact absurd hc (hfinished status)
  | aborted => exact absurd hc haborted
  | returned | capFault =>
    rw [hc] at hcontrol
    exact hcontrol.elim

end Progress

end Monitor

/-- **The monitor serves its guests.** For any number of guests up to the limit, whatever hypercalls
they make and faults they have, and in any order: the monitor never fails to save a reply capability
and never sends to an empty slot; every message of a guest is handled once, with the registers that
it has transferred, and answered once before the guest sends the next one, a hypercall with its own
label and the length of its result, and only a call to exit is never answered. Every hypercall that
asks for a stamp gets the next reading of the cycle counter. A slot of the results holds what was
reported last about it, which is what the guest has transferred with a message of four registers,
with the elapsed time of this report; what no report is about is unchanged, and every report is
about an element of the results. The monitor only aborts for a report about no such element. When it
finishes all guests have exited, and its status is the first one of theirs that is not zero; until
then it goes on, unless it waits for a guest that the kernel has not resumed after a fault. -/
theorem monitor_sessions (hn : n ≤ maxNGuests) (world : World) {s : Monitor}
    (h : s.Reachable P n world) :
    s.control ≠ .returned ∧ s.control ≠ .capFault ∧
      (∀ g, Session P g (Monitor.hist s.log g) (s.exchange g)) ∧
      readings s.log = List.range' world.ccntReads (readings s.log).length ∧
      (∀ bm idx, (s.world.results bm).slot idx = ((lastReport bm idx (reports s.log)).map
        Report.slot).getD ((world.results bm).slot idx)) ∧
      (∀ r ∈ reports s.log, r.Valid P) ∧
      (∀ g m mr reads, (g, .handled m mr reads) ∈ s.log → 4 ≤ m.length →
        m.report mr = m.report m.mr) ∧
      (s.control = .aborted → ∃ g m, s.exchange g = .received m ∧ ¬m.IsFault ∧
        m.Carried s.world.vmmMr ∧ (Hypcall.ofLabel m.label).Invalid P s.world.vmmMr) ∧
      (∀ status, s.control = .finished status →
        (∀ g, 1 ≤ g ∧ g ≤ n → s.exchange g = .exited) ∧
        status = Monitor.finishStatus n fun g => Monitor.exitStatusOf (Monitor.hist s.log g)) ∧
      ((∀ status, s.control ≠ .finished status) → s.control ≠ .aborted →
        (∃ s', s.Step P n s') ∨ s.control = .recv ∧
          (∀ g, 1 ≤ g ∧ g ≤ n → s.exchange g = .stopped ∨ s.exchange g = .exited) ∧
          (0 < n → ∃ g, s.exchange g = .stopped)) := by
  have hinv := Monitor.inv_of_reachable hn h
  have hcontrol := hinv.control
  refine ⟨fun hc => ?_, fun hc => ?_, hinv.session, hinv.logged.reads, fun bm idx => ?_,
    hinv.logged.valid, fun g m mr reads hmem hlength => ?_, fun hc => ?_, fun status hc => ?_,
    Monitor.exists_step hinv⟩
  · rw [hc] at hcontrol
    exact hcontrol
  · rw [hc] at hcontrol
    exact hcontrol
  · rw [hinv.logged.results, foldl_store_slot]
  · have hhist : .handled m mr reads ∈ Monitor.hist s.log g :=
      List.mem_filterMap.mpr ⟨_, hmem, if_pos rfl⟩
    exact ((hinv.session g).carried hhist).report hlength
  · rw [hc] at hcontrol
    exact hcontrol
  · rw [hc] at hcontrol
    obtain ⟨⟨-, hexited⟩, hcount, rfl⟩ := hcontrol
    refine ⟨fun g hg => exited_of_exitedCount (hexited.symm.trans hcount) hg, ?_⟩
    rw [funext hinv.status]

/-- A guest that reports a measurement and exits with the status 7 ends the monitor with this
status, and the results have the measurement. -/
theorem monitor_sessions_exit : ∃ s : Monitor, s.Reachable everyFive 1 World.blank ∧
    s.control = .finished 7 ∧ s.exchange 1 = .exited ∧ (s.world.results 2).slot 0 = (3, 8, 5) := by
  have hinit : (Monitor.init 1 World.blank).Reachable everyFive 1 World.blank := .refl
  have hreport :=
    hinit.tail (.call (g := 1) ⟨le_rfl, le_rfl⟩ rfl 21 4 fun i => [2, 0, 3, 8].getD i 0)
  have hstored := ((hreport.tail (.recv (g := 1) rfl rfl fun _ => 0)).tail (.save rfl rfl)).tail
    (.handleHypcall rfl (by decide) (by decide) rfl)
  have hanswered := hstored.tail (.send (g := 1) rfl rfl rfl (.inl rfl))
  have hcall := hanswered.tail
    (.call (g := 1) ⟨le_rfl, le_rfl⟩ rfl 23 3 fun i => if i = 1 then 7 else 0)
  have hsave := (hcall.tail (.recv (g := 1) rfl rfl fun _ => 0)).tail (.save rfl rfl)
  have hexit := hsave.tail (.handleExit rfl (by decide) rfl (.inr rfl))
  have hdelete := hexit.tail (.delete rfl)
  obtain ⟨-, -, -, -, hslot, -, -, -, hfinished, -⟩ :=
    monitor_sessions (by decide) World.blank hdelete
  refine ⟨_, hdelete, rfl, (hfinished 7 rfl).1 1 ⟨le_rfl, le_rfl⟩, (hslot 2 0).trans ?_⟩
  rfl

end Sel4bench.Vcpu
